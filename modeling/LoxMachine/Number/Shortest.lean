import LoxMachine.Number.Decimal

/-!
# The shortest decimal that reads back

Among the decimals that round to a given rank, `shortest` takes one of the fewest digits, and
of those the nearest; of two equally near, the one whose last digit is even.

## Algorithm

For 1, 2, … 17 digits the two neighbours of the magnitude on that decimal grid are tried, and
the first grid with a hit wins. If a point of a grid rounds to the rank, so does one of the two
neighbours, because the points that do lie in an interval around the magnitude. Seventeen digits
always suffice; `exact`, every digit of the magnitude, stands behind the search all the same.
-/

namespace LoxMachine.Shortest

open Binary64

/-- The power of ten of a positive rank's leading digit. -/
def leadingExponent (rank : Nat) : Int :=
  (Nat.toDigits 10 (10 ^ 330 * units rank / one)).length - 331

/-- The magnitude divided by `10 ^ place`, as a ratio. -/
def onGrid (rank : Nat) (place : Int) : Nat × Nat :=
  if 0 ≤ place then (units rank, one * 10 ^ place.toNat)
  else (10 ^ (-place).toNat * units rank, one)

/-- The better neighbour on the grid of multiples of `10 ^ place` that reads back. -/
def neighbour? (rank : Nat) (place : Int) : Option Decimal :=
  let (num, den) := onGrid rank place
  let low := num / den
  let readsBack (n : Nat) : Bool := (Decimal.mk n place).rank = rank
  match readsBack low, readsBack (low + 1) with
  | true, false => some ⟨low, place⟩
  | false, true => some ⟨low + 1, place⟩
  | false, false => none
  | true, true =>
    let middle := den * (2 * low + 1)
    if 2 * num < middle then some ⟨low, place⟩
    else if middle < 2 * num then some ⟨low + 1, place⟩
    else some ⟨low + low % 2, place⟩

/-- Every digit of the magnitude: 2⁻¹⁰⁷⁴ is `5 ^ 1074 · 10 ^ -1074`. -/
def exact (rank : Nat) : Decimal := ⟨5 ^ 1074 * units rank, -1074⟩

@[irreducible] def shortest (rank : Nat) : Decimal :=
  if rank = 0 then ⟨0, 0⟩
  else
    let top := leadingExponent rank
    let found := (List.range 17).findSome? fun (n : Nat) => neighbour? rank (top - n)
    (found.getD (exact rank)).stripped

end LoxMachine.Shortest
