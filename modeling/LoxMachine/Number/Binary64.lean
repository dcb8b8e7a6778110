/-!
# Binary64 numbers

A finite number is a sign and a *rank*: the position of its magnitude among all finite
magnitudes in ascending order, which is also the magnitude's bit pattern. `units` gives the
magnitude as a whole multiple of the least positive one, 2⁻¹⁰⁷⁴, so that everything below is
arithmetic of natural numbers. Large constants stand first in products: a product unfolds along
its second factor.

    nearestRank num den      the rank nearest to num / den, ties to the even rank
-/

-- powers of natural numbers are those of the core library, whatever else is there
attribute [instance (high)] instPowNat
attribute [default_instance 20000] instPowNat

namespace LoxMachine

inductive Binary64 where
  | finite (negative : Bool) (rank : Fin (2047 * 2 ^ 52))
  | infinite (negative : Bool)
  | nan
  deriving DecidableEq, Inhabited

namespace Binary64

/-! ## Magnitudes -/

/-- The number of finite magnitudes, zero included. -/
def rankLimit : Nat := 2047 * 2 ^ 52

/-- The number of units in 1. -/
@[irreducible] def one : Nat := 2 ^ 1074

/-- The magnitude of a rank, in units. Below 2⁵³ units each unit is a rank of its own; from
there on, each run of 2⁵² ranks doubles the distance between neighbours. -/
def units (rank : Nat) : Nat :=
  if rank < 2 ^ 52 then rank
  else (2 ^ 52 + rank % 2 ^ 52) * 2 ^ (rank / 2 ^ 52 - 1)

/-- The last rank whose magnitude is at most `q` units. -/
def rankBelow (q : Nat) : Nat :=
  let shift := q.log2 - 52
  2 ^ 52 * shift + q / 2 ^ shift

/-- The rank nearest to the ratio `num / den`; of two equally near, the even one. Past the last
finite magnitude the ranks go on as if there were no limit. -/
@[irreducible] def nearestRank (num den : Nat) : Nat :=
  let scaled := one * num
  let below := rankBelow (scaled / den)
  let middle := den * (units below + units (below + 1))
  if 2 * scaled < middle then below
  else if middle < 2 * scaled then below + 1
  else below + below % 2

/-! ## Numbers -/

/-- The number of a sign and a rank, infinite beyond the last finite magnitude. -/
def ofRank (negative : Bool) (rank : Nat) : Binary64 :=
  if h : rank < 2047 * 2 ^ 52 then .finite negative ⟨rank, h⟩ else .infinite negative

/-- The nearest number to an integer, if that is finite. -/
def ofInt? (i : Int) : Option Binary64 :=
  let rank := nearestRank i.natAbs 1
  if rank < rankLimit then some (.ofRank (i < 0) rank) else none

/-- Flips the sign, also that of zero and of the infinities. -/
def neg : Binary64 → Binary64
  | .finite s r => .finite (!s) r
  | .infinite s => .infinite (!s)
  | .nan => .nan

/-- The integer that a number equals, if there is one. -/
def toInt? : Binary64 → Option Int
  | .finite negative rank =>
    let u := units rank
    if u % one = 0 then some (if negative then -(u / one : Nat) else (u / one : Nat)) else none
  | _ => none

end Binary64
end LoxMachine
