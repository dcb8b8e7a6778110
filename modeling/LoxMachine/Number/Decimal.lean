import LoxMachine.Number.Binary64

/-!
# Decimal numbers and their nearest binary64

A decimal is `digits · 10 ^ exponent`. `toBinary64` rounds it once, to nearest with ties to
even. Exponents far outside the range of binary64 are settled without raising ten to them:
a decimal of at least 10³¹¹ is infinite, one below 10⁻³³⁰ is zero.
-/

namespace LoxMachine

structure Decimal where
  digits : Nat
  exponent : Int
  deriving DecidableEq, Inhabited

namespace Decimal

/-- The rank nearest to the decimal. -/
def rank (d : Decimal) : Nat :=
  if d.digits = 0 then 0
  else if 310 < d.exponent then Binary64.rankLimit
  else if d.exponent + d.digits.log2 + 1 < -330 then 0
  else if 0 ≤ d.exponent then Binary64.nearestRank (d.digits * 10 ^ d.exponent.toNat) 1
  else Binary64.nearestRank d.digits (10 ^ (-d.exponent).toNat)

def toBinary64 (negative : Bool) (d : Decimal) : Binary64 := .ofRank negative d.rank

/-- The same number without zeros at the end of its digits. -/
def stripped (d : Decimal) : Decimal :=
  if 0 < d.digits ∧ d.digits % 10 = 0 then stripped ⟨d.digits / 10, d.exponent + 1⟩ else d
termination_by d.digits
decreasing_by omega

end Decimal
end LoxMachine
