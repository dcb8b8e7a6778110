import LoxMachine.Proofs.Number.ReadBack
import LoxMachine.Number.Numeral
import Mathlib.Data.Nat.Digits.Defs

/-!
# Whole numbers among the binary64 numbers

A finite number is a multiple of the least positive one, and without a fraction it is a multiple of
1. The integer that it equals then is the magnitude of a rank, so rounding the integer leads back to
that rank, however large it is.

    x.toInt? = some i ↔ x.signedUnits? = some (one * i)                      (toInt?_eq_some_iff)
    x.toInt? = some i → ∃ y, ofInt? i = some y ∧ y.Equals x             (exists_ofInt?_of_toInt?)
-/

namespace LoxMachine.Binary64

/-! ## Equality -/

/-- The value of a finite number, in units. -/
def signedUnits? : Binary64 → Option Int
  | .finite negative rank => some (if negative then -(units rank : Int) else units rank)
  | .infinite _ | .nan => none

/-- Finite numbers of the same value. Minus zero equals zero. -/
def Equals (x y : Binary64) : Prop := ∃ u, x.signedUnits? = some u ∧ y.signedUnits? = some u

theorem units_zero : units 0 = 0 := units_of_lt (by decide)

theorem units_inj {rank rank' : Nat} : units rank = units rank' ↔ rank = rank' := by
  constructor
  · intro h
    rw [← rankBelow_units rank, h, rankBelow_units]
  · intro h
    rw [h]

/-- Equal numbers differ at most in the sign of zero. -/
theorem equals_finite_iff {s s' : Bool} {r r' : Fin (2047 * 2 ^ 52)} :
    (finite s r).Equals (finite s' r') ↔ r = r' ∧ (s = s' ∨ r.val = 0) := by
  have hzero : units r = 0 ↔ r.val = 0 := by
    have h : units r = units 0 ↔ r.val = 0 := units_inj
    rwa [units_zero] at h
  have hrank : units r = units r' ↔ r = r' := by
    rw [units_inj, Fin.ext_iff]
  rw [← hzero, ← hrank]
  unfold Equals signedUnits?
  simp only [Option.some.injEq, exists_eq_left']
  cases s <;> cases s' <;> simp <;> omega

theorem Equals.refl_finite (s : Bool) (r : Fin (2047 * 2 ^ 52)) :
    (finite s r).Equals (finite s r) := ⟨_, rfl, rfl⟩

theorem Equals.symm {x y : Binary64} (h : x.Equals y) : y.Equals x := by
  obtain ⟨u, hx, hy⟩ := h
  exact ⟨u, hy, hx⟩

theorem Equals.trans {x y z : Binary64} (h : x.Equals y) (h' : y.Equals z) : x.Equals z := by
  obtain ⟨u, hx, hy⟩ := h
  obtain ⟨u', hy', hz⟩ := h'
  obtain rfl := Option.some.inj (hy.symm.trans hy')
  exact ⟨u, hx, hz⟩

/-! ## Multiples of 1 -/

theorem one_mul_inj {i j : Int} : (one : Int) * i = one * j ↔ i = j := by
  apply Int.mul_eq_mul_left_iff
  have := one_pos
  omega

/-- A number equals an integer if it is that multiple of 1. -/
theorem toInt?_eq_some_iff {x : Binary64} {i : Int} :
    x.toInt? = some i ↔ x.signedUnits? = some (one * i) := by
  cases x with
  | infinite _ | nan => simp [toInt?, signedUnits?]
  | finite s r =>
    unfold toInt? signedUnits?
    dsimp only
    by_cases hdvd : one ∣ units r
    · obtain ⟨k, hk⟩ := hdvd
      rw [hk, if_pos (Nat.mul_mod_right one k), Nat.mul_div_cancel_left k one_pos, Int.natCast_mul,
        Option.some_inj, Option.some_inj]
      cases s with
      | false => exact one_mul_inj.symm
      | true =>
        show -(k : Int) = i ↔ -((one : Int) * k) = one * i
        rw [← Int.mul_neg, one_mul_inj]
    · rw [if_neg fun hmod => hdvd (Nat.dvd_of_mod_eq_zero hmod)]
      constructor
      · nofun
      · intro h
        exfalso
        apply hdvd
        rw [← Int.natCast_dvd_natCast]
        cases s with
        | false => exact ⟨i, Option.some.inj h⟩
        | true => exact Int.dvd_neg.mp ⟨i, Option.some.inj h⟩

/-- Equal numbers equal the same integer, or none. -/
theorem Equals.toInt?_eq {x y : Binary64} (h : x.Equals y) : x.toInt? = y.toInt? := by
  obtain ⟨u, hx, hy⟩ := h
  apply Option.ext
  intro i
  rw [toInt?_eq_some_iff, toInt?_eq_some_iff, hx, hy]

/-- A number with a fraction is not zero, so no other number equals it. -/
theorem Equals.eq_of_toInt?_eq_none {x y : Binary64} (h : x.Equals y) (hx : x.toInt? = none) :
    x = y := by
  obtain ⟨u, hxu, hyu⟩ := id h
  cases x with
  | infinite _ | nan => cases hxu
  | finite s r =>
    cases y with
    | infinite _ | nan => cases hyu
    | finite s' r' =>
      obtain ⟨rfl, rfl | hzero⟩ := equals_finite_iff.mp h
      · rfl
      · unfold toInt? at hx
        dsimp only at hx
        rw [hzero, units_zero, Nat.zero_mod, if_pos rfl] at hx
        cases hx

/-! ## Rounding -/

/-- A whole magnitude is rounded to its own rank. -/
theorem nearestRank_of_units_eq {rank n : Nat} (h : units rank = one * n) :
    nearestRank n 1 = rank := by
  calc nearestRank n 1
      = nearestRank (one * n) (one * 1) := (nearestRank_mul one_pos n 1).symm
    _ = nearestRank (units rank) one := by rw [h, Nat.mul_one]
    _ = rank := nearestRank_units rank

/-- **Whole numbers.** The integer that a number equals is in range, and it is rounded to an equal
number. -/
theorem exists_ofInt?_of_toInt? {x : Binary64} {i : Int} (h : x.toInt? = some i) :
    ∃ y, ofInt? i = some y ∧ y.Equals x := by
  rw [toInt?_eq_some_iff] at h
  cases x with
  | infinite _ | nan => cases h
  | finite s r =>
    have hvalue : (if s then -(units r : Int) else units r) = one * i := Option.some.inj h
    have hunits : units r = one * i.natAbs := by
      rw [← Int.natAbs_natCast one, ← Int.natAbs_mul, ← hvalue]
      cases s <;> simp
    have hnearest := nearestRank_of_units_eq hunits
    have hlt : nearestRank i.natAbs 1 < rankLimit := by
      rw [hnearest]
      exact r.isLt
    -- the sign is that of the integer, so minus zero has become zero
    refine ⟨.finite (i < 0) r, ?_, one * i, congrArg some ?_, h⟩
    · unfold ofInt?
      dsimp only
      rw [if_pos hlt, hnearest, Shortest.ofRank_fin]
    · rw [hunits, Int.natCast_mul]
      by_cases hneg : i < 0
      · rw [if_pos (decide_eq_true hneg), ← Int.mul_neg, one_mul_inj]
        omega
      · rw [if_neg (by simpa using hneg), one_mul_inj]
        omega

/-- No integer in range has more than 309 digits. -/
theorem length_ofNat_le {i : Int} {y : Binary64} (h : ofInt? i = some y) :
    (Numeral.ofNat i.natAbs).length ≤ 309 := by
  have hlt : ¬ 2 ^ 1024 - 2 ^ 970 ≤ i.natAbs := by
    rw [← ofInt?_eq_none_iff, h]
    nofun
  have hpow : 2 ^ 1024 - 2 ^ 970 ≤ 10 ^ 309 := by decide +kernel
  exact Nat.toDigits_length 10 i.natAbs 309 (by decide) (by omega)

end LoxMachine.Binary64
