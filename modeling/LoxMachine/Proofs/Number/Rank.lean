import LoxMachine.Number.Binary64

/-!
# Ranks and magnitudes

The magnitudes ascend with the rank, so a rank can be found again from its magnitude, by
`rankBelow` and by rounding. Rounding looks at the ratio alone, not at how it is written, and goes
beyond the last finite magnitude from the middle between it and 2¹⁰²⁴ on.

    rankBelow (units rank) = rank                                  (rankBelow_units)
    nearestRank (units rank) one = rank                            (nearestRank_units)
    nearestRank (k * num) (k * den) = nearestRank num den          (nearestRank_mul)
    rankLimit ≤ nearestRank num 1 ↔ 2 ^ 1024 - 2 ^ 970 ≤ num       (rankLimit_le_nearestRank_iff)
-/

namespace LoxMachine.Binary64

/-! ## Magnitudes -/

theorem one_eq : one = 2 ^ 1074 := by
  unfold one
  exact Eq.refl _

theorem one_pos : 0 < one := by
  obtain ⟨k, hk⟩ : ∃ k, one = 2 ^ k := ⟨_, one_eq⟩
  rw [hk]
  exact Nat.two_pow_pos k

theorem units_of_lt {rank : Nat} (h : rank < 2 ^ 52) : units rank = rank := by
  rw [units, if_pos h]

theorem units_of_le {rank : Nat} (h : 2 ^ 52 ≤ rank) :
    units rank = (2 ^ 52 + rank % 2 ^ 52) * 2 ^ (rank / 2 ^ 52 - 1) := by
  rw [units, if_neg (by omega)]

/-- A mantissa and an exponent make up a rank from 2⁵² on. -/
theorem units_mantissa {m e : Nat} (hm : m < 2 ^ 52) :
    units (2 ^ 52 * (e + 1) + m) = (2 ^ 52 + m) * 2 ^ e := by
  rw [units_of_le (by omega)]
  have hmod : (2 ^ 52 * (e + 1) + m) % 2 ^ 52 = m := by omega
  have hdiv : (2 ^ 52 * (e + 1) + m) / 2 ^ 52 = e + 1 := by omega
  rw [hmod, hdiv, Nat.add_sub_cancel]

/-- The next rank has the same exponent or, if the mantissa is full, twice the least mantissa. -/
theorem units_mantissa_succ {m e : Nat} (hm : m < 2 ^ 52) :
    units (2 ^ 52 * (e + 1) + m + 1) = (2 ^ 52 + m + 1) * 2 ^ e := by
  by_cases hm' : m + 1 < 2 ^ 52
  · rw [Nat.add_assoc, units_mantissa hm', Nat.add_assoc]
  · have hr : 2 ^ 52 * (e + 1) + m + 1 = 2 ^ 52 * (e + 1 + 1) + 0 := by omega
    have hfull : 2 ^ 52 + m + 1 = 2 ^ 52 * 2 := by omega
    have hpow : 2 ^ (e + 1) = 2 * 2 ^ e := Nat.pow_succ'
    rw [hr, units_mantissa (by omega), hfull, hpow, Nat.add_zero, Nat.mul_assoc (2 ^ 52) 2]

theorem exists_mantissa {rank : Nat} (h : 2 ^ 52 ≤ rank) :
    ∃ m e, m < 2 ^ 52 ∧ rank = 2 ^ 52 * (e + 1) + m :=
  ⟨rank % 2 ^ 52, rank / 2 ^ 52 - 1, by omega, by omega⟩

/-- The magnitudes ascend. -/
theorem units_lt_units_succ (rank : Nat) : units rank < units (rank + 1) := by
  by_cases h : rank < 2 ^ 52
  · rw [units_of_lt h]
    by_cases h' : rank + 1 < 2 ^ 52
    · rw [units_of_lt h']
      exact Nat.lt_succ_self rank
    · have hr : rank + 1 = 2 ^ 52 * (0 + 1) + 0 := by omega
      rw [hr, units_mantissa (by omega)]
      omega
  · obtain ⟨m, e, hm, rfl⟩ := exists_mantissa (Nat.le_of_not_lt h)
    rw [units_mantissa hm, units_mantissa_succ hm]
    exact Nat.mul_lt_mul_of_pos_right (Nat.lt_succ_self _) (Nat.two_pow_pos e)

theorem units_le_units {rank rank' : Nat} (h : rank ≤ rank') : units rank ≤ units rank' := by
  induction h with
  | refl => exact Nat.le_refl _
  | step _ ih => exact Nat.le_trans ih (Nat.le_of_lt (units_lt_units_succ _))

/-! ## The rank below -/

theorem rankBelow_of_lt {q : Nat} (h : q < 2 ^ 52) : rankBelow q = q := by
  have hlog : q.log2 - 52 = 0 := by
    by_cases h0 : q = 0
    · rw [h0]
      rfl
    · have := (Nat.log2_lt h0).mpr h
      omega
  simp only [rankBelow, hlog]
  omega

theorem rankBelow_mantissa {m e : Nat} (hm : m < 2 ^ 52) :
    rankBelow ((2 ^ 52 + m) * 2 ^ e) = 2 ^ 52 * (e + 1) + m := by
  have hpos : 0 < 2 ^ e := Nat.two_pow_pos e
  have hlog : ((2 ^ 52 + m) * 2 ^ e).log2 = 52 + e := by
    rw [Nat.log2_eq_iff (Nat.ne_of_gt (Nat.mul_pos (by omega) hpos)), Nat.pow_add,
      Nat.add_right_comm, Nat.pow_add]
    exact ⟨Nat.mul_le_mul_right _ (by omega), Nat.mul_lt_mul_of_pos_right (by omega) hpos⟩
  simp only [rankBelow, hlog, Nat.add_sub_cancel_left, Nat.mul_div_cancel _ hpos]
  omega

/-- A magnitude gives its rank back. -/
theorem rankBelow_units (rank : Nat) : rankBelow (units rank) = rank := by
  by_cases h : rank < 2 ^ 52
  · rw [units_of_lt h, rankBelow_of_lt h]
  · obtain ⟨m, e, hm, rfl⟩ := exists_mantissa (Nat.le_of_not_lt h)
    rw [units_mantissa hm, rankBelow_mantissa hm]

/-- From 2⁵² units on, the rank below keeps the 53 highest bits. -/
theorem exists_rankBelow {q : Nat} (h : 2 ^ 52 ≤ q) :
    ∃ m e, m < 2 ^ 52 ∧ q / 2 ^ e = 2 ^ 52 + m ∧ rankBelow q = 2 ^ 52 * (e + 1) + m := by
  have h0 : q ≠ 0 := by omega
  obtain ⟨e, he⟩ : ∃ e, q.log2 = 52 + e :=
    ⟨q.log2 - 52, by have := (Nat.le_log2 h0).mpr h; omega⟩
  obtain ⟨hle, hlt⟩ := (Nat.log2_eq_iff h0).mp he
  rw [Nat.pow_add] at hle
  rw [Nat.add_right_comm, Nat.pow_add] at hlt
  have hlow := (Nat.le_div_iff_mul_le (Nat.two_pow_pos e)).mpr hle
  have hhigh := (Nat.div_lt_iff_lt_mul (Nat.two_pow_pos e)).mpr hlt
  refine ⟨q / 2 ^ e - 2 ^ 52, e, by omega, by omega, ?_⟩
  simp only [rankBelow, he, Nat.add_sub_cancel_left]
  omega

/-- A rank is below as many units as the rank is greater. -/
theorem lt_units_iff {q rank : Nat} : q < units rank ↔ rankBelow q < rank := by
  have hbelow : units (rankBelow q) ≤ q ∧ q < units (rankBelow q + 1) := by
    by_cases h : q < 2 ^ 52
    · have hself := units_of_lt h
      rw [rankBelow_of_lt h]
      exact ⟨Nat.le_of_eq hself, by have := units_lt_units_succ q; omega⟩
    · obtain ⟨m, e, hm, hdiv, hrank⟩ := exists_rankBelow (Nat.le_of_not_lt h)
      rw [hrank, units_mantissa hm, units_mantissa_succ hm, ← hdiv]
      exact ⟨Nat.div_mul_le_self q _, Nat.lt_mul_of_div_lt (Nat.lt_succ_self _) (Nat.two_pow_pos e)⟩
  constructor
  · intro h
    refine Nat.lt_of_not_le fun hle => ?_
    have := units_le_units hle
    omega
  · intro h
    exact Nat.lt_of_lt_of_le hbelow.2 (units_le_units h)

/-! ## Rounding -/

theorem nearestRank_eq (num den : Nat) : nearestRank num den =
    let below := rankBelow (one * num / den)
    let middle := den * (units below + units (below + 1))
    if 2 * (one * num) < middle then below
    else if middle < 2 * (one * num) then below + 1
    else below + below % 2 := by
  unfold nearestRank
  rfl

/-- How a ratio is written does not matter. -/
theorem nearestRank_mul {k : Nat} (hk : 0 < k) (num den : Nat) :
    nearestRank (k * num) (k * den) = nearestRank num den := by
  have hscaled : one * (k * num) = k * (one * num) := Nat.mul_left_comm ..
  rw [nearestRank_eq, nearestRank_eq, hscaled, Nat.mul_div_mul_left _ _ hk,
    Nat.mul_left_comm 2 k]
  dsimp only
  rw [Nat.mul_assoc k den]
  simp only [Nat.mul_lt_mul_left hk]

/-- A magnitude is rounded to its own rank. -/
theorem nearestRank_units (rank : Nat) : nearestRank (units rank) one = rank := by
  have hlt := units_lt_units_succ rank
  have hmul := Nat.mul_lt_mul_of_pos_left
    (show 2 * units rank < units rank + units (rank + 1) by omega) one_pos
  rw [nearestRank_eq, Nat.mul_div_cancel_left _ one_pos, rankBelow_units, Nat.mul_left_comm 2]
  dsimp only
  rw [if_pos hmul]

/-- Less than half of the least magnitude is rounded to zero. -/
theorem nearestRank_eq_zero {num den : Nat} (h : 2 * (one * num) < den) :
    nearestRank num den = 0 := by
  have hdiv : one * num / den = 0 := Nat.div_eq_of_lt (by omega)
  rw [nearestRank_eq, hdiv, rankBelow_of_lt (by omega)]
  dsimp only
  rw [units_of_lt (by omega), units_of_lt (by omega), if_pos (by omega)]

/-- Above an odd rank is all that is nearer to the next one, and the middle between the two. -/
theorem lt_nearestRank_iff {rank num den : Nat} (hodd : rank % 2 = 1) (hden : 0 < den) :
    rank < nearestRank num den ↔ den * (units rank + units (rank + 1)) ≤ 2 * (one * num) := by
  have hbelow (r : Nat) : one * num < den * units r ↔ rankBelow (one * num / den) < r := by
    rw [← lt_units_iff, Nat.div_lt_iff_lt_mul hden, Nat.mul_comm den]
  have hrank := hbelow rank
  have hnext := hbelow (rank + 1)
  have hascend := Nat.mul_le_mul_left den (Nat.le_of_lt (units_lt_units_succ rank))
  rw [nearestRank_eq, Nat.mul_add]
  dsimp only
  rcases Nat.lt_trichotomy (rankBelow (one * num / den)) rank with h | h | h
  · have hlt := hrank.mpr h
    constructor
    · intro hnear
      split at hnear
      · omega
      · split at hnear <;> omega
    · intro hle
      omega
  · rw [h, Nat.mul_add]
    split
    · omega
    · split <;> omega
  · have hle : ¬ one * num < den * units (rank + 1) := by
      rw [hnext]
      omega
    constructor
    · intro _
      omega
    · intro _
      split
      · exact h
      · split <;> omega

/-- **Range.** A whole number of 2¹⁰²⁴ - 2⁹⁷⁰ or more is rounded beyond the last finite magnitude:
that is the middle between this magnitude and 2¹⁰²⁴. -/
theorem rankLimit_le_nearestRank_iff {num : Nat} :
    rankLimit ≤ nearestRank num 1 ↔ 2 ^ 1024 - 2 ^ 970 ≤ num := by
  -- the exponents get names, so that no power is evaluated
  obtain ⟨k, hk⟩ : ∃ k, k = 970 := ⟨_, rfl⟩
  obtain ⟨i, hi⟩ : ∃ i, i = 1074 := ⟨_, rfl⟩
  have hone : one = 2 ^ i := by rw [one_eq, hi]
  have hlast : rankLimit = 2 ^ 52 * (i + k + 1 + 1) + (2 ^ 52 - 1) + 1 := by
    unfold rankLimit
    omega
  have hodd : (2 ^ 52 * (i + k + 1 + 1) + (2 ^ 52 - 1)) % 2 = 1 := by omega
  have hpow : 2 ^ (i + k + 1) = 2 * (2 ^ i * 2 ^ k) := by rw [Nat.pow_succ', Nat.pow_add]
  have hbound : 2 ^ (54 + k) - 2 ^ k = (2 ^ 54 - 1) * 2 ^ k := by
    rw [Nat.sub_mul, Nat.one_mul, Nat.pow_add]
  -- both sides are compared as multiples of the least magnitude
  have hunits : (2 ^ 54 - 1) * 2 ^ k ≤ num ↔
      (2 ^ 54 - 1) * (2 ^ i * 2 ^ k) ≤ 2 ^ i * num := by
    rw [Nat.mul_left_comm, Nat.mul_le_mul_left_iff (Nat.two_pow_pos i)]
  rw [show 1024 = 54 + k by omega, show 970 = k from hk.symm, hbound, hunits, hlast,
    Nat.succ_le_iff, lt_nearestRank_iff hodd Nat.one_pos, units_mantissa (by omega),
    units_mantissa_succ (by omega), hone, hpow, Nat.one_mul]
  omega

theorem ofInt?_eq_none_iff {i : Int} : ofInt? i = none ↔ 2 ^ 1024 - 2 ^ 970 ≤ i.natAbs := by
  rw [← rankLimit_le_nearestRank_iff]
  unfold ofInt?
  dsimp only
  split
  · next h => exact ⟨nofun, fun hle => absurd h (Nat.not_lt_of_le hle)⟩
  · next h => exact ⟨fun _ => Nat.le_of_not_lt h, fun _ => rfl⟩

end LoxMachine.Binary64
