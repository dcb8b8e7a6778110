import LoxMachine.Number.Shortest
import LoxMachine.Proofs.Number.Rank

/-!
# Decimals that read back

A decimal is rounded by its value: the exponents that are settled without a power of ten are
settled as rounding would have it (`toBinary64_eq`), and neither zeros at the end of the digits nor
the exponent that goes with them matter (`exactRank_shift`). So the shortest decimal of a rank,
whichever the search finds, is rounded to that rank.

    (shortest rank).exactRank = rank                                  (exactRank_shortest)
-/

namespace LoxMachine.Decimal

open Binary64

/-! ## Rounding -/

/-- The rank nearest to the decimal, whatever its exponent. -/
def exactRank (d : Decimal) : Nat :=
  if 0 ≤ d.exponent then nearestRank (d.digits * 10 ^ d.exponent.toNat) 1
  else nearestRank d.digits (10 ^ (-d.exponent).toNat)

theorem nearestRank_zero {den : Nat} (h : 0 < den) : nearestRank 0 den = 0 :=
  nearestRank_eq_zero (by
    rw [Nat.mul_zero]
    exact h)

theorem exactRank_zero (e : Int) : exactRank ⟨0, e⟩ = 0 := by
  unfold exactRank
  dsimp only
  split
  · rw [Nat.zero_mul, nearestRank_zero Nat.one_pos]
  · exact nearestRank_zero (Nat.pow_pos (by decide))

theorem rankLimit_le_exactRank {d : Decimal} (h0 : d.digits ≠ 0) (h : 310 < d.exponent) :
    rankLimit ≤ d.exactRank := by
  obtain ⟨k, hk, hten⟩ : ∃ k, k = 311 ∧ 2 ^ 1024 - 2 ^ 970 ≤ 10 ^ k :=
    ⟨311, rfl, by decide +kernel⟩
  have hpow : 10 ^ k ≤ 10 ^ d.exponent.toNat := Nat.pow_le_pow_right (by decide) (by omega)
  have hdigits := Nat.mul_le_mul_right (10 ^ d.exponent.toNat) (Nat.one_le_iff_ne_zero.mpr h0)
  rw [Nat.one_mul] at hdigits
  unfold exactRank
  rw [if_pos (by omega)]
  exact rankLimit_le_nearestRank_iff.mpr (Nat.le_trans hten (Nat.le_trans hpow hdigits))

theorem two_mul_one_mul_lt {n k e : Nat} (hk : 2 * one * 2 ≤ 10 ^ k) (he : k + n.log2 ≤ e) :
    2 * (one * n) < 10 ^ e := by
  have hlog : 2 ^ n.log2 ≤ 10 ^ n.log2 := Nat.pow_le_pow_left (by decide) _
  have hn : n < 2 ^ n.log2 * 2 := Nat.lt_log2_self
  have hone : 0 < 2 * one := Nat.mul_pos (by decide) one_pos
  calc 2 * (one * n)
      = 2 * one * n := (Nat.mul_assoc ..).symm
    _ < 2 * one * (2 ^ n.log2 * 2) := Nat.mul_lt_mul_of_pos_left hn hone
    _ = 2 * one * 2 * 2 ^ n.log2 := by
        rw [Nat.mul_comm (2 ^ n.log2), Nat.mul_assoc (2 * one)]
    _ ≤ 10 ^ k * 10 ^ n.log2 := Nat.mul_le_mul hk hlog
    _ = 10 ^ (k + n.log2) := (Nat.pow_add ..).symm
    _ ≤ 10 ^ e := Nat.pow_le_pow_right (by decide) he

theorem exactRank_eq_zero {d : Decimal} (h : d.exponent + d.digits.log2 + 1 < -330) :
    d.exactRank = 0 := by
  have hone : 2 * one * 2 ≤ 10 ^ 332 := by
    rw [one_eq]
    decide +kernel
  unfold exactRank
  rw [if_neg (by omega)]
  exact nearestRank_eq_zero (two_mul_one_mul_lt hone (by omega))

/-- The exponents that are settled beforehand make no difference below the limit. -/
theorem rank_eq (d : Decimal) :
    d.rank = d.exactRank ∨ rankLimit ≤ d.rank ∧ rankLimit ≤ d.exactRank := by
  unfold rank
  by_cases h0 : d.digits = 0
  · obtain ⟨n, e⟩ := d
    subst h0
    rw [if_pos rfl, exactRank_zero]
    exact .inl rfl
  · rw [if_neg h0]
    by_cases hlarge : 310 < d.exponent
    · rw [if_pos hlarge]
      exact .inr ⟨Nat.le_refl _, rankLimit_le_exactRank h0 hlarge⟩
    · rw [if_neg hlarge]
      by_cases hsmall : d.exponent + d.digits.log2 + 1 < -330
      · rw [if_pos hsmall, exactRank_eq_zero hsmall]
        exact .inl rfl
      · rw [if_neg hsmall]
        exact .inl rfl

theorem exactRank_eq_rank {d : Decimal} (h : d.rank < rankLimit) : d.exactRank = d.rank := by
  rcases d.rank_eq with heq | hle
  · exact heq.symm
  · omega

/-- A decimal is rounded by its value. -/
theorem toBinary64_eq (negative : Bool) (d : Decimal) :
    d.toBinary64 negative = .ofRank negative d.exactRank := by
  unfold toBinary64
  rcases d.rank_eq with heq | ⟨hrank, hexact⟩
  · rw [heq]
  · unfold rankLimit at hrank hexact
    unfold ofRank
    rw [dif_neg (by omega), dif_neg (by omega)]

/-! ## Zeros at the end -/

theorem exactRank_mul_ten (n : Nat) (e : Int) : exactRank ⟨n * 10, e⟩ = exactRank ⟨n, e + 1⟩ := by
  unfold exactRank
  dsimp only
  by_cases h : 0 ≤ e
  · have hexp : (e + 1).toNat = e.toNat + 1 := by omega
    rw [if_pos h, if_pos (by omega), hexp, Nat.pow_succ', Nat.mul_assoc]
  · rw [if_neg h]
    by_cases h' : 0 ≤ e + 1
    · have hexp : (-e).toNat = 1 := by omega
      have hexp' : (e + 1).toNat = 0 := by omega
      rw [if_pos h', hexp, hexp', Nat.mul_comm n, Nat.pow_one, Nat.pow_zero, Nat.mul_one]
      exact nearestRank_mul (k := 10) (by decide) n 1
    · have hexp : (-e).toNat = (-(e + 1)).toNat + 1 := by omega
      rw [if_neg h', hexp, Nat.mul_comm n, Nat.pow_succ']
      exact nearestRank_mul (by decide) ..

/-- Zeros at the end of the digits are taken off by the exponent. -/
theorem exactRank_shift (n k : Nat) (e : Int) :
    exactRank ⟨n * 10 ^ k, e⟩ = exactRank ⟨n, e + k⟩ := by
  induction k generalizing e with
  | zero => simp
  | succ k ih =>
    rw [Nat.pow_succ, ← Nat.mul_assoc, exactRank_mul_ten, ih]
    congr 2
    omega

theorem exactRank_stripped (d : Decimal) : d.stripped.exactRank = d.exactRank := by
  induction d using stripped.induct with
  | case1 d h ih =>
    have hdigits : d.digits / 10 * 10 = d.digits := by omega
    rw [stripped, if_pos h, ih, ← exactRank_mul_ten, hdigits]
  | case2 d h => rw [stripped, if_neg h]

end LoxMachine.Decimal

namespace LoxMachine.Shortest

open Binary64

/-! ## The shortest decimal -/

/-- A neighbour is taken only if it reads back. -/
theorem rank_of_neighbour {rank : Nat} {place : Int} {d : Decimal}
    (h : neighbour? rank place = some d) : d.rank = rank := by
  simp only [neighbour?] at h
  split at h
  · next hlow _ =>
    cases h
    exact of_decide_eq_true hlow
  · next _ hhigh =>
    cases h
    exact of_decide_eq_true hhigh
  · cases h
  · next hlow hhigh =>
    have hl := of_decide_eq_true hlow
    have hh := of_decide_eq_true hhigh
    split at h
    · cases h
      exact hl
    · split at h
      · cases h
        exact hh
      · cases h
        rcases Nat.mod_two_eq_zero_or_one
          ((onGrid rank place).1 / (onGrid rank place).2) with hm | hm
        · rw [hm]
          exact hl
        · rw [hm]
          exact hh

theorem nearestRank_five_mul {k : Nat} (hk : one = 2 ^ k) (u : Nat) :
    nearestRank (5 ^ k * u) (10 ^ k) = nearestRank u one := by
  have hten : 10 ^ k = 5 ^ k * one := by
    rw [hk, ← Nat.mul_pow]
  rw [hten, nearestRank_mul (Nat.pow_pos (by decide))]

theorem exactRank_exact (rank : Nat) : (exact rank).exactRank = rank := by
  obtain ⟨k, hk⟩ : ∃ k, k = 1074 := ⟨_, rfl⟩
  have hone := one_eq
  unfold Decimal.exactRank exact
  have hexp : (-(-1074 : Int)).toNat = k := by omega
  rw [← hk] at hone ⊢
  rw [if_neg (by dsimp only; omega), hexp, nearestRank_five_mul hone, nearestRank_units]

/-- **Shortest decimals.** Whichever decimal the search finds, it is rounded to the rank. -/
theorem exactRank_shortest {rank : Nat} (h : rank < rankLimit) :
    (shortest rank).exactRank = rank := by
  unfold shortest
  by_cases h0 : rank = 0
  · rw [if_pos h0, h0, Decimal.exactRank_zero]
  · rw [if_neg h0]
    dsimp only
    rw [Decimal.exactRank_stripped]
    cases hfound : (List.range 17).findSome?
        (fun (n : Nat) => neighbour? rank (leadingExponent rank - n)) with
    | none =>
      rw [Option.getD_none]
      exact exactRank_exact rank
    | some d =>
      obtain ⟨n, -, hd⟩ := List.exists_of_findSome?_eq_some hfound
      have hrank := rank_of_neighbour hd
      rw [Option.getD_some, Decimal.exactRank_eq_rank (by omega), hrank]

/-- Only the shortest decimal of zero has no digits but zero. -/
theorem digits_shortest_ne_zero {rank : Nat} (h0 : rank ≠ 0) (h : rank < rankLimit) :
    (shortest rank).digits ≠ 0 := by
  intro hd
  have hrank := exactRank_shortest h
  generalize shortest rank = d at hd hrank
  obtain ⟨n, e⟩ := d
  dsimp only at hd
  rw [hd, Decimal.exactRank_zero] at hrank
  exact h0 hrank.symm

theorem shortest_zero : shortest 0 = ⟨0, 0⟩ := by
  unfold shortest
  rfl

theorem ofRank_fin (negative : Bool) (rank : Fin (2047 * 2 ^ 52)) :
    ofRank negative rank = .finite negative rank := by
  unfold ofRank
  rw [dif_pos rank.isLt]

end LoxMachine.Shortest
