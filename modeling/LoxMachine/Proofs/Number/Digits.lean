import LoxMachine.Number.Binary64
import LoxMachine.Number.Numeral

/-!
# Digits

Readers take a run of digits off a text, as far as it goes; `StartsNoDigit` says of what follows
that it does not lengthen the run. The digits of a number are such a run, without a zero in front
of a number that is not zero.

    spanDigits (ds ++ r) = (ds, r)                                     (spanDigits_append)

A text that is nothing but the digits of an integer, with its sign, is read as that integer.

    (ofNat i.natAbs).length ≤ maxDigits → read? (ofInt i) = some i          (read?_ofInt)
-/

namespace LoxMachine.Numeral

/-! ## Runs of digits -/

def Digits (s : List Char) : Prop := ∀ c ∈ s, isDigit c = true

def StartsNoDigit (s : List Char) : Prop := ∀ c, s.head? = some c → isDigit c = false

theorem isDigit_eq (c : Char) : isDigit c = c.isDigit := by
  rw [Bool.eq_iff_iff, Char.isDigit_iff_toNat]
  simp [isDigit, Char.le_def, UInt32.le_iff_toNat_le]

theorem digits_ofNat (n : Nat) : Digits (ofNat n) := by
  intro c hc
  rw [isDigit_eq]
  exact Nat.isDigit_of_mem_toDigits (by decide) (by decide) hc

theorem digits_replicate (k : Nat) : Digits (List.replicate k '0') := by
  intro c hc
  rw [List.eq_of_mem_replicate hc]
  decide

theorem Digits.append {s t : List Char} (hs : Digits s) (ht : Digits t) : Digits (s ++ t) := by
  intro c hc
  rcases List.mem_append.mp hc with hc | hc
  · exact hs c hc
  · exact ht c hc

theorem Digits.take {s : List Char} (h : Digits s) (k : Nat) : Digits (s.take k) :=
  fun c hc => h c (List.mem_of_mem_take hc)

theorem Digits.drop {s : List Char} (h : Digits s) (k : Nat) : Digits (s.drop k) :=
  fun c hc => h c (List.mem_of_mem_drop hc)

theorem Digits.tail {c : Char} {s : List Char} (h : Digits (c :: s)) : Digits s :=
  fun d hd => h d (List.mem_cons_of_mem c hd)

/-- A run of digits is taken off whole. -/
theorem spanDigits_append {ds r : List Char} (hds : Digits ds) (hr : StartsNoDigit r) :
    spanDigits (ds ++ r) = (ds, r) := by
  have htake : r.takeWhile isDigit = [] := by
    cases r with
    | nil => rfl
    | cons c r => rw [List.takeWhile_cons, hr c rfl, if_neg Bool.false_ne_true]
  have hdrop : r.dropWhile isDigit = r := by
    cases r with
    | nil => rfl
    | cons c r => rw [List.dropWhile_cons, hr c rfl, if_neg Bool.false_ne_true]
  rw [spanDigits, List.takeWhile_append_of_pos hds, List.dropWhile_append_of_pos hds, htake, hdrop,
    List.append_nil]

/-! ## Digits of a number -/

theorem ofNat_zero : ofNat 0 = ['0'] := rfl

/-- No number but zero begins with a zero. -/
theorem head?_ofNat_ne {n : Nat} (h : n ≠ 0) : (ofNat n).head? ≠ some '0' := by
  unfold ofNat
  induction n using Nat.strongRecOn with
  | ind n ih =>
    by_cases hn : n < 10
    · rw [Nat.toDigits_of_lt_base hn]
      have hall : ∀ m, m < 10 → m ≠ 0 → [m.digitChar].head? ≠ some '0' := by decide
      exact hall n hn h
    · have hle : 10 ≤ n := by omega
      have hrest := ih (n / 10) (by omega) (by omega)
      have hne : Nat.toDigits 10 (n / 10) ≠ [] := Nat.toDigits_ne_nil
      obtain ⟨c, cs, hcs⟩ := List.exists_cons_of_ne_nil hne
      rw [Nat.toDigits_of_base_le (by decide) hle]
      rw [hcs] at hrest ⊢
      exact hrest

/-! ## Values -/

theorem toNat_append (s t : List Char) : toNat (s ++ t) = toNat s * 10 ^ t.length + toNat t := by
  unfold toNat
  rw [Nat.ofDigitChars_append, Nat.ofDigitChars_eq_ofDigitChars_zero, Nat.mul_comm]

theorem toNat_zeros (k : Nat) : toNat (List.replicate k '0') = 0 := by
  unfold toNat
  rw [Nat.ofDigitChars_replicate_zero, Nat.mul_zero]

theorem toNat_zeros_append (k : Nat) (s : List Char) :
    toNat (List.replicate k '0' ++ s) = toNat s := by
  rw [toNat_append, toNat_zeros, Nat.zero_mul, Nat.zero_add]

theorem toNat_append_zeros (s : List Char) (k : Nat) :
    toNat (s ++ List.replicate k '0') = toNat s * 10 ^ k := by
  rw [toNat_append, toNat_zeros, List.length_replicate, Nat.add_zero]

theorem toNat_singleton_le {c : Char} (h : isDigit c = true) : toNat [c] ≤ 9 := by
  simp only [isDigit, Bool.and_eq_true, decide_eq_true_eq] at h
  have hle : c.toNat ≤ '9'.toNat := h.2
  have heq : toNat [c] = 10 * 0 + (c.toNat - '0'.toNat) := Nat.ofDigitChars_cons
  have h0 : '0'.toNat = 48 := rfl
  have h9 : '9'.toNat = 57 := rfl
  omega

theorem toNat_lt {ds : List Char} (h : Digits ds) : toNat ds < 10 ^ ds.length := by
  induction ds with
  | nil => exact Nat.one_pos
  | cons c ds ih =>
    have hc := toNat_singleton_le (h c List.mem_cons_self)
    have hrest := ih h.tail
    have hmul := Nat.mul_le_mul_right (10 ^ ds.length) hc
    rw [← List.singleton_append, toNat_append, List.singleton_append, List.length_cons,
      Nat.pow_succ]
    omega

/-- A number padded with zeros is that number. -/
theorem padded_ofNat (width n : Nat) :
    padded width n = List.replicate (width - (ofNat n).length) '0' ++ ofNat n := by
  unfold padded
  rw [if_neg (by omega), Int.natAbs_natCast]
  rfl

theorem digits_padded (width n : Nat) : Digits (padded width n) := by
  rw [padded_ofNat]
  exact (digits_replicate _).append (digits_ofNat n)

theorem toNat_padded (width n : Nat) : toNat (padded width n) = n := by
  rw [padded_ofNat, toNat_zeros_append, toNat_ofNat]

theorem padded_ne_nil (width n : Nat) : padded width n ≠ [] := by
  rw [padded_ofNat]
  simp [ofNat_ne_nil]

theorem ofNat_inj {m n : Nat} : ofNat m = ofNat n ↔ m = n :=
  ⟨fun h => by rw [← toNat_ofNat m, h, toNat_ofNat], congrArg ofNat⟩

theorem padded_inj {width m n : Nat} : padded width m = padded width n ↔ m = n :=
  ⟨fun h => by rw [← toNat_padded width m, h, toNat_padded], fun h => by rw [h]⟩

/-! ## Integers -/

/-- The sign is told from the digits, so no two integers share a text. -/
theorem ofInt_inj {i j : Int} : ofInt i = ofInt j ↔ i = j := by
  have hsign (n : Nat) : '-' ∉ ofNat n := fun h => absurd (digits_ofNat n '-' h) (by decide)
  refine ⟨fun h => ?_, congrArg ofInt⟩
  unfold ofInt at h
  by_cases hi : i < 0 <;> by_cases hj : j < 0
  · rw [if_pos hi, if_pos hj, List.cons.injEq, ofNat_inj] at h
    omega
  · rw [if_pos hi, if_neg hj] at h
    exact absurd (h ▸ List.mem_cons_self) (hsign j.natAbs)
  · rw [if_neg hi, if_pos hj] at h
    exact absurd (h ▸ List.mem_cons_self) (hsign i.natAbs)
  · rw [if_neg hi, if_neg hj, ofNat_inj] at h
    omega

/-- ASCII comes first of all scripts. -/
theorem digitValue?_of_isDigit {c : Char} (h : isDigit c = true) :
    Text.digitValue? c = some (c.toNat - '0'.toNat) := by
  rw [isDigit_eq, Char.isDigit_iff_toNat] at h
  have h0 : '0'.toNat = 48 := rfl
  have h9 : '9'.toNat = 57 := rfl
  unfold Text.digitValue?
  rw [← Array.find?_toList]
  refine congrArg _ (List.find?_cons_of_pos ?_)
  simp only [Bool.and_eq_true, decide_eq_true_eq]
  omega

theorem scriptDigits?_of_digits {ds : List Char} (h : Digits ds) (hne : ds ≠ []) :
    scriptDigits? ds = some (ds.map fun c => c.toNat - '0'.toNat) := by
  induction ds with
  | nil => exact absurd rfl hne
  | cons c r ih =>
    have hc := digitValue?_of_isDigit (h c List.mem_cons_self)
    cases r with
    | nil =>
      rw [scriptDigits?, hc]
      rfl
    | cons d r =>
      have hd : d ≠ '_' := by
        rintro rfl
        exact absurd (h '_' (by simp)) (by decide)
      rw [scriptDigits?, hc]
      dsimp only [bind, Option.bind]
      split
      · next heq => cases heq
      · next heq =>
        cases heq
        exact absurd rfl hd
      · rw [ih h.tail (List.cons_ne_nil d r)]
        rfl

theorem unsigned?_ofNat {n : Nat} (h : (ofNat n).length ≤ maxDigits) :
    unsigned? (ofNat n) = some n := by
  unfold unsigned?
  rw [scriptDigits?_of_digits (digits_ofNat n) (ofNat_ne_nil n)]
  dsimp only [bind, Option.bind]
  rw [List.length_map, if_neg (Nat.not_lt.mpr h), List.foldl_map]
  exact congrArg some (toNat_ofNat n)

/-- An integer is read from its digits. -/
theorem read?_ofInt {i : Int} (h : (ofNat i.natAbs).length ≤ maxDigits) :
    read? (ofInt i) = some i := by
  obtain ⟨c, r, hcr⟩ := List.exists_cons_of_ne_nil (ofNat_ne_nil i.natAbs)
  have hdigit : isDigit c = true := digits_ofNat i.natAbs c (by rw [hcr]; exact List.mem_cons_self)
  have hunsigned := unsigned?_ofNat h
  unfold ofInt
  by_cases hneg : i < 0
  · rw [if_pos hneg, read?, hunsigned]
    show some (-(i.natAbs : Int)) = some i
    congr 1
    omega
  · rw [if_neg hneg]
    rw [hcr] at hunsigned ⊢
    unfold read?
    split
    · next heq =>
      cases heq
      exact absurd hdigit (by decide)
    · next heq =>
      cases heq
      exact absurd hdigit (by decide)
    · rw [hunsigned]
      show some (i.natAbs : Int) = some i
      congr 1
      omega

end LoxMachine.Numeral
