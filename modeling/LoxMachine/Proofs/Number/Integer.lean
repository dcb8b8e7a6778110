import LoxMachine.Number.Numeral

/-!
# What is read as an integer

An integer is spelled by a sign, which may be missing, and decimal digits of any script, of which
there are no more than `maxDigits`; single underscores may stand between two digits.

    (∃ n, read? s = some n) ↔ IsInteger s                             (exists_read?_iff)
-/

namespace LoxMachine.Numeral

open Text

/-- Digits of any script, of the given number, with single underscores between some of them. -/
inductive ScriptDigits : Nat → List Char → Prop
  | last {c : Char} (hc : isDecimalDigit c = true) : ScriptDigits 1 [c]
  | next {c : Char} {n : Nat} {r : List Char} (hc : isDecimalDigit c = true)
      (h : ScriptDigits n r) : ScriptDigits (n + 1) (c :: r)
  | underscore {c : Char} {n : Nat} {r : List Char} (hc : isDecimalDigit c = true)
      (h : ScriptDigits n r) : ScriptDigits (n + 1) (c :: '_' :: r)

/-- A sign or none, and digits. -/
def IsInteger (s : List Char) : Prop :=
  ∃ sign ∈ [[], ['-'], ['+']], ∃ n ≤ maxDigits, ∃ r, ScriptDigits n r ∧ s = sign ++ r

/-! ## Digits -/

theorem ScriptDigits.head? {n : Nat} {s : List Char} (h : ScriptDigits n s) :
    ∃ c r, s = c :: r ∧ isDecimalDigit c = true := by
  cases h with
  | last hc | next hc _ | underscore hc _ => exact ⟨_, _, rfl, hc⟩

section
variable {c : Char} {d : Nat} (hd : digitValue? c = some d)

include hd

theorem scriptDigits?_single : scriptDigits? [c] = some [d] := by
  rw [scriptDigits?, hd]
  rfl

theorem scriptDigits?_underscore (r : List Char) :
    scriptDigits? (c :: '_' :: r) = (scriptDigits? r).map (d :: ·) := by
  rw [scriptDigits?, hd]
  dsimp only [bind, Option.bind]
  split
  · next heq => cases heq
  · next heq =>
    cases heq
    cases scriptDigits? r <;> rfl
  · next hne => exact absurd rfl (hne r)

theorem scriptDigits?_cons {e : Char} (he : e ≠ '_') (r : List Char) :
    scriptDigits? (c :: e :: r) = (scriptDigits? (e :: r)).map (d :: ·) := by
  rw [scriptDigits?, hd]
  dsimp only [bind, Option.bind]
  split
  · next heq => cases heq
  · next heq =>
    cases heq
    exact absurd rfl he
  · cases scriptDigits? (e :: r) <;> rfl

end

theorem digitValue?_of_isDecimalDigit {c : Char} (h : isDecimalDigit c = true) :
    ∃ d, digitValue? c = some d :=
  Option.isSome_iff_exists.mp h

theorem ScriptDigits.exists_scriptDigits? {n : Nat} {s : List Char} (h : ScriptDigits n s) :
    ∃ ds, scriptDigits? s = some ds ∧ ds.length = n := by
  induction h with
  | last hc =>
    obtain ⟨d, hd⟩ := digitValue?_of_isDecimalDigit hc
    exact ⟨[d], scriptDigits?_single hd, rfl⟩
  | next hc h ih =>
    obtain ⟨d, hd⟩ := digitValue?_of_isDecimalDigit hc
    obtain ⟨ds, hds, hlength⟩ := ih
    obtain ⟨e, t, rfl, he⟩ := h.head?
    have hunderscore : e ≠ '_' := by
      rintro rfl
      cases he
    refine ⟨d :: ds, ?_, congrArg (· + 1) hlength⟩
    rw [scriptDigits?_cons hd hunderscore, hds]
    rfl
  | underscore hc h ih =>
    obtain ⟨d, hd⟩ := digitValue?_of_isDecimalDigit hc
    obtain ⟨ds, hds, hlength⟩ := ih
    refine ⟨d :: ds, ?_, congrArg (· + 1) hlength⟩
    rw [scriptDigits?_underscore hd, hds]
    rfl

theorem scriptDigits_of_eq_some {s : List Char} {ds : List Nat} (h : scriptDigits? s = some ds) :
    ScriptDigits ds.length s := by
  induction s using scriptDigits?.induct generalizing ds with
  | case1 => cases h
  | case2 c r ih =>
    cases hd : digitValue? c with
    | none =>
      rw [scriptDigits?, hd] at h
      cases h
    | some d =>
      have hc : isDecimalDigit c = true := by rw [isDecimalDigit, hd, Option.isSome_some]
      rcases r with _ | ⟨e, r⟩
      · rw [scriptDigits?_single hd] at h
        cases h
        exact .last hc
      by_cases he : e = '_'
      · subst he
        rw [scriptDigits?_underscore hd] at h
        obtain ⟨ds, hds, rfl⟩ := Option.map_eq_some_iff.mp h
        exact .underscore hc (ih hds)
      · rw [scriptDigits?_cons hd he] at h
        obtain ⟨ds, hds, rfl⟩ := Option.map_eq_some_iff.mp h
        refine .next hc ?_
        split at ih
        · next heq => cases heq
        · next heq =>
          cases heq
          exact absurd rfl he
        · exact ih hds

/-! ## Integers -/

theorem exists_unsigned?_iff {s : List Char} :
    (∃ n, unsigned? s = some n) ↔ ∃ n ≤ maxDigits, ScriptDigits n s := by
  unfold unsigned?
  constructor
  · rintro ⟨n, h⟩
    cases hds : scriptDigits? s with
    | none =>
      rw [hds] at h
      cases h
    | some ds =>
      rw [hds] at h
      dsimp only [bind, Option.bind] at h
      split at h
      · cases h
      · next hmax => exact ⟨ds.length, by omega, scriptDigits_of_eq_some hds⟩
  · rintro ⟨n, hmax, h⟩
    obtain ⟨ds, hds, rfl⟩ := h.exists_scriptDigits?
    rw [hds]
    dsimp only [bind, Option.bind]
    rw [if_neg (by omega)]
    exact ⟨_, rfl⟩

/-- **Integers.** A text is read as an integer if it is spelled as one. -/
theorem exists_read?_iff {s : List Char} : (∃ n, read? s = some n) ↔ IsInteger s := by
  have hmap (g : Int → Int) (r : List Char) :
      (∃ n, (do return ((← unsigned? r) : Int)).map g = some n) ↔
        ∃ n ≤ maxDigits, ScriptDigits n r := by
    rw [← exists_unsigned?_iff]
    cases unsigned? r <;> simp
  constructor
  · intro h
    unfold read? at h
    split at h
    · next r =>
      obtain ⟨n, hn, hr⟩ := (hmap _ r).mp h
      exact ⟨['-'], by simp, n, hn, r, hr, rfl⟩
    · next r =>
      obtain ⟨n, hn, hr⟩ := (hmap _ r).mp h
      exact ⟨['+'], by simp, n, hn, r, hr, rfl⟩
    · obtain ⟨n, hn, hr⟩ := (hmap _ s).mp h
      exact ⟨[], by simp, n, hn, s, hr, rfl⟩
  · rintro ⟨sign, hsign, n, hn, r, hr, rfl⟩
    simp only [List.mem_cons, List.not_mem_nil, or_false] at hsign
    rcases hsign with rfl | rfl | rfl
    · obtain ⟨c, t, rfl, hc⟩ := hr.head?
      unfold read?
      split
      · next heq =>
        cases heq
        cases hc
      · next heq =>
        cases heq
        cases hc
      · exact (hmap _ _).mpr ⟨n, hn, hr⟩
    · exact (hmap _ r).mpr ⟨n, hn, hr⟩
    · exact (hmap _ r).mpr ⟨n, hn, hr⟩

theorem read?_eq_none_iff {s : List Char} : read? s = none ↔ ¬ IsInteger s := by
  rw [← exists_read?_iff, not_exists, Option.eq_none_iff_forall_ne_some]

/-- Digits of two scripts, and an underscore between them. -/
example : IsInteger "-1_٢".toList :=
  ⟨['-'], by simp, 2, by decide, _, .underscore (by decide) (.last (by decide)), rfl⟩

end LoxMachine.Numeral
