import LoxMachine.Proofs.Json.Number
import LoxMachine.Proofs.Json.Quoted
import LoxMachine.Proofs.Json.RoundTrip
import Mathlib.Data.List.Basic
import Mathlib.Data.List.TakeWhile

/-!
# The grammar of words, strings and numbers

The values of JSON that are no lists and no records are spelled by one word, one string or one
number. `Scalar` is their grammar, said without the reader, with the value that a text spells. A
text without blanks at its ends is read as such a value if it spells it.

    Trimmed s → v.IsScalar → (read s = .ok v ↔ Scalar s v)                (read_eq_ok_iff)
-/

namespace LoxMachine.Json

open Numeral Text

/-- The values that hold no others. -/
def IsScalar : Value → Prop
  | .list _ | .dict _ => False
  | .nil | .bool _ | .int _ | .num _ | .str _ => True

theorem isScalar_of_isLox {v : Value} (h : v.IsLox) : IsScalar v := by
  cases v with
  | nil | bool _ | int _ | num _ | str _ => trivial
  | list _ | dict _ => exact h

/-! ## Spelling -/

/-- What stands between the quotes of a string, and the pieces that it is read as. -/
inductive StringBody : List Char → List Piece → Prop
  | nil : StringBody [] []
  | char {c : Char} {r : List Char} {ps : List Piece} (hc : 0x20 ≤ c.toNat) (hquote : c ≠ '"')
      (hslash : c ≠ '\\') (h : StringBody r ps) : StringBody (c :: r) (.char c :: ps)
  | escape {c x : Char} {r : List Char} {ps : List Piece} (hc : shortEscape? c = some x)
      (h : StringBody r ps) : StringBody ('\\' :: c :: r) (.char x :: ps)
  | unit {a b c d : Char} {u : Nat} {r : List Char} {ps : List Piece}
      (hu : unit? a b c d = some u) (h : StringBody r ps) :
      StringBody ('\\' :: 'u' :: a :: b :: c :: d :: r) (.unit u :: ps)

namespace Number

/-- Nothing, or a point and digits. -/
inductive Fraction : List Char → List Char → Prop
  | none : Fraction [] []
  | point {ds : List Char} (hds : Digits ds) (hne : ds ≠ []) : Fraction ('.' :: ds) ds

/-- Nothing, or a mark, a sign that may be missing, and digits. -/
inductive Exponent : List Char → Option Int → Prop
  | none : Exponent [] .none
  | plain {mark : Char} {ds : List Char} (hmark : mark = 'e' ∨ mark = 'E') (hds : Digits ds)
      (hne : ds ≠ []) : Exponent (mark :: ds) (some (toNat ds))
  | plus {mark : Char} {ds : List Char} (hmark : mark = 'e' ∨ mark = 'E') (hds : Digits ds)
      (hne : ds ≠ []) : Exponent (mark :: '+' :: ds) (some (toNat ds))
  | minus {mark : Char} {ds : List Char} (hmark : mark = 'e' ∨ mark = 'E') (hds : Digits ds)
      (hne : ds ≠ []) : Exponent (mark :: '-' :: ds) (some (-toNat ds))

/-- A text that is nothing but the given number. -/
inductive Spelled : List Char → Number → Prop
  | intro {negative : Bool} {whole f fraction e : List Char} {exponent : Option Int}
      (hwhole : WholePart whole) (hfraction : Fraction f fraction)
      (hexponent : Exponent e exponent) :
      Spelled ((if negative then ['-'] else []) ++ (whole ++ (f ++ e)))
        ⟨negative, whole, fraction, exponent⟩

end Number

/-- The texts of words, strings and numbers, and their values. -/
inductive Scalar : List Char → Value → Prop
  | word {w : List Char} {v : Value} (h : (w, v) ∈ words) : Scalar w v
  | string {body : List Char} {ps : List Piece} (h : StringBody body ps) :
      Scalar ('"' :: (body ++ ['"'])) (.str (joinPieces ps))
  | float {s : List Char} {n : Number} (h : n.Spelled s) (hn : n.isWhole = false) :
      Scalar s (.num (n.toDecimal.toBinary64 n.negative))
  | whole {s : List Char} {n : Number} (h : n.Spelled s) (hn : n.isWhole = true)
      (hdigits : n.whole.length ≤ maxDigits) :
      Scalar s (.int (if n.negative then -(toNat n.whole : Int) else toNat n.whole))

/-! ## Strings -/

theorem StringBody.readsAs {body : List Char} {ps : List Piece} (h : StringBody body ps) :
    ReadsAs body ps := by
  induction h with
  | nil => exact readsAs_nil
  | char hc hquote hslash _ ih => exact ReadsAs.append (readsAs_char hc hquote hslash) ih
  | escape hc _ ih => exact ReadsAs.append (readsAs_short hc) ih
  | unit hu _ ih => exact ReadsAs.append (readsAs_digits hu) ih

theorem exists_of_prepend {x : Except Fault (List Piece × List Char)} {p : Piece} {ps : List Piece}
    {rest : List Char} (h : (do let (qs, r) ← x; return (p :: qs, r)) = .ok (ps, rest)) :
    ∃ qs, x = .ok (qs, rest) ∧ ps = p :: qs := by
  cases x with
  | error f => cases h
  | ok found =>
    cases h
    exact ⟨_, rfl, rfl⟩

/-- A string is read up to the first quote that is no part of it. -/
theorem readPieces_eq_ok_iff {start : Nat} {s rest : List Char} {ps : List Piece} :
    readPieces start s = .ok (ps, rest) ↔ ∃ body, StringBody body ps ∧ s = body ++ '"' :: rest := by
  constructor
  · intro h
    fun_induction readPieces start s generalizing ps rest with
    | case1 | case3 | case4 | case6 | case7 | case9 => cases h
    | case2 r =>
      cases h
      exact ⟨[], .nil, rfl⟩
    | case5 a b c d e r u hu ih =>
      obtain ⟨qs, hqs, rfl⟩ := exists_of_prepend h
      obtain ⟨body, hbody, hr⟩ := ih hqs
      exact ⟨_, .unit hu hbody, by rw [hr]; rfl⟩
    | case8 c r _ _ x hx ih =>
      obtain ⟨qs, hqs, rfl⟩ := exists_of_prepend h
      obtain ⟨body, hbody, rfl⟩ := ih hqs
      exact ⟨_, .escape hx hbody, rfl⟩
    | case10 c r hquote hend _ _ hslash hc ih =>
      obtain ⟨qs, hqs, rfl⟩ := exists_of_prepend h
      obtain ⟨body, hbody, rfl⟩ := ih hqs
      refine ⟨_, .char (by omega) hquote ?_ hbody, rfl⟩
      intro hc
      obtain ⟨e, t, ht⟩ := List.exists_cons_of_ne_nil (l := body ++ '"' :: rest) (by simp)
      exact hslash e t hc ht
  · rintro ⟨body, hbody, rfl⟩
    have hend : readPieces start ('"' :: rest) = .ok ([], rest) := by rw [readPieces]
    have hread := hbody.readsAs hend
    rwa [List.append_nil] at hread

/-! ## Numbers -/

namespace Number

theorem eq_append_of_spanDigits {s ds r : List Char} (h : spanDigits s = (ds, r)) :
    Digits ds ∧ s = ds ++ r := by
  obtain ⟨rfl, rfl⟩ := Prod.mk.inj h
  exact ⟨List.all_eq_true.mp List.all_takeWhile, List.takeWhile_append_dropWhile.symm⟩

theorem wholePart_of_scanWhole {s whole r : List Char} (h : scanWhole s = some (whole, r)) :
    WholePart whole ∧ s = whole ++ r := by
  unfold scanWhole at h
  split at h
  · cases h
    exact ⟨⟨digits_replicate 1, nofun, fun _ => rfl⟩, rfl⟩
  · next c t hzero =>
    split at h
    · next hc =>
      have hspan := Option.some.inj h
      obtain ⟨hdigits, hs⟩ := eq_append_of_spanDigits hspan
      have hhead : whole.head? = some c := by
        obtain ⟨rfl, -⟩ := Prod.mk.inj hspan
        rw [List.takeWhile_cons_of_pos hc]
        rfl
      refine ⟨⟨hdigits, ?_, ?_⟩, hs⟩
      · rintro rfl
        cases hhead
      · intro h0
        rw [hhead] at h0
        cases h0
        exact absurd rfl hzero
    · cases h
  · cases h

theorem exists_fraction_of_scanFraction {s fraction r : List Char}
    (h : scanFraction s = (fraction, r)) : ∃ f, Fraction f fraction ∧ s = f ++ r := by
  unfold scanFraction at h
  split at h
  · next t =>
    split at h
    · cases h
      exact ⟨[], .none, rfl⟩
    · next hne =>
      obtain ⟨hdigits, rfl⟩ := eq_append_of_spanDigits h
      refine ⟨'.' :: fraction, .point hdigits ?_, rfl⟩
      rintro rfl
      exact hne r h
  · cases h
    exact ⟨[], .none, rfl⟩

theorem exists_digits_of_scanExponentDigits {negative : Bool} {s r : List Char} {n : Int}
    (h : scanExponentDigits negative s = some (n, r)) :
    ∃ ds, Digits ds ∧ ds ≠ [] ∧ s = ds ++ r ∧
      n = if negative then -(toNat ds : Int) else toNat ds := by
  unfold scanExponentDigits at h
  split at h
  · cases h
  · next ds t hne hspan =>
    cases h
    obtain ⟨hdigits, rfl⟩ := eq_append_of_spanDigits hspan
    refine ⟨ds, hdigits, ?_, rfl, rfl⟩
    rintro rfl
    exact hne rfl

theorem exists_exponent_of_scanExponent {s r : List Char} {exponent : Option Int}
    (h : scanExponent s = (exponent, r)) : ∃ e, Exponent e exponent ∧ s = e ++ r := by
  unfold scanExponent at h
  dsimp only at h
  split at h
  · next found n t hfound =>
    cases h
    split at hfound
    · next c u =>
      split at hfound
      · next hmark =>
        split at hfound
        · obtain ⟨ds, hds, hne, rfl, rfl⟩ := exists_digits_of_scanExponentDigits hfound
          exact ⟨_, .minus hmark hds hne, rfl⟩
        · obtain ⟨ds, hds, hne, rfl, rfl⟩ := exists_digits_of_scanExponentDigits hfound
          exact ⟨_, .plus hmark hds hne, rfl⟩
        · obtain ⟨ds, hds, hne, rfl, rfl⟩ := exists_digits_of_scanExponentDigits hfound
          exact ⟨_, .plain hmark hds hne, rfl⟩
      · cases hfound
    · cases hfound
  · cases h
    exact ⟨[], .none, rfl⟩

theorem spelled_of_scanWhole {negative : Bool} {s r : List Char} {n : Number}
    (h : (scanWhole s).bind (fun x =>
      some (⟨negative, x.1, (scanFraction x.2).1, (scanExponent (scanFraction x.2).2).1⟩,
        (scanExponent (scanFraction x.2).2).2)) = some (n, r)) :
    ∃ t, n.Spelled ((if negative then ['-'] else []) ++ t) ∧ s = t ++ r := by
  obtain ⟨⟨whole, r₁⟩, hwhole, hfound⟩ := Option.bind_eq_some_iff.mp h
  dsimp only at hfound
  obtain ⟨hw, rfl⟩ := wholePart_of_scanWhole hwhole
  cases hf : scanFraction r₁ with
  | mk fraction r₂ =>
    cases he : scanExponent r₂ with
    | mk exponent r₃ =>
      obtain ⟨f, hfraction, rfl⟩ := exists_fraction_of_scanFraction hf
      obtain ⟨e, hexponent, rfl⟩ := exists_exponent_of_scanExponent he
      rw [hf, he] at hfound
      obtain ⟨rfl, rfl⟩ := Prod.mk.inj (Option.some.inj hfound)
      exact ⟨whole ++ (f ++ e), .intro hw hfraction hexponent, by simp⟩

/-- What is scanned is a number at the start of the text. -/
theorem spelled_of_scan {s r : List Char} {n : Number} (h : scan s = some (n, r)) :
    ∃ t, n.Spelled t ∧ s = t ++ r := by
  unfold scan at h
  dsimp only at h
  split at h
  · obtain ⟨t, ht, rfl⟩ := spelled_of_scanWhole h
    exact ⟨_, ht, rfl⟩
  · obtain ⟨t, ht, rfl⟩ := spelled_of_scanWhole h
    exact ⟨_, ht, rfl⟩

/-! ### Whole texts -/

theorem Exponent.startsNoDigit {e : List Char} {exponent : Option Int}
    (h : Exponent e exponent) : StartsNoDigit e := by
  have hmark {c : Char} (hc : c = 'e' ∨ c = 'E') : isDigit c = false := by
    rcases hc with rfl | rfl <;> rfl
  cases h with
  | none => nofun
  | plain hc _ _ | plus hc _ _ | minus hc _ _ => exact startsNoDigit_cons (hmark hc)

theorem startsNoDigit_append {f fraction e : List Char} {exponent : Option Int}
    (hf : Fraction f fraction) (he : Exponent e exponent) : StartsNoDigit (f ++ e) := by
  cases hf with
  | none => exact he.startsNoDigit
  | point _ _ => exact startsNoDigit_cons rfl

theorem Exponent.scanExponent_eq {e : List Char} {exponent : Option Int}
    (h : Exponent e exponent) : scanExponent e = (exponent, []) := by
  have hdigits (negative : Bool) {ds : List Char} (hds : Digits ds) (hne : ds ≠ []) :=
    scanExponentDigits_append negative hds hne (r := []) nofun
  simp only [List.append_nil] at hdigits
  cases h with
  | none => rfl
  | @plain mark ds hmark hds hne =>
    have hread := hdigits false hds hne
    obtain ⟨c, t, rfl⟩ := List.exists_cons_of_ne_nil hne
    have hc := hds c List.mem_cons_self
    have hminus : c ≠ '-' := by
      rintro rfl
      cases hc
    have hplus : c ≠ '+' := by
      rintro rfl
      cases hc
    simp [scanExponent, hmark, hminus, hplus, hread]
  | plus hmark hds hne => simp [scanExponent, hmark, hdigits false hds hne]
  | minus hmark hds hne => simp [scanExponent, hmark, hdigits true hds hne]

theorem Exponent.scanFraction_eq {e f fraction : List Char} {exponent : Option Int}
    (h : Exponent e exponent) (hf : Fraction f fraction) :
    scanFraction (f ++ e) = (fraction, e) := by
  cases hf with
  | point hds hne => exact scanFraction_append hds hne h.startsNoDigit
  | none =>
    apply scanFraction_of_ne
    cases h with
    | none => nofun
    | plain hmark _ _ | plus hmark _ _ | minus hmark _ _ =>
      rcases hmark with rfl | rfl <;> nofun

end Number

/-! ## Values -/

theorem exists_word_of_readWord? {s r : List Char} {v : Value} (h : readWord? s = some (v, r)) :
    ∃ w, (w, v) ∈ words ∧ s = w ++ r := by
  obtain ⟨⟨w, v'⟩, hmem, hw⟩ := List.exists_of_findSome?_eq_some h
  obtain ⟨r', hr', heq⟩ := Option.map_eq_some_iff.mp hw
  cases heq
  exact ⟨w, hmem, (List.append_eq_of_isPrefixOf?_eq_some hr').symm⟩

theorem scalar_of_toValue {s : List Char} {n : Number} {v : Value} (h : n.Spelled s)
    (hv : n.toValue = .ok v) : Scalar s v := by
  unfold Number.toValue at hv
  split at hv
  · next hn =>
    split at hv
    · cases hv
    · cases hv
      exact .whole h hn (by omega)
  · next hn =>
    cases hv
    exact .float h (by simpa using hn)

section
variable {s r : List Char} {v : Value}

theorem exists_scalar_of_readPlain (h : readPlain s = .ok (v, r)) :
    ∃ t, Scalar t v ∧ s = t ++ r := by
  unfold readPlain at h
  split at h
  · next found hword =>
    cases h
    obtain ⟨w, hmem, rfl⟩ := exists_word_of_readWord? hword
    exact ⟨w, .word hmem, rfl⟩
  · split at h
    · next n t hscan =>
      obtain ⟨u, hu, rfl⟩ := Number.spelled_of_scan hscan
      cases hn : n.toValue with
      | error f =>
        rw [hn] at h
        cases h
      | ok w =>
        rw [hn] at h
        cases h
        exact ⟨u, scalar_of_toValue hu hn, rfl⟩
    · cases h

theorem exists_scalar_of_readValue {depth : Nat} (hv : IsScalar v)
    (h : readValue (depth + 1) s = .ok (v, r)) : ∃ t, Scalar t v ∧ s = t ++ r := by
  rw [readValue.eq_def] at h
  dsimp only at h
  split at h
  · next t =>
    unfold readString at h
    cases hpieces : readPieces (t.length + 1) t with
    | error f =>
      rw [hpieces] at h
      cases h
    | ok found =>
      obtain ⟨ps, rest⟩ := found
      rw [hpieces] at h
      cases h
      obtain ⟨body, hbody, rfl⟩ := readPieces_eq_ok_iff.mp hpieces
      exact ⟨_, .string hbody, by simp⟩
  · next t =>
    split at h
    · cases h
      exact hv.elim
    · generalize readItems depth _ = found at h
      cases found with
      | error f => cases h
      | ok found =>
        cases h
        exact hv.elim
  · split at h
    · cases h
      exact hv.elim
    · generalize readEntries depth _ = found at h
      cases found with
      | error f => cases h
      | ok found =>
        cases h
        exact hv.elim
  · exact exists_scalar_of_readPlain h

theorem Number.Spelled.head? {n : Number} (h : n.Spelled s) :
    ∃ c t, s = c :: t ∧ (c = '-' ∨ isDigit c = true) := by
  obtain ⟨hw, -, -⟩ := h
  rename_i negative whole _ _ _ _
  cases negative with
  | true => exact ⟨'-', _, rfl, .inl rfl⟩
  | false =>
    obtain ⟨c, t, rfl⟩ := List.exists_cons_of_ne_nil hw.ne_nil
    exact ⟨c, _, rfl, .inr (hw.digits c List.mem_cons_self)⟩

theorem Number.Spelled.readValue_eq {n : Number} (h : n.Spelled s) (depth : Nat) :
    readValue (depth + 1) s = n.toValue.map (·, []) := by
  obtain ⟨c, t, hs, hc⟩ := h.head?
  have hne {d : Char} (hminus : d ≠ '-') (hdigit : isDigit d = false) : c ≠ d := by
    rintro rfl
    rcases hc with hc | hc
    · exact hminus hc
    · rw [hdigit] at hc
      cases hc
  rw [readValue_plain hs (hne (by decide) rfl) (hne (by decide) rfl) (hne (by decide) rfl)]
  obtain ⟨hw, hf, he⟩ := h
  exact Number.readPlain_eq (Number.scanWhole_append hw (Number.startsNoDigit_append hf he))
    (he.scanFraction_eq hf) he.scanExponent_eq

theorem Scalar.readValue_eq (h : Scalar s v) (depth : Nat) :
    readValue (depth + 1) s = .ok (v, []) := by
  cases h with
  | word h =>
    simp only [words, List.mem_cons, List.not_mem_nil, or_false] at h
    rcases h with h | h | h | h | h | h
    all_goals
      cases h
      rfl
  | @string body ps h =>
    have hpieces : readPieces ((body ++ ['"']).length + 1) (body ++ ['"']) = .ok (ps, []) :=
      readPieces_eq_ok_iff.mpr ⟨body, h, rfl⟩
    rw [readValue, readString, hpieces]
    rfl
  | float h hn =>
    rw [h.readValue_eq, Number.toValue, hn]
    rfl
  | whole h hn hdigits =>
    rw [h.readValue_eq, Number.toValue_of_isWhole hn hdigits]
    rfl

theorem Scalar.head?_ne (h : Scalar s v) : s.head? ≠ some '\ufeff' := by
  cases h with
  | word h =>
    simp only [words, List.mem_cons, List.not_mem_nil, or_false] at h
    rcases h with h | h | h | h | h | h
    all_goals
      cases h
      decide
  | string _ =>
    intro h
    cases h
  | float h _ | whole h _ _ =>
    obtain ⟨c, t, rfl, hc⟩ := h.head?
    intro h
    cases h
    rcases hc with hc | hc <;> cases hc

end

/-! ## Whole texts -/

theorem isBlank_of_isBlank {c : Char} (h : isBlank c = true) : Text.isBlank c = true := by
  simp only [isBlank, Bool.or_eq_true, decide_eq_true_eq] at h
  rcases h with ((rfl | rfl) | rfl) | rfl <;> decide

theorem skipBlanks_of_trimmed {s : List Char} (hs : Trimmed s) : skipBlanks s = s := by
  cases s with
  | nil => rfl
  | cons c r =>
    apply skipBlanks_cons
    rw [← Bool.not_eq_true]
    intro hc
    have hblank := hs.1 c rfl
    rw [isBlank_of_isBlank hc] at hblank
    cases hblank

theorem eq_nil_of_trimmed {t r : List Char} (hs : Trimmed (t ++ r)) (hr : skipBlanks r = []) :
    r = [] := by
  rcases List.eq_nil_or_concat r with rfl | ⟨r, c, rfl⟩
  · rfl
  · have hblank : isBlank c = true := List.dropWhile_eq_nil_iff.mp hr c (by simp)
    have hlast := hs.2 c (by simp)
    rw [isBlank_of_isBlank hblank] at hlast
    cases hlast

theorem read_eq_ok_iff_readText {s : List Char} {v : Value} :
    read s = .ok v ↔ readText s = .ok v := by
  unfold read
  cases readText s <;> simp [Except.mapError]

/-- What is read as a scalar is one, with nothing but blanks around it. -/
theorem exists_scalar_of_read {s : List Char} {v : Value} (hv : IsScalar v)
    (h : read s = .ok v) : ∃ t r, Scalar t v ∧ skipBlanks s = t ++ r ∧ skipBlanks r = [] := by
  rw [read_eq_ok_iff_readText] at h
  unfold readText at h
  split at h
  · cases h
  · cases hvalue : readValue (2 * s.length + 1) (skipBlanks s) with
    | error f =>
      rw [hvalue] at h
      cases h
    | ok found =>
      obtain ⟨w, r⟩ := found
      rw [hvalue] at h
      dsimp only [bind, Except.bind] at h
      split at h
      · next hr =>
        cases h
        obtain ⟨t, ht, htext⟩ := exists_scalar_of_readValue hv hvalue
        exact ⟨t, r, ht, htext, hr⟩
      · cases h

/-- **Scalars.** A text without blanks at its ends is read as the scalar that it spells. -/
theorem read_eq_ok_iff {s : List Char} {v : Value} (hs : Trimmed s) (hv : IsScalar v) :
    read s = .ok v ↔ Scalar s v := by
  constructor
  · intro h
    obtain ⟨t, r, ht, htext, hr⟩ := exists_scalar_of_read hv h
    rw [skipBlanks_of_trimmed hs] at htext
    subst htext
    rwa [eq_nil_of_trimmed hs hr, List.append_nil]
  · intro h
    rw [read_eq_ok_iff_readText]
    unfold readText
    split
    · exact absurd rfl h.head?_ne
    · rw [skipBlanks_of_trimmed hs, h.readValue_eq]
      rfl

end LoxMachine.Json
