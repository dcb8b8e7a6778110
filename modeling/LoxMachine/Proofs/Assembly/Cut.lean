import LoxMachine.Proofs.Assembly.Comment
import LoxMachine.Proofs.Json.Scalar
import Mathlib.Data.List.Infix

/-!
# Where a comment begins

A text is cut at the first mark outside of quotes, and nowhere else. So what is left can be told
without a scan of the whole: it is not cut itself, and it is the whole, or a mark comes after it
and its own scan ends outside of quotes.

    beforeComment t = r ↔ beforeComment r = r ∧
      (t = r ∨ ∃ y, t = r ++ '#' :: y ∧ outside.run r = outside)           (beforeComment_eq_iff)

An open quotation is closed by the first quote of its kind that no backslash takes along. There is
no such quote between those of a JSON string, so a scan leaves the string where a reader does.

    StringBody body ps → Enclosed '"' body                             (enclosed_of_stringBody)
-/

namespace LoxMachine.Assembly

open Text

/-- The scan finds no comment in the text, and it is outside of quotes after it. -/
structure Clear (t : List Char) : Prop where
  whole : beforeComment t = t
  outside : Scan.outside.run t = .outside

instance (t : List Char) : Decidable (Clear t) :=
  decidable_of_iff (beforeComment t = t ∧ Scan.outside.run t = .outside)
    ⟨fun h => ⟨h.1, h.2⟩, fun h => ⟨h.1, h.2⟩⟩

/-- The scan is in quotes before the text, after it, and all the way through. -/
def Scan.StaysOpen (s : Scan) (t : List Char) : Prop := ∀ p, p <+: t → s.run p ≠ .outside

instance (s : Scan) (t : List Char) : Decidable (s.StaysOpen t) :=
  decidable_of_iff (∀ p ∈ t.inits, s.run p ≠ .outside)
    (forall_congr' fun p => imp_congr (List.mem_inits p t) Iff.rfl)

/-- What can stand between two quotes: each quote of their kind has a backslash before it that is
not taken along by another one. -/
inductive Enclosed (q : Char) : List Char → Prop
  | nil : Enclosed q []
  | char {c : Char} {t : List Char} (hslash : c ≠ '\\') (hquote : c ≠ q) (h : Enclosed q t) :
      Enclosed q (c :: t)
  | escape {c : Char} {t : List Char} (h : Enclosed q t) : Enclosed q ('\\' :: c :: t)

/-! ## The cut -/

section
variable {s : Scan} {t r : List Char}

theorem beforeCommentFrom_cases (s : Scan) (t : List Char) :
    t = beforeCommentFrom s t ∨ ∃ y, t = beforeCommentFrom s t ++ '#' :: y ∧
      s.run (beforeCommentFrom s t) = .outside := by
  induction t generalizing s with
  | nil => exact .inl rfl
  | cons c t ih =>
    rw [beforeCommentFrom]
    by_cases hc : s = .outside ∧ c = '#'
    · obtain ⟨rfl, rfl⟩ := hc
      exact .inr ⟨t, rfl, rfl⟩
    · rw [if_neg hc]
      rcases ih (s.next c) with h | ⟨y, h, hrun⟩
      · exact .inl (congrArg (c :: ·) h)
      · exact .inr ⟨y, congrArg (c :: ·) h, hrun⟩

theorem beforeCommentFrom_idem (s : Scan) (t : List Char) :
    beforeCommentFrom s (beforeCommentFrom s t) = beforeCommentFrom s t := by
  by_contra h
  obtain ⟨rest, hrest⟩ := beforeCommentFrom_isPrefix s t
  have hcut := Scan.beforeCommentFrom_append_of_ne h rest
  rw [← hrest] at hcut
  exact h hcut.symm

/-- What is before the comment, told by itself. -/
theorem beforeCommentFrom_eq_iff :
    beforeCommentFrom s t = r ↔ beforeCommentFrom s r = r ∧
      (t = r ∨ ∃ y, t = r ++ '#' :: y ∧ s.run r = .outside) := by
  constructor
  · rintro rfl
    exact ⟨beforeCommentFrom_idem s t, beforeCommentFrom_cases s t⟩
  · rintro ⟨hr, rfl | ⟨y, rfl, hrun⟩⟩
    · exact hr
    · have hpasses := Scan.passes_of_eq hr ('#' :: y)
      rw [hrun, Scan.beforeCommentFrom_mark_eq_nil_iff.mpr rfl, List.append_nil] at hpasses
      exact hpasses

theorem beforeComment_eq_iff :
    beforeComment t = r ↔ beforeComment r = r ∧
      (t = r ∨ ∃ y, t = r ++ '#' :: y ∧ Scan.outside.run r = .outside) :=
  beforeCommentFrom_eq_iff

theorem clear_iff_passes : Clear t ↔ Scan.outside.Passes t .outside := by
  constructor
  · intro h
    have hpasses := Scan.passes_of_eq h.whole
    rwa [h.outside] at hpasses
  · intro h
    exact ⟨h.eq, h.run_eq⟩

end

/-! ## Open quotes -/

namespace Scan

/-- A scan stands in quotes of either kind, if it stands in any. -/
def Quotes : Scan → Prop
  | .outside => True
  | .inside q | .escaped q => q = '"' ∨ q = '\''

theorem Quotes.next {s : Scan} (hs : s.Quotes) (c : Char) : (s.next c).Quotes := by
  cases s with
  | outside =>
    rw [Scan.next]
    split
    · next hc => exact hc
    · trivial
  | inside q =>
    rw [Scan.next]
    split
    · exact hs
    · split
      · trivial
      · exact hs
  | escaped q => exact hs

theorem Quotes.run {s : Scan} (hs : s.Quotes) (t : List Char) : (s.run t).Quotes := by
  induction t generalizing s with
  | nil => exact hs
  | cons c t ih => exact ih (hs.next c)

theorem Quotes.ne_slash {q : Char} (hs : (inside q).Quotes) : q ≠ '\\' := by
  rcases hs with rfl | rfl <;> decide

theorem staysOpen_cons_iff {s : Scan} {c : Char} {t : List Char} :
    s.StaysOpen (c :: t) ↔ s ≠ .outside ∧ (s.next c).StaysOpen t := by
  constructor
  · intro h
    refine ⟨h [] List.nil_prefix, fun p hp => ?_⟩
    exact h (c :: p) (List.cons_prefix_cons.mpr ⟨rfl, hp⟩)
  · rintro ⟨hs, h⟩ p hp
    rcases List.prefix_cons_iff.mp hp with rfl | ⟨p', rfl, hp'⟩
    · exact hs
    · exact h p' hp'

/-- There is no comment in what is inside of quotes. -/
theorem StaysOpen.eq {s : Scan} {t : List Char} (h : s.StaysOpen t) :
    beforeCommentFrom s t = t := by
  induction t generalizing s with
  | nil => rfl
  | cons c t ih =>
    obtain ⟨hs, hrest⟩ := staysOpen_cons_iff.mp h
    rw [beforeCommentFrom, if_neg fun hc => hs hc.1, ih hrest]

end Scan

namespace Enclosed

variable {q : Char} {t : List Char}

theorem passes (h : Enclosed q t) : (Scan.inside q).Passes t (.inside q) := by
  induction h with
  | nil => exact Scan.passes_nil _
  | char hslash hquote _ ih => exact (Scan.inside_passes_char hslash hquote).append ih
  | escape _ ih => exact (Scan.inside_passes_escape q _).append ih

theorem run_eq (h : Enclosed q t) : (Scan.inside q).run t = .inside q := by
  induction h with
  | nil => rfl
  | @char c t hslash hquote _ ih =>
    show ((Scan.inside q).next c).run t = _
    rw [Scan.next_inside hslash hquote, ih]
  | escape _ ih => exact ih

end Enclosed

/-- A scan that has left the quotes has left them at a closing quote. -/
theorem exists_enclosed_of_run {q : Char} {p : List Char} (h : (Scan.inside q).run p = .outside) :
    ∃ t r, Enclosed q t ∧ p = t ++ q :: r := by
  match p with
  | [] => cases h
  | c :: p =>
    by_cases hslash : c = '\\'
    · subst hslash
      match p with
      | [] => cases h
      | d :: p =>
        obtain ⟨t, r, ht, rfl⟩ := exists_enclosed_of_run (p := p) h
        exact ⟨_, r, .escape ht, rfl⟩
    · by_cases hquote : c = q
      · subst hquote
        exact ⟨[], p, .nil, rfl⟩
      · change ((Scan.inside q).next c).run p = .outside at h
        rw [Scan.next_inside hslash hquote] at h
        obtain ⟨t, r, ht, rfl⟩ := exists_enclosed_of_run (p := p) h
        exact ⟨_, r, .char hslash hquote ht, rfl⟩

/-- **Open quotes.** A quotation stays open as long as there is no closing quote in it. -/
theorem staysOpen_inside_iff {q : Char} (hq : q ≠ '\\') {x : List Char} :
    (Scan.inside q).StaysOpen x ↔ ∀ t r, Enclosed q t → x ≠ t ++ q :: r := by
  constructor
  · rintro h t r ht rfl
    apply h (t ++ [q]) ⟨r, by simp⟩
    rw [Scan.run_append, ht.run_eq]
    exact Scan.next_close hq
  · rintro h p ⟨u, rfl⟩ hrun
    obtain ⟨t, r, ht, rfl⟩ := exists_enclosed_of_run hrun
    exact h t (r ++ u) ht (by simp)

/-! ## Strings of JSON -/

theorem ne_of_hexValue? {c : Char} {d : Nat} (h : Json.hexValue? c = some d) :
    c ≠ '\\' ∧ c ≠ '"' := by
  constructor <;> (rintro rfl; cases h)

/-- Between the quotes of a string, no quote and no backslash stands for itself. -/
theorem enclosed_of_stringBody {body : List Char} {ps : List Json.Piece}
    (h : Json.StringBody body ps) : Enclosed '"' body := by
  induction h with
  | nil => exact .nil
  | char _ hquote hslash _ ih => exact .char hslash hquote ih
  | escape _ _ ih => exact .escape ih
  | unit hu _ ih =>
    have hdigit {c : Char} {d : Nat} (hc : Json.hexValue? c = some d) {t : List Char}
        (ht : Enclosed '"' t) : Enclosed '"' (c :: t) :=
      .char (ne_of_hexValue? hc).1 (ne_of_hexValue? hc).2 ht
    simp only [Json.unit?, Option.bind_eq_bind, Option.bind_eq_some_iff] at hu
    obtain ⟨_, ha, _, hb, _, hc, _, hd, -⟩ := hu
    exact .escape (hdigit ha (hdigit hb (hdigit hc (hdigit hd ih))))

theorem blanks_takeWhile (t : List Char) : Blanks (t.takeWhile Json.isBlank) :=
  fun _ hc => Json.isBlank_of_isBlank (List.mem_takeWhile_imp hc)

theorem blanks_of_skipBlanks_eq_nil {t : List Char} (h : Json.skipBlanks t = []) : Blanks t :=
  fun c hc => Json.isBlank_of_isBlank (List.dropWhile_eq_nil_iff.mp h c hc)

/-- **Strings.** A text that is read as a string, blanks around it allowed, has no comment in it,
and what comes after it is outside of quotes. -/
theorem clear_of_read_eq_str {t : List Char} {s : Str} (h : Json.read t = .ok (.str s)) :
    Clear t := by
  obtain ⟨token, b, htoken, htext, hb⟩ := Json.exists_scalar_of_read (v := .str s) trivial h
  have ht : t = t.takeWhile Json.isBlank ++ (token ++ b) := by
    rw [← htext]
    exact List.takeWhile_append_dropWhile.symm
  have hstring : Scan.outside.Passes token .outside := by
    cases htoken with
    | word hw => simp [Json.words] at hw
    | string hbody =>
      exact Scan.outside_passes_quoted (.inl rfl) (enclosed_of_stringBody hbody).passes
  rw [clear_iff_passes, ht]
  exact (Scan.outside_passes_blanks (blanks_takeWhile t)).append
    (hstring.append (Scan.outside_passes_blanks (blanks_of_skipBlanks_eq_nil hb)))

/-! ## Texts and what follows them -/

/-- **Comments.** What is left of a text is told by itself and is not cut again. A text that is not
cut stays whole before any other: the other is cut as if it stood alone, if the quotes are closed,
and not at all, if they are open and it has no closing quote. The text of a JSON string is closed.
-/
theorem beforeComment_laws :
    (∀ raw, beforeComment (beforeComment raw) = beforeComment raw ∧
      (raw = beforeComment raw ∨ ∃ y, raw = beforeComment raw ++ '#' :: y ∧
        Scan.outside.run (beforeComment raw) = .outside)) ∧
    (∀ r, Clear r → ∀ x, beforeComment (r ++ x) = r ++ beforeComment x ∧
      beforeComment (r ++ '#' :: x) = r) ∧
    (∀ r, beforeComment r = r → ∀ x,
      ((Scan.outside.run r).StaysOpen x → beforeComment (r ++ x) = r ++ x) ∧
      ∀ q, Scan.outside.run r = .inside q →
        ((Scan.inside q).StaysOpen x ↔ ∀ t y, Enclosed q t → x ≠ t ++ q :: y)) ∧
    (∀ t s, Json.read t = .ok (.str s) →
      Clear t ∧ ∀ x, beforeComment (t ++ x) = t ++ beforeComment x) := by
  refine ⟨?_, ?_, ?_, ?_⟩
  · intro raw
    exact beforeComment_eq_iff.mp rfl
  · intro r hr x
    exact ⟨clear_iff_passes.mp hr x,
      beforeComment_eq_iff.mpr ⟨hr.whole, .inr ⟨x, rfl, hr.outside⟩⟩⟩
  · intro r hr x
    constructor
    · intro hx
      unfold beforeComment
      rw [Scan.passes_of_eq hr, hx.eq]
    · intro q hq
      have hquotes := (show Scan.outside.Quotes from trivial).run r
      rw [hq] at hquotes
      exact staysOpen_inside_iff hquotes.ne_slash
  · intro t s ht
    have hclear := clear_of_read_eq_str ht
    exact ⟨hclear, clear_iff_passes.mp hclear⟩

/-- A string with an escaped quote and a mark in it, and a quotation that is never closed. -/
theorem beforeComment_laws_marks :
    Json.read ['"', '\\', '"', '#', '"'] = .ok (.str "\"#") ∧
      beforeComment (['"', '\\', '"', '#', '"'] ++ [' ', '#', 'c']) =
        ['"', '\\', '"', '#', '"'] ++ [' '] ∧
      beforeComment (['1', '\''] ++ ['#', '"']) = ['1', '\''] ++ ['#', '"'] := by
  obtain ⟨-, -, hopen, hstring⟩ := beforeComment_laws
  have hread : Json.read ['"', '\\', '"', '#', '"'] = .ok (.str "\"#") := by rfl
  exact ⟨hread, (hstring _ _ hread).2 _, (hopen _ (by decide) _).1 (by decide)⟩

end LoxMachine.Assembly
