import LoxMachine.Assembly.Comment
import LoxMachine.Proofs.Text.Blank

/-!
# What is before a comment

A scan passes a text if it finds no comment in it, whatever comes after. Texts in quotes are passed
as a whole, with any `#` in them, and so is what has neither quotes nor a `#`.

    s.Passes t s' → beforeCommentFrom s (t ++ r) = t ++ beforeCommentFrom s' r
-/

namespace LoxMachine.Assembly.Scan

open Text

/-- The scan goes through the text and stands at `s'` then. -/
def Passes (s : Scan) (text : List Char) (s' : Scan) : Prop :=
  ∀ r, beforeCommentFrom s (text ++ r) = text ++ beforeCommentFrom s' r

theorem run_append (s : Scan) (t u : List Char) : s.run (t ++ u) = (s.run t).run u :=
  List.foldl_append

theorem passes_nil (s : Scan) : s.Passes [] s := fun _ => rfl

theorem Passes.append {s s' s'' : Scan} {t u : List Char} (h : s.Passes t s')
    (h' : s'.Passes u s'') : s.Passes (t ++ u) s'' := by
  intro r
  rw [List.append_assoc, h, h', List.append_assoc]

theorem passes_char {s : Scan} {c : Char} (h : s = .outside → c ≠ '#') :
    s.Passes [c] (s.next c) := by
  intro r
  show beforeCommentFrom s (c :: r) = c :: beforeCommentFrom (s.next c) r
  rw [beforeCommentFrom, if_neg fun hs => h hs.1 hs.2]

/-- Characters after which the scan stands as before. -/
theorem passes_of_forall {s : Scan} {t : List Char} (h : ∀ c ∈ t, s.Passes [c] s) :
    s.Passes t s := by
  induction t with
  | nil => exact passes_nil s
  | cons c t ih =>
    exact (h c List.mem_cons_self).append (ih fun d hd => h d (List.mem_cons_of_mem c hd))

theorem passes_flatMap {α : Type} {s : Scan} {f : α → List Char} {l : List α}
    (h : ∀ a ∈ l, s.Passes (f a) s) : s.Passes (l.flatMap f) s := by
  induction l with
  | nil => exact passes_nil s
  | cons a l ih =>
    rw [List.flatMap_cons]
    exact (h a List.mem_cons_self).append (ih fun b hb => h b (List.mem_cons_of_mem a hb))

/-! ## Texts and what follows them -/

/-- A text without comment is passed, and the scan goes on from where its own ends. -/
theorem passes_of_eq {s : Scan} {t : List Char} (h : beforeCommentFrom s t = t) :
    s.Passes t (s.run t) := by
  intro r
  induction t generalizing s with
  | nil => rfl
  | cons c t ih =>
    rw [beforeCommentFrom] at h
    split at h
    · cases h
    · next hc =>
      rw [List.cons_append, beforeCommentFrom, if_neg hc, ih (List.cons.inj h).2]
      rfl

theorem Passes.eq {s s' : Scan} {t : List Char} (h : s.Passes t s') :
    beforeCommentFrom s t = t := by
  have hnil := h []
  rwa [List.append_nil, beforeCommentFrom, List.append_nil] at hnil

/-- A comment in a text ends all that follows. -/
theorem beforeCommentFrom_append_of_ne {s : Scan} {t : List Char}
    (h : beforeCommentFrom s t ≠ t) (r : List Char) :
    beforeCommentFrom s (t ++ r) = beforeCommentFrom s t := by
  induction t generalizing s with
  | nil => exact absurd rfl h
  | cons c t ih =>
    rw [beforeCommentFrom] at h
    rw [List.cons_append, beforeCommentFrom, beforeCommentFrom]
    split at h
    · next hc => rw [if_pos hc, if_pos hc]
    · next hc =>
      rw [if_neg hc, if_neg hc, ih]
      intro ht
      apply h
      rw [ht]

/-- A comment begins only outside of quotes. -/
theorem beforeCommentFrom_mark_eq_nil_iff {s : Scan} {r : List Char} :
    beforeCommentFrom s ('#' :: r) = [] ↔ s = .outside := by
  rw [beforeCommentFrom]
  by_cases hs : s = .outside
  · simp [hs]
  · simp [hs]

theorem Passes.run_eq {s : Scan} {t : List Char} (h : s.Passes t .outside) :
    s.run t = .outside := by
  have hmark := passes_of_eq h.eq ['#']
  rw [h ['#']] at hmark
  have hnil := List.append_cancel_left hmark
  rw [← beforeCommentFrom_mark_eq_nil_iff (r := []), ← hnil]
  rfl

/-! ## Outside of quotes -/

theorem outside_passes_char {c : Char} (hdouble : c ≠ '"') (hsingle : c ≠ '\'') (hmark : c ≠ '#') :
    outside.Passes [c] outside := by
  have hnext : outside.next c = outside := if_neg (by simp [hdouble, hsingle])
  have h := passes_char (s := outside) fun _ => hmark
  rwa [hnext] at h

theorem outside_passes_bare {t : List Char} (h : Bare t) : outside.Passes t outside :=
  passes_of_forall fun c hc =>
    outside_passes_char ((h c hc).ne (by decide)) ((h c hc).ne (by decide))
      ((h c hc).ne (by decide))

theorem outside_passes_blanks {b : List Char} (h : Blanks b) : outside.Passes b outside := by
  have hne (c : Char) (hc : c ∈ b) (d : Char) (hd : isBlank d = false) : c ≠ d := by
    rintro rfl
    rw [h c hc] at hd
    cases hd
  exact passes_of_forall fun c hc =>
    outside_passes_char (hne c hc _ (by decide)) (hne c hc _ (by decide)) (hne c hc _ (by decide))

/-! ## In quotes -/

theorem next_inside {q c : Char} (hslash : c ≠ '\\') (hquote : c ≠ q) :
    (inside q).next c = inside q := by
  rw [next, if_neg hslash, if_neg hquote]

theorem next_close {q : Char} (hslash : q ≠ '\\') : (inside q).next q = outside := by
  rw [next, if_neg hslash, if_pos rfl]

theorem inside_passes_char {q c : Char} (hslash : c ≠ '\\') (hquote : c ≠ q) :
    (inside q).Passes [c] (inside q) := by
  have h := passes_char (s := inside q) (c := c) nofun
  rwa [next_inside hslash hquote] at h

/-- A backslash and what it takes with it. -/
theorem inside_passes_escape (q c : Char) : (inside q).Passes ['\\', c] (inside q) := by
  have hslash : (inside q).Passes ['\\'] (escaped q) := passes_char nofun
  exact hslash.append (passes_char nofun)

/-- **Quotes.** What stands between quotes is passed with them. -/
theorem outside_passes_quoted {q : Char} (hq : q = '"' ∨ q = '\'') {t : List Char}
    (h : (inside q).Passes t (inside q)) : outside.Passes (q :: t ++ [q]) outside := by
  have hopen : outside.next q = inside q := if_pos hq
  have hclose : (inside q).next q = outside := by
    rcases hq with rfl | rfl <;> rfl
  have hmark : q ≠ '#' := by
    rcases hq with rfl | rfl <;> decide
  have hleft := passes_char (s := outside) fun _ => hmark
  have hright := passes_char (s := inside q) (c := q) nofun
  rw [hopen] at hleft
  rw [hclose] at hright
  exact (hleft.append h).append hright

end LoxMachine.Assembly.Scan
