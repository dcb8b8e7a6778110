import LoxMachine.Text.Blank

/-!
# Words between blanks

What `strip` and `spanWord` make of a text is told by how the text is put together:

    Blanks b → Trimmed t → Blanks b' → strip (b ++ t ++ b') = t          (strip_surrounded)
    ∃ b b', Blanks b ∧ Blanks b' ∧ s = b ++ strip s ++ b'                (exists_surround)
    NoBlanks w → StartsBlank r → spanWord (w ++ r) = (w, r)              (spanWord_append_of)
-/

namespace LoxMachine.Text

/-! ## Kinds of text -/

def Blanks (s : List Char) : Prop := ∀ c ∈ s, isBlank c = true

instance (s : List Char) : Decidable (Blanks s) :=
  List.decidableBAll (fun c => isBlank c = true) s

def NoBlanks (s : List Char) : Prop := ∀ c ∈ s, isBlank c = false

instance (s : List Char) : Decidable (NoBlanks s) :=
  List.decidableBAll (fun c => isBlank c = false) s

/-- Neither end is a blank. -/
def Trimmed (s : List Char) : Prop :=
  (∀ c ∈ s.head?, isBlank c = false) ∧ ∀ c ∈ s.getLast?, isBlank c = false

/-- A blank comes first, unless there is nothing. -/
def StartsBlank (s : List Char) : Prop := ∀ c ∈ s.head?, isBlank c = true

/-- A word is not empty and has no blanks. -/
structure IsWord (s : List Char) : Prop where
  ne_nil : s ≠ []
  noBlanks : NoBlanks s

theorem Blanks.append {s t : List Char} (hs : Blanks s) (ht : Blanks t) : Blanks (s ++ t) := by
  intro c hc
  rcases List.mem_append.mp hc with h | h
  · exact hs c h
  · exact ht c h

theorem Blanks.reverse {s : List Char} (hs : Blanks s) : Blanks s.reverse :=
  fun c hc => hs c (List.mem_reverse.mp hc)

theorem Blanks.startsBlank {s t : List Char} (hs : Blanks s) (h : s ≠ []) :
    StartsBlank (s ++ t) := by
  cases s with
  | nil => exact absurd rfl h
  | cons c r =>
    intro d hd
    cases hd
    exact hs c List.mem_cons_self

theorem IsWord.trimmed {s : List Char} (h : IsWord s) : Trimmed s :=
  ⟨fun c hc => h.noBlanks c (List.mem_of_mem_head? hc),
    fun c hc => h.noBlanks c (List.mem_of_getLast? hc)⟩

theorem head?_append_left {s : List Char} (h : s ≠ []) (t : List Char) :
    (s ++ t).head? = s.head? := by
  cases s with
  | nil => exact absurd rfl h
  | cons c r => rfl

theorem getLast?_append_right (s : List Char) {t : List Char} (h : t ≠ []) :
    (s ++ t).getLast? = t.getLast? := by
  rw [List.getLast?_append, List.getLast?_eq_some_getLast h, Option.some_or]

theorem Trimmed.append {s t u : List Char} (hs : Trimmed s) (hs0 : s ≠ []) (hu : Trimmed u)
    (hu0 : u ≠ []) : Trimmed (s ++ t ++ u) := by
  constructor
  · rw [List.append_assoc, head?_append_left hs0]
    exact hs.1
  · rw [getLast?_append_right _ hu0]
    exact hu.2

/-! ## Skipping blanks -/

theorem skipBlanks_append {b : List Char} (hb : Blanks b) (s : List Char) :
    skipBlanks (b ++ s) = skipBlanks s :=
  List.dropWhile_append_of_pos hb

theorem skipBlanks_eq_self {s : List Char} (h : ∀ c ∈ s.head?, isBlank c = false) :
    skipBlanks s = s := by
  cases s with
  | nil => rfl
  | cons c r => exact List.dropWhile_cons_of_neg (by rw [h c rfl]; exact Bool.false_ne_true)

theorem head?_skipBlanks (s : List Char) : ∀ c ∈ (skipBlanks s).head?, isBlank c = false := by
  intro c hc
  have := List.head?_dropWhile_not isBlank s
  rw [show s.dropWhile isBlank = skipBlanks s from rfl, Option.mem_def.mp hc] at this
  simpa using this

theorem exists_blanks_skipBlanks (s : List Char) : ∃ b, Blanks b ∧ s = b ++ skipBlanks s :=
  ⟨s.takeWhile isBlank, fun c hc => by
    have := List.all_takeWhile (p := isBlank) (l := s)
    exact List.all_eq_true.mp this c hc, List.takeWhile_append_dropWhile.symm⟩

/-! ## Stripping -/

theorem strip_surrounded {b t b' : List Char} (hb : Blanks b) (ht : Trimmed t) (hb' : Blanks b') :
    strip (b ++ t ++ b') = t := by
  unfold strip
  rw [List.append_assoc, skipBlanks_append hb]
  by_cases h0 : t = []
  · have hnil : skipBlanks b' = [] := by
      have := skipBlanks_append hb' []
      rwa [List.append_nil] at this
    rw [h0, List.nil_append, hnil]
    rfl
  · have hhead : ∀ c ∈ (t ++ b').head?, isBlank c = false := by
      rw [head?_append_left h0]
      exact ht.1
    rw [skipBlanks_eq_self hhead, List.reverse_append, skipBlanks_append hb'.reverse,
      skipBlanks_eq_self (by rw [List.head?_reverse]; exact ht.2), List.reverse_reverse]

theorem Trimmed.strip_eq {t : List Char} (h : Trimmed t) : strip t = t := by
  have hstrip : strip ([] ++ t ++ []) = t := strip_surrounded nofun h nofun
  rwa [List.nil_append, List.append_nil] at hstrip

/-- Behind what is left there were blanks. -/
theorem exists_blanks_strip (s : List Char) : ∃ b, Blanks b ∧ skipBlanks s = strip s ++ b := by
  obtain ⟨b, hb, hr⟩ := exists_blanks_skipBlanks (skipBlanks s).reverse
  refine ⟨b.reverse, hb.reverse, ?_⟩
  have hreverse := congrArg List.reverse hr
  rwa [List.reverse_reverse, List.reverse_append] at hreverse

/-- A text is what stripping leaves of it between blanks. -/
theorem exists_surround (s : List Char) :
    ∃ b b', Blanks b ∧ Blanks b' ∧ s = b ++ strip s ++ b' := by
  obtain ⟨b, hb, hs⟩ := exists_blanks_skipBlanks s
  obtain ⟨b', hb', hr⟩ := exists_blanks_strip s
  refine ⟨b, b', hb, hb', ?_⟩
  rw [List.append_assoc, ← hr, ← hs]

theorem trimmed_strip (s : List Char) : Trimmed (strip s) := by
  constructor
  · obtain ⟨b', -, hr⟩ := exists_blanks_strip s
    intro c hc
    apply head?_skipBlanks s
    rw [hr, head?_append_left (by rintro h; rw [h] at hc; cases hc)]
    exact hc
  · unfold strip
    rw [List.getLast?_reverse]
    exact head?_skipBlanks _

theorem strip_eq_nil_iff {s : List Char} : strip s = [] ↔ Blanks s := by
  constructor
  · intro h
    obtain ⟨b, b', hb, hb', hs⟩ := exists_surround s
    rw [h, List.append_nil] at hs
    rw [hs]
    exact hb.append hb'
  · intro h
    have hstrip : strip (s ++ [] ++ []) = [] := strip_surrounded h ⟨nofun, nofun⟩ nofun
    rwa [List.append_nil, List.append_nil] at hstrip

/-! ## Words -/

theorem spanWord_append_of {w r : List Char} (hw : NoBlanks w) (hr : StartsBlank r) :
    spanWord (w ++ r) = (w, r) := by
  have hw' : ∀ c ∈ w, (!isBlank c) = true := fun c hc => by rw [hw c hc]; rfl
  unfold spanWord
  rw [List.takeWhile_append_of_pos hw', List.dropWhile_append_of_pos hw']
  cases r with
  | nil => simp
  | cons c r =>
    have hc : isBlank c = true := hr c rfl
    simp [hc]

theorem noBlanks_spanWord (s : List Char) : NoBlanks (spanWord s).1 := by
  intro c hc
  have := List.all_eq_true.mp (List.all_takeWhile (p := (!isBlank ·)) (l := s)) c hc
  simpa using this

/-- A text that starts with no blank starts with a word. -/
theorem isWord_spanWord {s : List Char} (hne : s ≠ []) (hs : ∀ c ∈ s.head?, isBlank c = false) :
    IsWord (spanWord s).1 := by
  refine ⟨?_, noBlanks_spanWord s⟩
  obtain ⟨c, r, rfl⟩ := List.exists_cons_of_ne_nil hne
  have hc : isBlank c = false := hs c rfl
  simp [spanWord, hc]

theorem startsBlank_spanWord (s : List Char) : StartsBlank (spanWord s).2 := by
  intro c hc
  have := List.head?_dropWhile_not (!isBlank ·) s
  rw [show s.dropWhile (!isBlank ·) = (spanWord s).2 from rfl, Option.mem_def.mp hc] at this
  simpa using this

/-- After a text's first word come blanks, unless nothing comes. -/
theorem exists_blanks_spanWord (s : List Char) :
    ∃ b, Blanks b ∧ s = (spanWord s).1 ++ b ++ skipBlanks (spanWord s).2 ∧
      (skipBlanks (spanWord s).2 ≠ [] → b ≠ []) := by
  obtain ⟨b, hb, hrest⟩ := exists_blanks_skipBlanks (spanWord s).2
  refine ⟨b, hb, ?_, ?_⟩
  · rw [List.append_assoc, ← hrest, spanWord_append]
  · intro hne hb0
    have hstart := startsBlank_spanWord s
    rw [hrest, hb0, List.nil_append] at hstart
    obtain ⟨c, r, hc⟩ := List.exists_cons_of_ne_nil hne
    have hhead : (skipBlanks (spanWord s).2).head? = some c := by rw [hc]; rfl
    have h := head?_skipBlanks (spanWord s).2 c hhead
    rw [hstart c hhead] at h
    cases h

/-! ## Bare text -/

/-- Printable ASCII from `*` on: there are no blanks, no quotes and no `#`. -/
def IsBare (c : Char) : Prop := 0x2a ≤ c.toNat ∧ c.toNat ≤ 0x7e

instance (c : Char) : Decidable (IsBare c) := inferInstanceAs (Decidable (_ ∧ _))

def Bare (s : List Char) : Prop := ∀ c ∈ s, IsBare c

instance (s : List Char) : Decidable (Bare s) := List.decidableBAll IsBare s

theorem IsBare.ne {c d : Char} (h : IsBare c) (hd : ¬ IsBare d) : c ≠ d := by
  rintro rfl
  exact hd h

theorem Bare.noBlanks {s : List Char} (h : Bare s) : NoBlanks s := by
  intro c hc
  have hbare := h c hc
  unfold IsBare at hbare
  simp only [isBlank, Bool.or_eq_false_iff, Bool.and_eq_false_imp, beq_eq_false_iff_ne,
    decide_eq_true_eq, decide_eq_false_iff_not]
  omega

end LoxMachine.Text
