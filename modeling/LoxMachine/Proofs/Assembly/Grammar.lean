import LoxMachine.Assembly.Statement
import LoxMachine.Proofs.Text.Blank

/-!
# The grammar of an assembly text

A line spells a statement by its source line, the mnemonic in letters of either case and, for a
constant, a literal, with blanks between and around them. `Spells` is that grammar, said without
the reader; a program is spelled line by line, and lines of blanks and comments spell nothing.

    Statement.read raw = .ok (some s) ↔ Spells (beforeComment raw) s      (read_eq_some_iff)
    Statement.read raw = .ok none ↔ Blanks (beforeComment raw)            (read_eq_none_iff)
-/

namespace LoxMachine.Assembly

open Text

/-- A text is made of the given parts, with blanks between and around them. -/
inductive HasParts : List Char → Statement.Parts → Prop
  | intro {b₀ line b₁ mnemonic b₂ operand b₃ : List Char} (hb₀ : Blanks b₀) (hline : IsWord line)
      (hb₁ : Blanks b₁) (hne₁ : b₁ ≠ []) (hmnemonic : IsWord mnemonic) (hb₂ : Blanks b₂)
      (hne₂ : operand ≠ [] → b₂ ≠ []) (hoperand : Trimmed operand) (hb₃ : Blanks b₃) :
      HasParts (b₀ ++ (line ++ b₁ ++ (mnemonic ++ b₂ ++ operand)) ++ b₃) ⟨line, mnemonic, operand⟩

/-- A text without comment spells a statement. -/
inductive Spells (text : List Char) : Statement → Prop
  | plain {line mnemonic : List Char} {op : Opcode} {n : Int} {i : Instruction}
      (hparts : HasParts text ⟨line, mnemonic, []⟩) (hn : Numeral.read? line = some n)
      (hop : toUpper mnemonic = op.mnemonic.toList) (hi : Statement.plain? op = some i) :
      Spells text ⟨n, i⟩
  | constant {line mnemonic operand : List Char} {n : Int} {v : Value}
      (hparts : HasParts text ⟨line, mnemonic, operand⟩) (hn : Numeral.read? line = some n)
      (hop : toUpper mnemonic = Opcode.constant.mnemonic.toList) (hne : operand ≠ [])
      (hv : Literal.read operand = .ok v) :
      Spells text ⟨n, .constant v⟩

/-- The lines of a text spell a program. -/
inductive SpellsProgram : List (List Char) → List Statement → Prop
  | nil : SpellsProgram [] []
  | skip {raw : List Char} {lines : List (List Char)} {program : List Statement}
      (hraw : Blanks (beforeComment raw)) (h : SpellsProgram lines program) :
      SpellsProgram (raw :: lines) program
  | cons {raw : List Char} {lines : List (List Char)} {s : Statement} {program : List Statement}
      (hraw : Spells (beforeComment raw) s) (h : SpellsProgram lines program) :
      SpellsProgram (raw :: lines) (s :: program)

namespace Statement

/-! ## Parts -/

/-- The parts of a text are two words and what is left, with blanks between them. -/
theorem exists_parts (text : List Char) :
    ∃ b b', Blanks b ∧ Blanks b' ∧
      text = (parts text).line ++ b ++ ((parts text).mnemonic ++ b' ++ (parts text).operand) ∧
      ((parts text).mnemonic ≠ [] → b ≠ []) ∧ ((parts text).operand ≠ [] → b' ≠ []) := by
  obtain ⟨b, hb, htext, hb0⟩ := exists_blanks_spanWord text
  obtain ⟨b', hb', hrest, hb'0⟩ := exists_blanks_spanWord (skipBlanks (spanWord text).2)
  refine ⟨b, b', hb, hb', ?_, ?_, hb'0⟩
  · rw [hrest] at htext
    exact htext
  · intro hm
    apply hb0
    intro hnil
    apply hm
    show (spanWord (skipBlanks (spanWord text).2)).1 = []
    rw [hnil]
    rfl

theorem noBlanks_line (text : List Char) : NoBlanks (parts text).line := noBlanks_spanWord _

theorem noBlanks_mnemonic (text : List Char) : NoBlanks (parts text).mnemonic :=
  noBlanks_spanWord _

/-- The operand goes on to the end, so that of a trimmed text is trimmed. -/
theorem trimmed_operand {text : List Char} (h : Trimmed text) : Trimmed (parts text).operand := by
  constructor
  · exact head?_skipBlanks _
  · by_cases hne : (parts text).operand = []
    · rw [hne]
      nofun
    · obtain ⟨b, b', -, -, htext, -, -⟩ := exists_parts text
      have hlast := h.2
      rwa [htext, ← List.append_assoc, ← List.append_assoc, getLast?_append_right _ hne] at hlast

theorem parts_words {line b mnemonic b' operand : List Char} (hline : IsWord line) (hb : Blanks b)
    (hb0 : b ≠ []) (hmnemonic : IsWord mnemonic) (hb' : Blanks b') (hb'0 : operand ≠ [] → b' ≠ [])
    (hoperand : Trimmed operand) :
    parts (line ++ b ++ (mnemonic ++ b' ++ operand)) = ⟨line, mnemonic, operand⟩ := by
  have hrest : StartsBlank (b' ++ operand) := by
    by_cases h : b' = []
    · have hop : operand = [] := Classical.byContradiction fun hne => hb'0 hne h
      rw [h, hop]
      nofun
    · exact hb'.startsBlank h
  unfold parts
  rw [List.append_assoc, spanWord_append_of hline.noBlanks (hb.startsBlank hb0)]
  dsimp only
  rw [skipBlanks_append hb, skipBlanks_eq_self, List.append_assoc,
    spanWord_append_of hmnemonic.noBlanks hrest]
  · dsimp only
    rw [skipBlanks_append hb', skipBlanks_eq_self hoperand.1]
  · rw [List.append_assoc, head?_append_left hmnemonic.ne_nil]
    exact hmnemonic.trimmed.1

/-- Parts are found as the text is made of them. -/
theorem hasParts_iff {text : List Char} {p : Parts} :
    HasParts text p ↔ parts (strip text) = p ∧ p.line ≠ [] ∧ p.mnemonic ≠ [] := by
  constructor
  · rintro ⟨hb₀, hline, hb₁, hne₁, hmnemonic, hb₂, hne₂, hoperand, hb₃⟩
    refine ⟨?_, hline.ne_nil, hmnemonic.ne_nil⟩
    rename_i b₀ line b₁ mnemonic b₂ operand b₃
    by_cases hne : operand = []
    · subst hne
      have htrim := hline.trimmed.append (t := b₁) hline.ne_nil hmnemonic.trimmed hmnemonic.ne_nil
      have hparts : parts (line ++ b₁ ++ (mnemonic ++ [] ++ [])) = ⟨line, mnemonic, []⟩ :=
        parts_words hline hb₁ hne₁ hmnemonic nofun (absurd rfl) ⟨nofun, nofun⟩
      rw [List.append_nil, List.append_nil] at hparts
      have htext : b₀ ++ (line ++ b₁ ++ (mnemonic ++ b₂ ++ [])) ++ b₃ =
          b₀ ++ (line ++ b₁ ++ mnemonic) ++ (b₂ ++ b₃) := by simp
      rw [htext, strip_surrounded hb₀ htrim (hb₂.append hb₃), hparts]
    · have hrest := hmnemonic.trimmed.append (t := b₂) hmnemonic.ne_nil hoperand hne
      have htrim := hline.trimmed.append (t := b₁) hline.ne_nil hrest (by simp [hmnemonic.ne_nil])
      rw [strip_surrounded hb₀ htrim hb₃,
        parts_words hline hb₁ hne₁ hmnemonic hb₂ hne₂ hoperand]
  · rintro ⟨rfl, hline, hmnemonic⟩
    obtain ⟨b₀, b₃, hb₀, hb₃, htext⟩ := exists_surround text
    obtain ⟨b₁, b₂, hb₁, hb₂, hstrip, hne₁, hne₂⟩ := exists_parts (strip text)
    have hparts := HasParts.intro hb₀ ⟨hline, noBlanks_line _⟩ hb₁ (hne₁ hmnemonic)
      ⟨hmnemonic, noBlanks_mnemonic _⟩ hb₂ hne₂ (trimmed_operand (trimmed_strip text)) hb₃
    rwa [← hstrip, ← htext] at hparts

/-- The parts of a text with two words are its own. -/
theorem hasParts_parts {text : List Char} (hm : (parts (strip text)).mnemonic ≠ []) :
    HasParts text (parts (strip text)) := by
  have hne : strip text ≠ [] := by
    intro h
    rw [h] at hm
    exact hm rfl
  exact hasParts_iff.mpr ⟨rfl, (isWord_spanWord hne (trimmed_strip text).1).ne_nil, hm⟩

theorem strip_ne_nil_of_hasParts {text : List Char} {p : Parts} (h : HasParts text p) :
    strip text ≠ [] := by
  obtain ⟨rfl, hline, -⟩ := hasParts_iff.mp h
  intro hnil
  rw [hnil] at hline
  exact hline rfl

/-! ## Reading -/

theorem read_eq_none_iff {raw : List Char} :
    read raw = .ok none ↔ Blanks (beforeComment raw) := by
  rw [← strip_eq_nil_iff]
  unfold read
  by_cases h : strip (beforeComment raw) = []
  · simp [h]
  · simp only [h, if_false, iff_false]
    cases ofParts (parts (strip (beforeComment raw))) <;> nofun

theorem readOpcode_eq_ok_iff {mnemonic : List Char} {op : Opcode} :
    readOpcode mnemonic = .ok op ↔ toUpper mnemonic = op.mnemonic.toList := by
  unfold readOpcode
  constructor
  · intro h
    split at h
    · next op' hfound =>
      cases h
      have := List.find?_some hfound
      rw [decide_eq_true_eq] at this
      rw [this, String.toList_ofList]
    · cases h
  · intro h
    rw [h, String.ofList_toList, Opcode.ofMnemonic?_mnemonic]

theorem readInstruction_eq_ok_iff {op : Opcode} {operand : List Char} {i : Instruction} :
    readInstruction op operand = .ok i ↔
      (plain? op = some i ∧ operand = []) ∨
      (op = .constant ∧ operand ≠ [] ∧ ∃ v, Literal.read operand = .ok v ∧ i = .constant v) := by
  cases op with
  | ret | negate =>
    by_cases h : operand = [] <;> simp [readInstruction, plain?, h]
  | constant =>
    by_cases h : operand = []
    · simp [readInstruction, plain?, h]
    · simp only [readInstruction, plain?, h, if_false]
      cases hv : Literal.read operand with
      | error f => simp
      | ok v =>
        simp only [Except.ok.injEq, reduceCtorEq, false_and, true_and, false_or, exists_eq_left']
        exact ⟨fun hi => ⟨h, hi.symm⟩, fun hi => hi.2.symm⟩

theorem ofParts_eq_ok_iff {p : Parts} {s : Statement} :
    ofParts p = .ok s ↔ p.mnemonic ≠ [] ∧ Numeral.read? p.line = some s.line ∧
      ∃ op, readOpcode p.mnemonic = .ok op ∧ readInstruction op p.operand = .ok s.instruction := by
  unfold ofParts
  by_cases h : p.mnemonic = []
  · simp [h]
  · rw [if_neg h]
    cases hn : Numeral.read? p.line with
    | none => simp
    | some n =>
      simp only [bind, Except.bind, pure, Except.pure]
      cases hop : readOpcode p.mnemonic with
      | error e => simp
      | ok op =>
        dsimp only
        cases hi : readInstruction op p.operand with
        | error e => simp [hi]
        | ok i =>
          obtain ⟨line, instruction⟩ := s
          simp [h, hi]

theorem read_eq_some_iff_parts {raw : List Char} {s : Statement} :
    read raw = .ok (some s) ↔ strip (beforeComment raw) ≠ [] ∧
      ofParts (parts (strip (beforeComment raw))) = .ok s := by
  unfold read
  by_cases h : strip (beforeComment raw) = []
  · simp [h]
  · simp only [h, if_false]
    cases ofParts (parts (strip (beforeComment raw))) <;>
      simp [bind, Except.bind, pure, Except.pure, h]

theorem ofParts_eq_ok_iff_spells {text : List Char} {s : Statement} :
    ofParts (parts (strip text)) = .ok s ↔ Spells text s := by
  rw [ofParts_eq_ok_iff]
  constructor
  · rintro ⟨hm, hn, op, hop, hi⟩
    have hparts := hasParts_parts hm
    rw [readOpcode_eq_ok_iff] at hop
    obtain ⟨line, instruction⟩ := s
    rcases readInstruction_eq_ok_iff.mp hi with ⟨hplain, h0⟩ | ⟨rfl, hne, v, hv, rfl⟩
    · refine .plain ?_ hn hop hplain
      rwa [← h0]
    · exact .constant hparts hn hop hne hv
  · intro h
    cases h with
    | plain hparts hn hop hi =>
      obtain ⟨hp, -, hm⟩ := hasParts_iff.mp hparts
      rw [hp]
      exact ⟨hm, hn, _, readOpcode_eq_ok_iff.mpr hop,
        readInstruction_eq_ok_iff.mpr (.inl ⟨hi, rfl⟩)⟩
    | constant hparts hn hop hne hv =>
      obtain ⟨hp, -, hm⟩ := hasParts_iff.mp hparts
      rw [hp]
      exact ⟨hm, hn, _, readOpcode_eq_ok_iff.mpr hop,
        readInstruction_eq_ok_iff.mpr (.inr ⟨rfl, hne, _, hv, rfl⟩)⟩

theorem strip_ne_nil_of_spells {text : List Char} {s : Statement} (h : Spells text s) :
    strip text ≠ [] := by
  cases h with
  | plain hparts _ _ _ => exact strip_ne_nil_of_hasParts hparts
  | constant hparts _ _ _ _ => exact strip_ne_nil_of_hasParts hparts

/-- **Reading a line.** A line is read as the statement that it spells. -/
theorem read_eq_some_iff {raw : List Char} {s : Statement} :
    read raw = .ok (some s) ↔ Spells (beforeComment raw) s := by
  rw [read_eq_some_iff_parts, ofParts_eq_ok_iff_spells]
  exact ⟨fun h => h.2, fun h => ⟨strip_ne_nil_of_spells h, h⟩⟩

end Statement

theorem Spells.unique {text : List Char} {s s' : Statement} (h : Spells text s)
    (h' : Spells text s') : s = s' := by
  have hs := Statement.ofParts_eq_ok_iff_spells.mpr h
  rw [Statement.ofParts_eq_ok_iff_spells.mpr h'] at hs
  exact (Except.ok.inj hs).symm

theorem Spells.not_blanks {text : List Char} {s : Statement} (h : Spells text s) :
    ¬ Blanks text := by
  rw [← strip_eq_nil_iff]
  exact Statement.strip_ne_nil_of_spells h

/-- A text spells no more than one program. -/
theorem SpellsProgram.unique {lines : List (List Char)} {p p' : List Statement}
    (h : SpellsProgram lines p) (h' : SpellsProgram lines p') : p = p' := by
  induction h generalizing p' with
  | nil =>
    cases h'
    rfl
  | skip hraw _ ih =>
    cases h' with
    | skip _ h' => exact ih h'
    | cons hs _ => exact absurd hraw hs.not_blanks
  | cons hs _ ih =>
    cases h' with
    | skip hraw _ => exact absurd hraw hs.not_blanks
    | cons hs' h' => rw [hs.unique hs', ih h']

end LoxMachine.Assembly
