import LoxMachine.Proofs.Assembly.Composition
import LoxMachine.Proofs.Literal.Grammar
import LoxMachine.Proofs.Number.Integer

/-!
# Which texts are assembled

Each line of a text is accepted or not by what comes before its comment, whatever the other lines
are; all lines together have no more constants than the pool has room for. `Accepts` is the form of
a line, said without the reader. A line of another form has one `Defect`, since it is looked at in
a fixed order: words, line number, mnemonic, operand, literal, room in the pool. The first line with
a defect is the one that is reported (assemble_accepts_exactly).

    (∃ c, assemble lines = .ok c) ↔ Accepted lines                         (exists_assemble_iff)
    appendLine c raw = .error e ↔
      Defect c.constants.size (beforeComment raw) e                    (appendLine_eq_error_iff)
-/

namespace LoxMachine.Assembly

open Text

/-! ## Forms of a line -/

/-- There is one word, and blanks around it. -/
inductive IsOneWord : List Char → Prop
  | intro {b w b' : List Char} (hb : Blanks b) (hw : IsWord w) (hb' : Blanks b') :
      IsOneWord (b ++ w ++ b')

/-- There are a line number, the mnemonic of an opcode, and the operand, be it empty. -/
inductive HasInstruction (text : List Char) : Opcode → List Char → Prop
  | intro {line mnemonic operand : List Char} {op : Opcode}
      (hparts : HasParts text ⟨line, mnemonic, operand⟩) (hline : Numeral.IsInteger line)
      (hop : toUpper mnemonic = op.mnemonic.toList) : HasInstruction text op operand

/-- What may come before the comment of a line. -/
inductive Accepts (text : List Char) : Prop
  | blank (h : Blanks text)
  | plain {op : Opcode} (h : HasInstruction text op []) (hop : op = .ret ∨ op = .negate)
  | constant {operand : List Char} {v : Value} (h : HasInstruction text .constant operand)
      (hv : Literal.Spells operand v)

/-- The line puts a constant into the pool, if it can be assembled. -/
def HasConstant (raw : List Char) : Prop :=
  ∃ operand, HasInstruction (beforeComment raw) .constant operand

/-- What is wrong with a text that spells no statement. Each kind of fault is that of a text with
which all that is looked at before is right. -/
inductive Misspells (text : List Char) : LineError → Prop
  | missingParts (h : IsOneWord text) : Misspells text (.fault .missingParts)
  | lineNumber {p : Statement.Parts} (h : HasParts text p) (hline : ¬ Numeral.IsInteger p.line) :
      Misspells text (.fault (.lineNumber (String.ofList p.line)))
  | mnemonic {p : Statement.Parts} (h : HasParts text p) (hline : Numeral.IsInteger p.line)
      (hop : ∀ op : Opcode, toUpper p.mnemonic ≠ op.mnemonic.toList) :
      Misspells text (.fault (.unknownMnemonic (String.ofList p.mnemonic)))
  | needlessOperand {op : Opcode} {operand : List Char} (h : HasInstruction text op operand)
      (hop : op = .ret ∨ op = .negate) (hne : operand ≠ []) :
      Misspells text (.fault (.needlessOperand op))
  | missingOperand (h : HasInstruction text .constant []) :
      Misspells text (.fault (.missingOperand .constant))
  | literal {operand : List Char} {cause : ArgumentFault}
      (h : HasInstruction text .constant operand) (hne : operand ≠ [])
      (hliteral : ∀ v, ¬ Literal.Spells operand v)
      (hcause : Literal.read operand = .error (.argument cause)) :
      Misspells text (.fault (.literal cause))
  | overflow {operand : List Char} {i : Int} (h : HasInstruction text .constant operand)
      (hi : Json.Scalar operand (.int i)) (hover : (Value.int i).Overflows) :
      Misspells text (.other .numberRange)

/-- What is wrong with a text as the next line, if the lines before have `k` constants. -/
inductive Defect (k : Nat) (text : List Char) : LineError → Prop
  | misspelled {e : LineError} (h : Misspells text e) : Defect k text e
  | poolFull {operand : List Char} {v : Value} (h : HasInstruction text .constant operand)
      (hv : Literal.Spells operand v) (hfull : k = maxConstants) :
      Defect k text (.fault .poolFull)

/-! ## Parts -/

namespace Statement

theorem isOneWord_iff {text : List Char} :
    IsOneWord text ↔ strip text ≠ [] ∧ (parts (strip text)).mnemonic = [] := by
  constructor
  · rintro ⟨hb, hw, hb'⟩
    rename_i b w b'
    have hspan : spanWord (w ++ []) = (w, []) := spanWord_append_of hw.noBlanks nofun
    rw [List.append_nil] at hspan
    rw [strip_surrounded hb hw.trimmed hb']
    refine ⟨hw.ne_nil, ?_⟩
    unfold parts
    rw [hspan]
    rfl
  · rintro ⟨hne, hm⟩
    obtain ⟨b, b', hb, hb', htext⟩ := exists_surround text
    obtain ⟨b'', hb'', hstrip, -⟩ := exists_blanks_spanWord (strip text)
    have hrest : skipBlanks (spanWord (strip text)).2 = [] := by
      apply Classical.byContradiction
      intro h
      exact (isWord_spanWord h (head?_skipBlanks _)).ne_nil hm
    have hone := IsOneWord.intro hb (isWord_spanWord hne (trimmed_strip text).1) (hb''.append hb')
    rw [hrest, List.append_nil] at hstrip
    rw [htext, hstrip]
    simpa using hone

theorem ne_nil_of_readOpcode {mnemonic : List Char} {op : Opcode}
    (h : readOpcode mnemonic = .ok op) : mnemonic ≠ [] := by
  rintro rfl
  cases h

/-- An instruction is found as the text has it. -/
theorem hasInstruction_iff {text operand : List Char} {op : Opcode} :
    HasInstruction text op operand ↔ (parts (strip text)).operand = operand ∧
      (∃ n, Numeral.read? (parts (strip text)).line = some n) ∧
      readOpcode (parts (strip text)).mnemonic = .ok op := by
  rw [Numeral.exists_read?_iff]
  constructor
  · rintro ⟨hparts, hline, hop⟩
    obtain ⟨hp, -⟩ := hasParts_iff.mp hparts
    rw [hp]
    exact ⟨rfl, hline, readOpcode_eq_ok_iff.mpr hop⟩
  · rintro ⟨rfl, hline, hop⟩
    have hparts := hasParts_parts (ne_nil_of_readOpcode hop)
    exact .intro hparts hline (readOpcode_eq_ok_iff.mp hop)

end Statement

/-! ## Forms that are read -/

section
variable {text : List Char}

theorem HasInstruction.trimmed {op : Opcode} {operand : List Char}
    (h : HasInstruction text op operand) : Trimmed operand := by
  obtain ⟨⟨-, -, -, -, -, -, -, hoperand, -⟩, -, -⟩ := h
  exact hoperand

theorem HasInstruction.strip_ne_nil {op : Opcode} {operand : List Char}
    (h : HasInstruction text op operand) : strip text ≠ [] := by
  obtain ⟨hparts, -, -⟩ := h
  exact Statement.strip_ne_nil_of_hasParts hparts

/-- A text has no more than one opcode. -/
theorem HasInstruction.unique {op op' : Opcode} {operand operand' : List Char}
    (h : HasInstruction text op operand) (h' : HasInstruction text op' operand') :
    op = op' ∧ operand = operand' := by
  obtain ⟨hoperand, -, hop⟩ := Statement.hasInstruction_iff.mp h
  obtain ⟨hoperand', -, hop'⟩ := Statement.hasInstruction_iff.mp h'
  exact ⟨Except.ok.inj (hop.symm.trans hop'), hoperand.symm.trans hoperand'⟩

/-- The operand of an instruction is read as the literal that it spells. -/
theorem HasInstruction.read_eq_ok_iff {op : Opcode} {operand : List Char} {v : Value}
    (h : HasInstruction text op operand) :
    Literal.read operand = .ok v ↔ Literal.Spells operand v := by
  rw [Literal.read_eq_ok_iff, h.trimmed.strip_eq]

theorem Statement.plain?_inj {op op' : Opcode} {i : Instruction} (h : plain? op = some i)
    (h' : plain? op' = some i) : op = op' := by
  cases op <;> cases op' <;> cases h <;> cases h' <;> rfl

theorem exists_spells_plain_iff {op : Opcode} {i : Instruction}
    (hi : Statement.plain? op = some i) :
    (∃ n, Spells text ⟨n, i⟩) ↔ HasInstruction text op [] := by
  constructor
  · rintro ⟨n, h⟩
    cases h with
    | plain hparts hn hop hi' =>
      obtain rfl := Statement.plain?_inj hi' hi
      exact .intro hparts (Numeral.exists_read?_iff.mp ⟨n, hn⟩) hop
    | constant _ _ _ _ _ => cases op <;> cases hi
  · rintro ⟨hparts, hline, hop⟩
    obtain ⟨n, hn⟩ := Numeral.exists_read?_iff.mpr hline
    exact ⟨n, .plain hparts hn hop hi⟩

theorem exists_spells_constant_iff {v : Value} :
    (∃ n, Spells text ⟨n, .constant v⟩) ↔
      ∃ operand, HasInstruction text .constant operand ∧ Literal.Spells operand v := by
  constructor
  · rintro ⟨n, h⟩
    cases h with
    | @plain _ _ op _ _ _ _ _ hplain => cases op <;> cases hplain
    | constant hparts hn hop hne hv =>
      have h := HasInstruction.intro hparts (Numeral.exists_read?_iff.mp ⟨n, hn⟩) hop
      exact ⟨_, h, h.read_eq_ok_iff.mp hv⟩
  · rintro ⟨operand, h, hv⟩
    rw [← h.read_eq_ok_iff] at hv
    obtain ⟨hparts, hline, hop⟩ := h
    obtain ⟨n, hn⟩ := Numeral.exists_read?_iff.mpr hline
    refine ⟨n, .constant hparts hn hop ?_ hv⟩
    rintro rfl
    cases hv

/-- A line is accepted if it has no statement, or spells one. -/
theorem accepts_iff : Accepts text ↔ Blanks text ∨ ∃ s, Spells text s := by
  constructor
  · intro h
    cases h with
    | blank h => exact .inl h
    | plain h hop =>
      rcases hop with rfl | rfl
      all_goals
        obtain ⟨n, hn⟩ := (exists_spells_plain_iff rfl).mpr h
        exact .inr ⟨_, hn⟩
    | constant h hv =>
      obtain ⟨n, hn⟩ := exists_spells_constant_iff.mpr ⟨_, h, hv⟩
      exact .inr ⟨_, hn⟩
  · rintro (h | ⟨⟨n, i⟩, h⟩)
    · exact .blank h
    · cases i with
      | ret =>
        have hret : Statement.plain? .ret = some .ret := rfl
        exact .plain ((exists_spells_plain_iff hret).mp ⟨n, h⟩) (.inl rfl)
      | negate =>
        have hnegate : Statement.plain? .negate = some .negate := rfl
        exact .plain ((exists_spells_plain_iff hnegate).mp ⟨n, h⟩) (.inr rfl)
      | constant v =>
        obtain ⟨operand, hop, hv⟩ := exists_spells_constant_iff.mp ⟨n, h⟩
        exact .constant hop hv

end

/-! ## Lines with a constant -/

instance : DecidablePred HasConstant := fun raw =>
  decidable_of_iff
    ((Numeral.read? (Statement.parts (strip (beforeComment raw))).line).isSome ∧
      toUpper (Statement.parts (strip (beforeComment raw))).mnemonic =
        Opcode.constant.mnemonic.toList)
    (by simp [HasConstant, Statement.hasInstruction_iff, Option.isSome_iff_exists,
      Statement.readOpcode_eq_ok_iff])

theorem hasConstant_iff_of_spells {raw : List Char} {n : Int} {i : Instruction}
    (h : Spells (beforeComment raw) ⟨n, i⟩) : HasConstant raw ↔ ∃ v, i = .constant v := by
  have hplain {op : Opcode} (hi : Statement.plain? op = some i) (hop : op ≠ .constant) :
      ¬ HasConstant raw := by
    rintro ⟨operand, hconstant⟩
    exact hop (((exists_spells_plain_iff hi).mp ⟨n, h⟩).unique hconstant).1
  cases i with
  | ret => simpa using hplain (show Statement.plain? .ret = _ from rfl) nofun
  | negate => simpa using hplain (show Statement.plain? .negate = _ from rfl) nofun
  | constant v =>
    obtain ⟨operand, hop, -⟩ := exists_spells_constant_iff.mp ⟨n, h⟩
    exact ⟨fun _ => ⟨v, rfl⟩, fun _ => ⟨operand, hop⟩⟩

theorem SpellsProgram.length_constants {lines : List (List Char)} {program : List Statement}
    (h : SpellsProgram lines program) :
    (Program.constants program).length = lines.countP HasConstant := by
  induction h with
  | nil => rfl
  | @skip raw _ _ hraw _ ih =>
    have hnot : ¬ HasConstant raw := fun ⟨_, h⟩ => h.strip_ne_nil (strip_eq_nil_iff.mpr hraw)
    rw [List.countP_cons_of_neg (by simpa using hnot), ih]
  | @cons raw _ s _ hs _ ih =>
    obtain ⟨n, i⟩ := s
    have hiff := hasConstant_iff_of_spells hs
    rw [Program.length_constants_cons, ih, Nat.add_comm]
    cases i with
    | ret | negate =>
      rw [List.countP_cons_of_neg (by simpa using hiff)]
      rfl
    | constant v =>
      rw [List.countP_cons_of_pos (by simpa using hiff)]
      rfl

/-! ## Texts -/

/-- The texts that are assembled, line by line. -/
structure Accepted (lines : List (List Char)) : Prop where
  pool : lines.countP HasConstant ≤ maxConstants
  accepts : ∀ raw ∈ lines, Accepts (beforeComment raw)

section
variable {lines : List (List Char)} {c : Chunk}

theorem exists_spellsProgram_iff :
    (∃ program, SpellsProgram lines program) ↔ ∀ raw ∈ lines, Accepts (beforeComment raw) := by
  induction lines with
  | nil => exact ⟨fun _ => nofun, fun _ => ⟨[], .nil⟩⟩
  | cons raw rest ih =>
    rw [List.forall_mem_cons, ← ih, accepts_iff]
    constructor
    · rintro ⟨program, h⟩
      cases h with
      | skip hraw h => exact ⟨.inl hraw, _, h⟩
      | cons hraw h => exact ⟨.inr ⟨_, hraw⟩, _, h⟩
    · rintro ⟨hraw | ⟨s, hs⟩, program, h⟩
      · exact ⟨program, .skip hraw h⟩
      · exact ⟨s :: program, .cons hs h⟩

theorem exists_assemble_iff : (∃ c, assemble lines = .ok c) ↔ Accepted lines := by
  constructor
  · rintro ⟨c, h⟩
    obtain ⟨program, hspells, hpool, -⟩ := assemble_eq_ok_iff.mp h
    rw [hspells.length_constants] at hpool
    exact ⟨hpool, exists_spellsProgram_iff.mp ⟨program, hspells⟩⟩
  · rintro ⟨hpool, haccepts⟩
    obtain ⟨program, hspells⟩ := exists_spellsProgram_iff.mpr haccepts
    rw [← hspells.length_constants] at hpool
    exact ⟨_, assemble_eq_ok_iff.mpr ⟨program, hspells, hpool, rfl⟩⟩

theorem size_of_assemble (h : assemble lines = .ok c) :
    c.constants.size = lines.countP HasConstant := by
  obtain ⟨program, hspells, -, rfl⟩ := assemble_eq_ok_iff.mp h
  rw [Program.size_constants_chunk, hspells.length_constants]

end

/-! ## Defects -/

namespace Statement

theorem read_of_hasInstruction {raw operand : List Char} {op : Opcode} {e : LineError}
    (h : HasInstruction (beforeComment raw) op operand)
    (hi : readInstruction op operand = .error e) : read raw = .error e := by
  have hne := h.strip_ne_nil
  obtain ⟨hoperand, hline, hop⟩ := hasInstruction_iff.mp h
  refine read_eq_error_iff_parts.mpr ⟨hne, ofParts_eq_error_iff.mpr ?_⟩
  rw [← hoperand] at hi
  exact .inr ⟨ne_nil_of_readOpcode hop, .inr ⟨hline, .inr ⟨op, hop, hi⟩⟩⟩

theorem misspells_of_readInstruction {text operand : List Char} {op : Opcode} {e : LineError}
    (h : HasInstruction text op operand) (hi : readInstruction op operand = .error e) :
    Misspells text e := by
  rcases readInstruction_eq_error_iff.mp hi with
    ⟨hop, hne, rfl⟩ | ⟨rfl, rfl, rfl⟩ | ⟨rfl, hne, f, hf, rfl⟩
  · refine .needlessOperand h ?_ hne
    cases op with
    | ret | negate => simp
    | constant => exact absurd rfl hop
  · exact .missingOperand h
  · rcases Literal.fault_of_read hf with rfl | ⟨cause, rfl⟩
    · obtain ⟨i, hi, hover⟩ := Literal.read_eq_numberRange_iff_scalar.mp hf
      rw [h.trimmed.strip_eq] at hi
      exact .overflow h hi hover
    · refine .literal h hne ?_ hf
      intro v hv
      rw [← h.read_eq_ok_iff, hf] at hv
      cases hv

/-- **Reading a line.** It fails for what is misspelled. -/
theorem read_eq_error_iff {raw : List Char} {e : LineError} :
    read raw = .error e ↔ Misspells (beforeComment raw) e := by
  constructor
  · intro h
    obtain ⟨hne, h⟩ := read_eq_error_iff_parts.mp h
    rcases ofParts_eq_error_iff.mp h with
      ⟨hm, rfl⟩ | ⟨hm, ⟨hn, rfl⟩ | ⟨hline, hop | ⟨op, hop, hi⟩⟩⟩
    · exact .missingParts (isOneWord_iff.mpr ⟨hne, hm⟩)
    · exact .lineNumber (hasParts_parts hm) (Numeral.read?_eq_none_iff.mp hn)
    · obtain ⟨hnone, rfl⟩ := readOpcode_eq_error_iff.mp hop
      exact .mnemonic (hasParts_parts hm) (Numeral.exists_read?_iff.mp hline) hnone
    · exact misspells_of_readInstruction (hasInstruction_iff.mpr ⟨rfl, hline, hop⟩) hi
  · intro h
    cases h with
    | missingParts h =>
      obtain ⟨hne, hm⟩ := isOneWord_iff.mp h
      exact read_eq_error_iff_parts.mpr ⟨hne, ofParts_eq_error_iff.mpr (.inl ⟨hm, rfl⟩)⟩
    | lineNumber h hline =>
      obtain ⟨rfl, -, hm⟩ := hasParts_iff.mp h
      refine read_eq_error_iff_parts.mpr ⟨strip_ne_nil_of_hasParts h, ?_⟩
      exact ofParts_eq_error_iff.mpr
        (.inr ⟨hm, .inl ⟨Numeral.read?_eq_none_iff.mpr hline, rfl⟩⟩)
    | mnemonic h hline hop =>
      obtain ⟨rfl, -, hm⟩ := hasParts_iff.mp h
      refine read_eq_error_iff_parts.mpr ⟨strip_ne_nil_of_hasParts h, ?_⟩
      exact ofParts_eq_error_iff.mpr (.inr ⟨hm, .inr ⟨Numeral.exists_read?_iff.mpr hline,
        .inl (readOpcode_eq_error_iff.mpr ⟨hop, rfl⟩)⟩⟩)
    | needlessOperand h hop hne =>
      refine read_of_hasInstruction h (readInstruction_eq_error_iff.mpr (.inl ⟨?_, hne, rfl⟩))
      rcases hop with rfl | rfl <;> nofun
    | missingOperand h =>
      exact read_of_hasInstruction h
        (readInstruction_eq_error_iff.mpr (.inr (.inl ⟨rfl, rfl, rfl⟩)))
    | literal h hne hliteral hcause =>
      exact read_of_hasInstruction h
        (readInstruction_eq_error_iff.mpr (.inr (.inr ⟨rfl, hne, _, hcause, rfl⟩)))
    | overflow h hi hover =>
      have hf := Literal.read_eq_numberRange_iff_scalar.mpr ⟨_, h.trimmed.strip_eq.symm ▸ hi, hover⟩
      refine read_of_hasInstruction h
        (readInstruction_eq_error_iff.mpr (.inr (.inr ⟨rfl, ?_, _, hf, rfl⟩)))
      rintro rfl
      cases hf

end Statement

/-- **Appending a line.** It fails for the defect of the line. -/
theorem appendLine_eq_error_iff {c : Chunk} {raw : List Char} {e : LineError}
    (hc : c.isSealed = false) (hpool : c.constants.size ≤ maxConstants) :
    appendLine c raw = .error e ↔ Defect c.constants.size (beforeComment raw) e := by
  constructor
  · intro h
    cases hr : Statement.read raw with
    | error e' =>
      rw [appendLine, hr] at h
      cases h
      exact .misspelled (Statement.read_eq_error_iff.mp hr)
    | ok s? =>
      rw [appendLine, hr] at h
      rcases s? with _ | ⟨n, i⟩
      · cases h
      change append c ⟨n, i⟩ = .error e at h
      cases i with
      | ret | negate =>
        rw [append_plain hc (by simp)] at h
        cases h
      | constant v =>
        change appendConstant c v n = .error e at h
        obtain ⟨operand, hop, hv⟩ :=
          exists_spells_constant_iff.mp ⟨n, Statement.read_eq_some_iff.mp hr⟩
        by_cases hroom : c.constants.size < maxConstants
        · rw [appendConstant_of_lt hc hroom] at h
          cases h
        · rw [appendConstant_of_le (by omega)] at h
          cases h
          exact .poolFull hop hv (by omega)
  · intro h
    cases h with
    | misspelled h =>
      rw [appendLine, Statement.read_eq_error_iff.mpr h]
      rfl
    | poolFull h hv hfull =>
      obtain ⟨n, hn⟩ := exists_spells_constant_iff.mpr ⟨_, h, hv⟩
      exact appendLine_of_full (by omega) hn

/-- **Acceptance.** A text is assembled if it is one of the grammar; otherwise the first line with a
defect is reported, for the first thing that is wrong with it. -/
theorem assemble_accepts_exactly (lines : List (List Char)) :
    ((∃ c, assemble lines = .ok c) ↔ Accepted lines) ∧
      ∀ f, assemble lines = .error f ↔ ∃ before raw after e, lines = before ++ raw :: after ∧
        Accepted before ∧ Defect (before.countP HasConstant) (beforeComment raw) e ∧
        f = e.atLine (before.length + 1 : Nat) := by
  refine ⟨exists_assemble_iff, ?_⟩
  intro f
  rw [assemble_eq_error_iff_exists]
  constructor
  · rintro ⟨before, raw, after, rfl, c, e, hbefore, hraw, rfl⟩
    obtain ⟨hc, hpool⟩ := open_of_assemble hbefore
    rw [appendLine_eq_error_iff hc hpool, size_of_assemble hbefore] at hraw
    exact ⟨before, raw, after, e, rfl, exists_assemble_iff.mp ⟨c, hbefore⟩, hraw, rfl⟩
  · rintro ⟨before, raw, after, e, rfl, haccepted, hraw, rfl⟩
    obtain ⟨c, hbefore⟩ := exists_assemble_iff.mpr haccepted
    obtain ⟨hc, hpool⟩ := open_of_assemble hbefore
    rw [← size_of_assemble hbefore, ← appendLine_eq_error_iff hc hpool] at hraw
    exact ⟨before, raw, after, rfl, c, e, hbefore, hraw, rfl⟩

/-- The number of the line is looked at before the rest of it. -/
example : assemble [[], "x OP_NEGATE 'operand'".toList] =
    .error (.bytecode (.line 2 (.lineNumber "x"))) := by
  decide +kernel

end LoxMachine.Assembly
