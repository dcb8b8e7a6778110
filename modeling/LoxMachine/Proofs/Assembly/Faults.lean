import LoxMachine.Proofs.Assembly.Meaning
import LoxMachine.Proofs.Traversal
import LoxMachine.Proofs.Value.Overflow

/-!
# Faults of an assembly text

Most of what can be wrong with a text is reported with the number of a line. Two faults are not: a
constant that overflows, and bytes that are not UTF-8. Each of them shows only if all lines before
it can be assembled.

    assemble lines = .error f ↔ f = .numberRange ∧ Overflows lines        (assemble_eq_error_iff)
    ofBytes bytes = .error f ↔ Raises (Content.ofBytes bytes) f           (ofBytes_eq_error_iff)
-/

namespace LoxMachine.Assembly

open Text

/-- A text without comment spells a constant, but for a whole number that overflows. -/
inductive SpellsOverflow (text : List Char) : Prop
  | intro {line mnemonic operand : List Char} {n : Int} {v : Value}
      (hparts : HasParts text ⟨line, mnemonic, operand⟩) (hn : Numeral.read? line = some n)
      (hop : toUpper mnemonic = Opcode.constant.mnemonic.toList)
      (hv : Json.read operand = .ok v) (hover : v.Overflows)

/-- Such a constant comes after lines that can be assembled. -/
inductive Overflows : List (List Char) → Prop
  | intro {before : List (List Char)} {raw : List Char} {after : List (List Char)} {c : Chunk}
      (hbefore : assemble before = .ok c) (hraw : SpellsOverflow (beforeComment raw)) :
      Overflows (before ++ raw :: after)

/-- The faults that assembling some content has and nobody reports. -/
inductive Raises : Content → Fault → Prop
  | text {whole : List Char} (h : Overflows (lines whole)) : Raises (.text whole) .numberRange
  | broken {before : List Char} (h : Overflows (linesBeforeBreak before)) :
      Raises (.broken before) .numberRange
  | undecodable {before : List Char} {c : Chunk} (h : assemble (linesBeforeBreak before) = .ok c) :
      Raises (.broken before) .undecodable

theorem Raises.not_isReported {content : Content} {f : Fault} (h : Raises content f) :
    ¬ f.IsReported := by
  cases h <;> exact id

/-! ## Lines -/

namespace Statement

theorem strip_eq_self_of_hasParts {text : List Char} {p : Parts} (h : HasParts text p) :
    strip p.operand = p.operand := by
  obtain ⟨-, -, -, -, -, -, -, hoperand, -⟩ := h
  exact hoperand.strip_eq

/-! ### What is wrong with the parts -/

theorem readOpcode_eq_error_iff {mnemonic : List Char} {e : LineError} :
    readOpcode mnemonic = .error e ↔
      (∀ op : Opcode, toUpper mnemonic ≠ op.mnemonic.toList) ∧
        e = .fault (.unknownMnemonic (String.ofList mnemonic)) := by
  simp only [ne_eq, ← readOpcode_eq_ok_iff]
  unfold readOpcode
  split
  · simp
  · simp [eq_comm]

theorem readInstruction_eq_error_iff {op : Opcode} {operand : List Char} {e : LineError} :
    readInstruction op operand = .error e ↔
      (op ≠ .constant ∧ operand ≠ [] ∧ e = .fault (.needlessOperand op)) ∨
      (op = .constant ∧ operand = [] ∧ e = .fault (.missingOperand .constant)) ∨
      (op = .constant ∧ operand ≠ [] ∧
        ∃ f, Literal.read operand = .error f ∧ e = .ofLiteral f) := by
  cases op with
  | ret | negate =>
    by_cases h : operand = [] <;> simp [readInstruction, plain?, h, eq_comm]
  | constant =>
    by_cases h : operand = []
    · simp [readInstruction, plain?, h, eq_comm]
    · simp only [readInstruction, plain?, h, if_false]
      cases hv : Literal.read operand <;> simp [h, @eq_comm _ e]

/-- The parts are looked at in order. -/
theorem ofParts_eq_error_iff {p : Parts} {e : LineError} :
    ofParts p = .error e ↔
      (p.mnemonic = [] ∧ e = .fault .missingParts) ∨
      (p.mnemonic ≠ [] ∧
        ((Numeral.read? p.line = none ∧ e = .fault (.lineNumber (String.ofList p.line))) ∨
          (∃ n, Numeral.read? p.line = some n) ∧
            (readOpcode p.mnemonic = .error e ∨
              ∃ op, readOpcode p.mnemonic = .ok op ∧
                readInstruction op p.operand = .error e))) := by
  unfold ofParts
  by_cases h : p.mnemonic = []
  · simp [h, eq_comm]
  · rw [if_neg h]
    cases hn : Numeral.read? p.line with
    | none => simp [h, eq_comm]
    | some n =>
      simp only [bind, Except.bind, pure, Except.pure]
      cases hop : readOpcode p.mnemonic with
      | error e => simp [h]
      | ok op =>
        dsimp only
        cases hi : readInstruction op p.operand with
        | error e => simp [h, hi]
        | ok i => simp [h, hi]

theorem read_eq_error_iff_parts {raw : List Char} {e : LineError} :
    read raw = .error e ↔ strip (beforeComment raw) ≠ [] ∧
      ofParts (parts (strip (beforeComment raw))) = .error e := by
  unfold read
  by_cases h : strip (beforeComment raw) = []
  · simp [h]
  · simp only [h, if_false]
    cases ofParts (parts (strip (beforeComment raw))) <;>
      simp [bind, Except.bind, pure, Except.pure, h]

theorem ofLiteral_eq_other_iff {text : List Char} {f g : Fault}
    (h : Literal.read text = .error g) :
    LineError.ofLiteral g = .other f ↔ f = .numberRange ∧ g = .numberRange := by
  rcases Literal.fault_of_read h with rfl | ⟨cause, rfl⟩ <;> simp [LineError.ofLiteral, eq_comm]

/-- **Reading a line.** Its one fault that is not reported is a constant that overflows. -/
theorem read_eq_other_iff {raw : List Char} {f : Fault} :
    read raw = .error (.other f) ↔ f = .numberRange ∧ SpellsOverflow (beforeComment raw) := by
  rw [read_eq_error_iff_parts, ofParts_eq_error_iff]
  constructor
  · rintro ⟨-, ⟨-, h⟩ | ⟨hm, ⟨-, h⟩ | ⟨⟨n, hn⟩, hop | ⟨op, hop, hi⟩⟩⟩⟩
    · cases h
    · cases h
    · cases (readOpcode_eq_error_iff.mp hop).2
    · have hparts := hasParts_parts hm
      rcases readInstruction_eq_error_iff.mp hi with ⟨-, -, h⟩ | ⟨-, -, h⟩ | ⟨rfl, -, g, hg, h⟩
      · cases h
      · cases h
      · obtain ⟨rfl, rfl⟩ := (ofLiteral_eq_other_iff hg).mp h.symm
        obtain ⟨v, hv, hover⟩ := Literal.read_eq_numberRange_iff.mp hg
        rw [strip_eq_self_of_hasParts hparts] at hv
        exact ⟨rfl, hparts, hn, readOpcode_eq_ok_iff.mp hop, hv, hover⟩
  · rintro ⟨rfl, hparts, hn, hop, hv, hover⟩
    have hne : strip (beforeComment raw) ≠ [] := strip_ne_nil_of_hasParts hparts
    have hoperand := strip_eq_self_of_hasParts hparts
    obtain ⟨hp, -, hm⟩ := hasParts_iff.mp hparts
    rw [hp]
    refine ⟨hne, .inr ⟨hm, .inr ⟨⟨_, hn⟩, .inr ⟨_, readOpcode_eq_ok_iff.mpr hop, ?_⟩⟩⟩⟩
    refine readInstruction_eq_error_iff.mpr (.inr (.inr ⟨rfl, ?_, .numberRange, ?_, rfl⟩))
    · rintro rfl
      cases hv
    · refine Literal.read_eq_numberRange_iff.mpr ⟨_, ?_, hover⟩
      rwa [hoperand]

end Statement

/-! ## Texts -/

section
variable {c : Chunk} (hc : c.isSealed = false)

include hc

theorem append_ne_other {s : Statement} {f : Fault} : append c s ≠ .error (.other f) := by
  obtain ⟨line, i⟩ := s
  cases i with
  | ret | negate =>
    rw [append_plain hc (by simp)]
    nofun
  | constant v =>
    show appendConstant c v line ≠ _
    by_cases h : c.constants.size < maxConstants
    · rw [appendConstant_of_lt hc h]
      nofun
    · rw [appendConstant_of_le (by omega)]
      nofun

theorem appendLine_eq_other_iff {raw : List Char} {f : Fault} :
    appendLine c raw = .error (.other f) ↔
      f = .numberRange ∧ SpellsOverflow (beforeComment raw) := by
  rw [← Statement.read_eq_other_iff]
  unfold appendLine
  cases hr : Statement.read raw with
  | error e => simp [bind, Except.bind]
  | ok r =>
    cases r with
    | none => simp [bind, Except.bind, pure, Except.pure]
    | some s => simpa [bind, Except.bind] using append_ne_other hc

end

/-- Appending a line keeps a chunk open and its pool within bounds. -/
theorem open_of_appendLine {c d : Chunk} {raw : List Char} (hc : c.isSealed = false)
    (hpool : c.constants.size ≤ maxConstants) (h : appendLine c raw = .ok d) :
    d.isSealed = false ∧ d.constants.size ≤ maxConstants := by
  rcases (appendLine_eq_ok_iff hc hpool).mp h with ⟨-, rfl⟩ | ⟨s, -, hfits, rfl⟩
  · exact ⟨hc, hpool⟩
  · rw [Program.size_constants_extend]
    exact ⟨hc, hfits⟩

theorem atLine_eq_iff {e : LineError} {n : Int} {f : Fault} (hf : ¬ f.IsReported) :
    e.atLine n = f ↔ e = .other f := by
  cases e with
  | fault cause =>
    constructor
    · rintro rfl
      exact absurd trivial hf
    · intro h
      cases h
  | other g => simp [LineError.atLine]

/-- The first line that fails gives the fault. -/
theorem assembleFrom_eq_error_iff {n : Nat} {c : Chunk} {lines : List (List Char)} {f : Fault}
    (hc : c.isSealed = false) (hpool : c.constants.size ≤ maxConstants) (hf : ¬ f.IsReported) :
    assembleFrom n c lines = .error f ↔ ∃ before raw after, lines = before ++ raw :: after ∧
      (∃ d, assembleFrom n c before = .ok d) ∧
      f = .numberRange ∧ SpellsOverflow (beforeComment raw) := by
  induction lines generalizing n c with
  | nil => simp [assembleFrom]
  | cons line rest ih =>
    rw [exists_split_cons_iff]
    cases hline : appendLine c line with
    | error e =>
      have hspells : e = .other f ↔ f = .numberRange ∧ SpellsOverflow (beforeComment line) := by
        rw [← appendLine_eq_other_iff hc, hline, Except.error.injEq]
      have hnone : assembleFrom n c [] = .ok c := rfl
      rw [assembleFrom_of_error hline, Except.error.injEq, atLine_eq_iff hf, hspells]
      simp [hnone, assembleFrom_of_error hline]
    | ok d =>
      obtain ⟨hd, hdpool⟩ := open_of_appendLine hc hpool hline
      have hspells : ¬ (f = .numberRange ∧ SpellsOverflow (beforeComment line)) := by
        rw [← appendLine_eq_other_iff hc, hline]
        intro h
        cases h
      rw [assembleFrom_of_ok hline, ih hd hdpool]
      simp only [hspells, and_false, false_or, assembleFrom_of_ok hline]

/-- **Assembling.** Its one fault that is not reported is a constant that overflows. -/
theorem assemble_eq_error_iff {lines : List (List Char)} {f : Fault} (hf : ¬ f.IsReported) :
    assemble lines = .error f ↔ f = .numberRange ∧ Overflows lines := by
  unfold assemble
  rw [assembleFrom_eq_error_iff rfl (Nat.zero_le _) hf]
  constructor
  · rintro ⟨before, raw, after, rfl, ⟨d, hbefore⟩, rfl, hraw⟩
    exact ⟨rfl, .intro hbefore hraw⟩
  · rintro ⟨rfl, hbefore, hraw⟩
    exact ⟨_, _, _, rfl, ⟨_, hbefore⟩, rfl, hraw⟩

theorem raises_text_iff {whole : List Char} {f : Fault} :
    Raises (.text whole) f ↔ f = .numberRange ∧ Overflows (lines whole) := by
  constructor
  · rintro ⟨h⟩
    exact ⟨rfl, h⟩
  · rintro ⟨rfl, h⟩
    exact .text h

theorem raises_broken_iff {before : List Char} {f : Fault} : Raises (.broken before) f ↔
    (f = .numberRange ∧ Overflows (linesBeforeBreak before)) ∨
      (f = .undecodable ∧ ∃ c, assemble (linesBeforeBreak before) = .ok c) := by
  constructor
  · intro h
    cases h with
    | broken h => exact .inl ⟨rfl, h⟩
    | undecodable h => exact .inr ⟨rfl, _, h⟩
  · rintro (⟨rfl, h⟩ | ⟨rfl, _, h⟩)
    · exact .broken h
    · exact .undecodable h

/-- **Files.** What is not reported of an assembly file. -/
theorem ofBytes_eq_error_iff {bytes : ByteArray} {f : Fault} (hf : ¬ f.IsReported) :
    ofBytes bytes = .error f ↔ Raises (Content.ofBytes bytes) f := by
  unfold ofBytes
  cases Content.ofBytes bytes with
  | text whole => rw [raises_text_iff, ← assemble_eq_error_iff hf]
  | broken before =>
    rw [raises_broken_iff, ← assemble_eq_error_iff hf]
    dsimp only
    cases assemble (linesBeforeBreak before) <;> simp [bind, Except.bind, eq_comm]

/-- What is assembled has constants that programs compute with. -/
theorem loxPool_of_ofBytes {bytes : ByteArray} {c : Chunk} (h : ofBytes bytes = .ok c) :
    c.LoxPool := by
  have hassemble : ∃ lines, assemble lines = .ok c := by
    unfold ofBytes at h
    split at h
    · exact ⟨_, h⟩
    · next before _ =>
      cases ha : assemble (linesBeforeBreak before) <;> rw [ha] at h <;> cases h
  obtain ⟨lines, hlines⟩ := hassemble
  obtain ⟨program, hspells, -, rfl⟩ := assemble_eq_ok_iff.mp hlines
  exact loxPool_chunk hspells

end LoxMachine.Assembly
