import LoxMachine.Assembly
import LoxMachine.Proofs.Assembly.Grammar

/-!
# What is emitted for a program

Each statement becomes the cells of one instruction, all on the statement's line; a constant goes
to the end of the pool and its index into the code. `Program.chunk` says so without a chunk that
grows, and assembling a text yields the chunk of the program that the text spells, if its pool is
large enough.

    assemble lines = .ok c ↔
      ∃ program, SpellsProgram lines program ∧ (constants program).length ≤ maxConstants ∧
        c = chunk program                                            (assemble_eq_ok_iff)
-/

namespace LoxMachine.Assembly

open Text

/-! ## Programs as chunks -/

namespace Program

/-- The cells of a program whose first constant gets the index `k`. -/
def cells (k : Nat) : List Statement → List Cell
  | [] => []
  | ⟨line, .ret⟩ :: rest => ⟨Opcode.ret.tag, line⟩ :: cells k rest
  | ⟨line, .negate⟩ :: rest => ⟨Opcode.negate.tag, line⟩ :: cells k rest
  | ⟨line, .constant _⟩ :: rest =>
    ⟨Opcode.constant.tag, line⟩ :: ⟨UInt8.ofNat k, line⟩ :: cells (k + 1) rest

/-- The constants of a program in the order of its statements. -/
def constants : List Statement → List Value
  | [] => []
  | ⟨_, .constant v⟩ :: rest => v :: constants rest
  | _ :: rest => constants rest

/-- The chunk that grows from another one by a program. -/
def extend (c : Chunk) (program : List Statement) : Chunk where
  cells := c.cells ++ (cells c.constants.size program).toArray
  constants := c.constants ++ (constants program).toArray
  isSealed := c.isSealed

def chunk (program : List Statement) : Chunk := extend {} program

/-! ## Concatenation -/

theorem constants_append (p q : List Statement) :
    constants (p ++ q) = constants p ++ constants q := by
  induction p with
  | nil => rfl
  | cons s rest ih =>
    obtain ⟨line, i⟩ := s
    cases i with
    | ret | negate => exact ih
    | constant v => exact congrArg (v :: ·) ih

theorem cells_append (k : Nat) (p q : List Statement) :
    cells k (p ++ q) = cells k p ++ cells (k + (constants p).length) q := by
  induction p generalizing k with
  | nil => rfl
  | cons s rest ih =>
    obtain ⟨line, i⟩ := s
    cases i with
    | ret | negate => exact congrArg (_ :: ·) (ih k)
    | constant v =>
      have := ih (k + 1)
      rw [Nat.add_right_comm] at this
      simp only [List.cons_append, cells, constants, List.length_cons, this, ← Nat.add_assoc]

section
variable (c : Chunk) (p q : List Statement)

@[simp] theorem extend_isSealed : (extend c p).isSealed = c.isSealed := rfl

@[simp] theorem extend_nil : extend c [] = c := by
  simp [extend, cells, constants]

theorem toList_cells_extend :
    (extend c p).cells.toList = c.cells.toList ++ cells c.constants.size p := by
  simp [extend]

theorem toList_constants_extend :
    (extend c p).constants.toList = c.constants.toList ++ constants p := by
  simp [extend]

theorem size_constants_extend :
    (extend c p).constants.size = c.constants.size + (constants p).length := by
  simp [extend]

theorem extend_append : extend c (p ++ q) = extend (extend c p) q := by
  simp [extend, cells_append, constants_append]

theorem extend_cons (s : Statement) : extend c (s :: p) = extend (extend c [s]) p :=
  extend_append c [s] p

theorem length_constants_cons (s : Statement) :
    (constants (s :: p)).length = (constants [s]).length + (constants p).length := by
  rw [← List.length_append, ← constants_append]
  rfl

end

end Program

/-! ## Appending -/

theorem appendConstant_of_le {c : Chunk} (h : maxConstants ≤ c.constants.size) (v : Value)
    (line : Int) : appendConstant c v line = .error (.fault .poolFull) := by
  unfold appendConstant
  rw [if_pos h]

section
variable {c : Chunk} (hc : c.isSealed = false)

include hc

theorem put_ofNat (byte : Nat) (h : byte < 256) (line : Int) :
    put c byte line = .ok (c.push (UInt8.ofNat byte) line) := by
  unfold put
  have hw : c.write byte line = .ok (c.push (UInt8.ofNat byte) line) :=
    Chunk.write_eq_ok_iff.mpr ⟨hc, by omega, by omega, by rw [Int.toNat_natCast]⟩
  rw [hw]
  rfl

theorem appendConstant_of_lt (h : c.constants.size < maxConstants) (v : Value) (line : Int) :
    appendConstant c v line = .ok (Program.extend c [⟨line, .constant v⟩]) := by
  have hmax : maxConstants = 256 := rfl
  let grown : Chunk := { c with constants := c.constants.push v }
  have hgrown : grown.isSealed = false := hc
  have hpush : c.pushConstant v = .ok grown := by
    unfold Chunk.pushConstant
    rw [if_neg (by rw [hc]; exact Bool.false_ne_true)]
  have htag := put_ofNat hgrown Opcode.constant.tag.toNat (by decide) line
  have hindex := put_ofNat (c := grown.push (UInt8.ofNat Opcode.constant.tag.toNat) line) hgrown
    c.constants.size (by omega) line
  unfold appendConstant
  rw [if_neg (by omega), hpush]
  show (put grown Opcode.constant.tag.toNat line >>= fun d => put d c.constants.size line) = _
  rw [htag]
  show put (grown.push (UInt8.ofNat Opcode.constant.tag.toNat) line) c.constants.size line = _
  rw [hindex]
  have hcells (a b : Cell) : (c.cells.push a).push b = c.cells ++ #[a, b] :=
    Array.toList_inj.mp (by simp)
  simp [grown, Program.extend, Program.cells, Program.constants, Chunk.push, hcells]

theorem append_plain {line : Int} {i : Instruction} (hi : i = .ret ∨ i = .negate) :
    append c ⟨line, i⟩ = .ok (Program.extend c [⟨line, i⟩]) := by
  rcases hi with rfl | rfl
  all_goals
    unfold append
    dsimp only
    rw [put_ofNat hc _ (by decide)]
    simp [Program.extend, Program.cells, Program.constants, Chunk.push]

/-- A statement is appended if the pool has room for its constants. -/
theorem append_eq_ok_iff (hpool : c.constants.size ≤ maxConstants) {c' : Chunk} {s : Statement} :
    append c s = .ok c' ↔
      c.constants.size + (Program.constants [s]).length ≤ maxConstants ∧
        c' = Program.extend c [s] := by
  obtain ⟨line, i⟩ := s
  cases i with
  | ret | negate =>
    rw [append_plain hc (by simp)]
    simp [Program.constants, hpool, eq_comm]
  | constant v =>
    show appendConstant c v line = .ok c' ↔ _
    by_cases h : c.constants.size < maxConstants
    · rw [appendConstant_of_lt hc h]
      simp only [Program.constants, List.length_singleton, Except.ok.injEq, eq_comm]
      exact ⟨fun hc' => ⟨h, hc'⟩, fun hc' => hc'.2⟩
    · rw [appendConstant_of_le (by omega)]
      simp only [Program.constants, List.length_singleton, reduceCtorEq, false_iff]
      omega

theorem appendLine_eq_ok_iff (hpool : c.constants.size ≤ maxConstants) {c' : Chunk}
    {raw : List Char} :
    appendLine c raw = .ok c' ↔
      (Blanks (beforeComment raw) ∧ c' = c) ∨
      ∃ s, Spells (beforeComment raw) s ∧
        c.constants.size + (Program.constants [s]).length ≤ maxConstants ∧
        c' = Program.extend c [s] := by
  unfold appendLine
  rw [← Statement.read_eq_none_iff]
  simp only [← Statement.read_eq_some_iff, ← append_eq_ok_iff hc hpool]
  cases hr : Statement.read raw with
  | error e => simp [bind, Except.bind]
  | ok r => cases r <;> simp [bind, Except.bind, pure, Except.pure, eq_comm]

end

section
variable {n : Nat} {c c' d : Chunk} {raw : List Char} {rest : List (List Char)}

theorem assembleFrom_of_ok (h : appendLine c raw = .ok d) :
    assembleFrom n c (raw :: rest) = assembleFrom (n + 1) d rest := by
  rw [assembleFrom, h]
  rfl

theorem assembleFrom_of_error {e : LineError} (h : appendLine c raw = .error e) :
    assembleFrom n c (raw :: rest) = .error (e.atLine n) := by
  rw [assembleFrom, h]
  rfl

theorem assembleFrom_cons_eq_ok_iff :
    assembleFrom n c (raw :: rest) = .ok c' ↔
      ∃ d, appendLine c raw = .ok d ∧ assembleFrom (n + 1) d rest = .ok c' := by
  cases h : appendLine c raw with
  | error e => simp [assembleFrom_of_error h]
  | ok d => simp [assembleFrom_of_ok h]

end

/-- Assembling grows a chunk by the program that the text spells. -/
theorem assembleFrom_eq_ok_iff {n : Nat} {c c' : Chunk} {lines : List (List Char)}
    (hc : c.isSealed = false) (hpool : c.constants.size ≤ maxConstants) :
    assembleFrom n c lines = .ok c' ↔
      ∃ program, SpellsProgram lines program ∧
        c.constants.size + (Program.constants program).length ≤ maxConstants ∧
        c' = Program.extend c program := by
  induction lines generalizing n c with
  | nil =>
    unfold assembleFrom
    constructor
    · intro h
      cases h
      exact ⟨[], .nil, by simpa [Program.constants] using hpool, by simp⟩
    · rintro ⟨program, hspells, -, rfl⟩
      cases hspells
      simp
  | cons raw rest ih =>
    rw [assembleFrom_cons_eq_ok_iff]
    constructor
    · rintro ⟨d, hd, hrest⟩
      rcases (appendLine_eq_ok_iff hc hpool).mp hd with ⟨hblank, rfl⟩ | ⟨s, hs, hfits, rfl⟩
      · obtain ⟨program, hspells, hsize, rfl⟩ := (ih hc hpool).mp hrest
        exact ⟨program, .skip hblank hspells, hsize, rfl⟩
      · rw [← Program.size_constants_extend] at hfits
        obtain ⟨program, hspells, hsize, rfl⟩ := (ih (by simpa using hc) hfits).mp hrest
        refine ⟨s :: program, .cons hs hspells, ?_, ?_⟩
        · rw [Program.size_constants_extend] at hsize
          rw [Program.length_constants_cons]
          omega
        · exact (Program.extend_cons c program s).symm
    · rintro ⟨program, hspells, hsize, rfl⟩
      cases hspells with
      | skip hblank h =>
        exact ⟨c, (appendLine_eq_ok_iff hc hpool).mpr (.inl ⟨hblank, rfl⟩),
          (ih hc hpool).mpr ⟨program, h, hsize, rfl⟩⟩
      | @cons _ _ s program hs h =>
        rw [Program.length_constants_cons] at hsize
        have hfits : c.constants.size + (Program.constants [s]).length ≤ maxConstants := by omega
        refine ⟨Program.extend c [s],
          (appendLine_eq_ok_iff hc hpool).mpr (.inr ⟨s, hs, hfits, rfl⟩), ?_⟩
        rw [← Program.size_constants_extend] at hfits
        refine (ih (by simpa using hc) hfits).mpr ⟨program, h, ?_, ?_⟩
        · rw [Program.size_constants_extend]
          omega
        · exact Program.extend_cons c program s

/-- **Assembling.** A text is assembled to the chunk of the program that it spells. -/
theorem assemble_eq_ok_iff {lines : List (List Char)} {c : Chunk} :
    assemble lines = .ok c ↔
      ∃ program, SpellsProgram lines program ∧
        (Program.constants program).length ≤ maxConstants ∧ c = Program.chunk program := by
  unfold assemble
  rw [assembleFrom_eq_ok_iff rfl (Nat.zero_le _)]
  simp [Program.chunk]

end LoxMachine.Assembly
