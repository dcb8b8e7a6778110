import LoxMachine.Proofs.Assembly.Meaning
import LoxMachine.Proofs.Chunk.Instructions

/-!
# Assembled code is well formed

The code of an assembled text falls into whole instructions, one for each line with a statement,
and each of its constants is the operand of one of them, in order. So a listing shows all of it.

    assemble lines = .ok c →
      ∃ is, c.WellFormed is ∧ is.length = lines.countP HasStatement   (wellFormed_of_assemble)
-/

namespace LoxMachine

/-- Code of the instructions `is`, which use the constants of the pool one after the other. -/
structure Chunk.WellFormed (c : Chunk) (is : List Block) : Prop where
  lengths : c.lines.length = c.code.length
  instructions : instructions? c.cells.toList = some is
  width : Block.totalWidth is = c.code.length
  pool : c.constants.size ≤ maxConstants
  operands : ((is.filter (·.opcode = .constant)).flatMap fun b =>
    b.operands.map (·.byte.toNat)) = List.range c.constants.size
  constants : c.LoxPool
  /-- Operands have the line of their tag. -/
  operandLines : ∀ b ∈ is, ∀ operand ∈ b.operands, operand.line = b.line
  isOpen : c.isSealed = false
  listed : ∀ name, ∃ es, Listing.entries c = .ok es ∧
    c.listing name = .ok (Listing.render name es) ∧ es.length = is.length ∧
      ∀ e ∈ es, e.body ≠ .illegal

namespace Assembly

open Text

/-! ## Instructions of a program -/

namespace Program

/-- The instructions of a program whose first constant gets the index `k`. -/
def blocks (k : Nat) : List Statement → List Block
  | [] => []
  | ⟨line, .ret⟩ :: rest => ⟨.ret, line, []⟩ :: blocks k rest
  | ⟨line, .negate⟩ :: rest => ⟨.negate, line, []⟩ :: blocks k rest
  | ⟨line, .constant _⟩ :: rest =>
    ⟨.constant, line, [⟨UInt8.ofNat k, line⟩]⟩ :: blocks (k + 1) rest

theorem flatMap_blocks (k : Nat) (p : List Statement) :
    (blocks k p).flatMap Block.cells = cells k p := by
  induction p generalizing k with
  | nil => rfl
  | cons s rest ih =>
    obtain ⟨line, i⟩ := s
    cases i with
    | ret | negate => exact congrArg (_ :: ·) (ih k)
    | constant v => exact congrArg (_ :: _ :: ·) (ih (k + 1))

theorem length_blocks (k : Nat) (p : List Statement) : (blocks k p).length = p.length := by
  induction p generalizing k with
  | nil => rfl
  | cons s rest ih =>
    obtain ⟨line, i⟩ := s
    cases i with
    | ret | negate => exact congrArg (· + 1) (ih k)
    | constant v => exact congrArg (· + 1) (ih (k + 1))

/-- What holds of each kind of instruction, for any index that a constant may get, holds of all. -/
theorem forall_mem_blocks {P : Block → Prop} (hret : ∀ line, P ⟨.ret, line, []⟩)
    (hnegate : ∀ line, P ⟨.negate, line, []⟩) {k : Nat} {p : List Statement}
    (hconstant : ∀ line i, i < k + (constants p).length →
      P ⟨.constant, line, [⟨UInt8.ofNat i, line⟩]⟩) : ∀ b ∈ blocks k p, P b := by
  induction p generalizing k with
  | nil => nofun
  | cons s rest ih =>
    obtain ⟨line, i⟩ := s
    cases i with
    | ret => exact List.forall_mem_cons.mpr ⟨hret line, ih hconstant⟩
    | negate => exact List.forall_mem_cons.mpr ⟨hnegate line, ih hconstant⟩
    | constant v =>
      simp only [constants, List.length_cons] at hconstant
      refine List.forall_mem_cons.mpr ⟨hconstant line k (by omega), ih ?_⟩
      exact fun line i hi => hconstant line i (by omega)

theorem isWhole_of_mem_blocks (k : Nat) (p : List Statement) : ∀ b ∈ blocks k p, b.IsWhole :=
  forall_mem_blocks (fun _ => rfl) (fun _ => rfl) fun _ _ _ => rfl

theorem line_of_mem_blocks (k : Nat) (p : List Statement) :
    ∀ b ∈ blocks k p, ∀ operand ∈ b.operands, operand.line = b.line := by
  refine forall_mem_blocks (fun _ => nofun) (fun _ => nofun) ?_
  intro line i _ operand hoperand
  rw [List.mem_singleton.mp hoperand]

theorem toNat_index {i : Nat} (h : i < maxConstants) : (UInt8.ofNat i).toNat = i :=
  UInt8.toNat_ofNat_of_lt' h

theorem inPool_of_mem_blocks {k : Nat} {p : List Statement} {pool : Array Value}
    (h : k + (constants p).length = pool.size) (hmax : pool.size ≤ maxConstants) :
    ∀ b ∈ blocks k p, b.InPool pool := by
  refine forall_mem_blocks (fun _ => nofun) (fun _ => nofun) ?_
  intro line i hi operand hoperand
  rw [List.mem_singleton.mp hoperand, toNat_index (by omega)]
  omega

/-- The indexes of the constants are counted up. -/
theorem operands_blocks {k : Nat} {p : List Statement}
    (h : k + (constants p).length ≤ maxConstants) :
    (((blocks k p).filter (·.opcode = .constant)).flatMap fun b =>
      b.operands.map (·.byte.toNat)) = List.range' k (constants p).length := by
  induction p generalizing k with
  | nil => rfl
  | cons s rest ih =>
    obtain ⟨line, i⟩ := s
    cases i with
    | ret | negate => exact ih h
    | constant v =>
      simp only [constants, List.length_cons] at h ⊢
      rw [List.range'_succ, ← ih (by omega)]
      exact congrArg (· :: _) (toNat_index (by omega))

end Program

/-! ## Lines with a statement -/

/-- A line is not blank before its comment. -/
def HasStatement (raw : List Char) : Prop := strip (beforeComment raw) ≠ []

instance : DecidablePred HasStatement := fun _ => inferInstanceAs (Decidable (_ ≠ _))

theorem SpellsProgram.length_eq {lines : List (List Char)} {program : List Statement}
    (h : SpellsProgram lines program) :
    program.length = lines.countP HasStatement := by
  induction h with
  | nil => rfl
  | @skip raw _ _ hraw _ ih =>
    have hnot : ¬ HasStatement raw := fun h => h (strip_eq_nil_iff.mpr hraw)
    rw [List.countP_cons_of_neg (by simpa using hnot), ih]
  | @cons raw _ _ _ hraw _ ih =>
    have hhas : HasStatement raw := fun h => hraw.not_blanks (strip_eq_nil_iff.mp h)
    rw [List.countP_cons_of_pos (by simpa using hhas), List.length_cons, ih]

/-! ## Well-formed chunks -/

theorem wellFormed_chunk {lines : List (List Char)} {program : List Statement}
    (h : SpellsProgram lines program) (hpool : (Program.constants program).length ≤ maxConstants) :
    (Program.chunk program).WellFormed (Program.blocks 0 program) := by
  have hcells : (Program.chunk program).cells.toList =
      (Program.blocks 0 program).flatMap Block.cells := by
    rw [Program.flatMap_blocks, Program.chunk, Program.toList_cells_extend]
    rfl
  have hconstants :
      (Program.chunk program).constants.size = (Program.constants program).length := by
    rw [Program.chunk, Program.size_constants_extend]
    exact Nat.zero_add _
  have hwhole := Program.isWhole_of_mem_blocks 0 program
  have hread := instructions?_eq_some_iff.mpr ⟨hcells, hwhole⟩
  have hlist := Listing.entriesFrom_of_blocks (o := 0) (loxPool_chunk h) (Nat.zero_le _) hcells
    hwhole (Program.inPool_of_mem_blocks (by rw [hconstants, Nat.zero_add]) (by rwa [hconstants]))
  obtain ⟨es, hes, hoffsets, hlegal⟩ := hlist
  have hcount : es.length = (Program.blocks 0 program).length := by
    have hlength := congrArg List.length hoffsets
    rwa [List.length_map, List.length_map, Block.length_offsets] at hlength
  refine ⟨?_, hread, ?_, ?_, ?_, loxPool_chunk h, Program.line_of_mem_blocks 0 program, rfl, ?_⟩
  · rw [Chunk.length_lines, Chunk.length_code]
  · rw [totalWidth_of_instructions? hread, Chunk.length_code]
    exact Array.length_toList
  · rwa [hconstants]
  · rw [Program.operands_blocks (by rwa [Nat.zero_add]), hconstants, List.range_eq_range']
  · intro name
    have hentries : Listing.entries (Program.chunk program) = .ok es := hes
    refine ⟨es, hentries, ?_, hcount, hlegal⟩
    rw [Chunk.listing, hentries]
    rfl

/-- **Well-formed code.** An assembled text has one whole instruction for each line with a
statement, each constant is used once and in order, and a listing shows all of it. -/
theorem wellFormed_of_assemble {lines : List (List Char)} {c : Chunk}
    (h : assemble lines = .ok c) :
    ∃ is, c.WellFormed is ∧ is.length = lines.countP HasStatement := by
  obtain ⟨program, hspells, hpool, rfl⟩ := assemble_eq_ok_iff.mp h
  refine ⟨Program.blocks 0 program, wellFormed_chunk hspells hpool, ?_⟩
  rw [Program.length_blocks, hspells.length_eq]

/-- Operands that look like tags: the second one is that of a change of sign. -/
theorem wellFormed_of_assemble_two_constants :
    let lines := ["7 op_constant nil # the operand".toList, [], "# none".toList,
      "-8 OP_CONSTANT '#'".toList, " 8 OP_NEGATE".toList]
    let c : Chunk := { cells := #[⟨2, 7⟩, ⟨0, 7⟩, ⟨2, -8⟩, ⟨1, -8⟩, ⟨1, 8⟩],
                       constants := #[.nil, .str "#"] }
    assemble lines = .ok c ∧
      ∃ is, c.WellFormed is ∧ is.length = lines.countP HasStatement :=
  have h : assemble ["7 op_constant nil # the operand".toList, [], "# none".toList,
      "-8 OP_CONSTANT '#'".toList, " 8 OP_NEGATE".toList] = .ok
      { cells := #[⟨2, 7⟩, ⟨0, 7⟩, ⟨2, -8⟩, ⟨1, -8⟩, ⟨1, 8⟩], constants := #[.nil, .str "#"] } := by
    decide +kernel
  ⟨h, wellFormed_of_assemble h⟩

end Assembly
end LoxMachine
