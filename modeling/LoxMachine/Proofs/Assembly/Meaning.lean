import LoxMachine.Proofs.Assembly.Emission
import LoxMachine.Proofs.Machine.Step

/-!
# The meaning of a program

A program can be executed as it is spelled, statement by statement on a stack of values, without
code, offsets or a pool: that is `interpret`. Assembling the text and running the machine on the
chunk ends in the same way.

    assemble lines = .ok c → SpellsProgram lines program →
      (interpret [] 0 program).Describes name (run c.toSealed).2     (run_assemble)
-/

namespace LoxMachine

/-! ## Constants of a program -/

theorem Literal.isLox_of_read {text : List Char} {v : Value} (h : Literal.read text = .ok v) :
    v.IsLox := by
  unfold Literal.read Literal.ofToken at h
  split at h
  · cases h
  split at h
  · cases h
    trivial
  split at h
  · cases h
    trivial
  split at h
  · exact Value.isLox_of_toConstant h
  · cases h
  · cases h

namespace Assembly

theorem Spells.isLox {text : List Char} {s : Statement} (h : Spells text s) :
    ∀ v ∈ Program.constants [s], v.IsLox := by
  cases h with
  | @plain _ _ op _ i _ _ _ hi =>
    cases op <;> cases hi <;> nofun
  | constant _ _ _ _ hv =>
    intro w hw
    rw [List.mem_singleton.mp hw]
    exact Literal.isLox_of_read hv

theorem SpellsProgram.isLox {lines : List (List Char)} {program : List Statement}
    (h : SpellsProgram lines program) : ∀ v ∈ Program.constants program, v.IsLox := by
  induction h with
  | nil => nofun
  | skip _ _ ih => exact ih
  | @cons _ _ s program hs _ ih =>
    intro v hv
    rw [← List.singleton_append, Program.constants_append] at hv
    rcases List.mem_append.mp hv with hv | hv
    · exact hs.isLox v hv
    · exact ih v hv

theorem loxPool_chunk {lines : List (List Char)} {program : List Statement}
    (h : SpellsProgram lines program) : (Program.chunk program).LoxPool := by
  intro v hv
  rw [Program.chunk, Program.toList_constants_extend] at hv
  exact h.isLox v (by simpa using hv)

/-! ## Meaning -/

/-- How the execution of a program ends; a failure has the line of its statement. -/
inductive Ending where
  | value (v : Value)
  | notANumber (line : Int)
  | endOfCode (line : Int)
  deriving DecidableEq

/-- Executes a program on a stack, whose top comes first. The line of the statement before is
`last`. -/
def interpret (stack : List Value) (last : Int) : List Statement → Ending
  | [] => .endOfCode last
  | ⟨_, .ret⟩ :: _ => .value (stack.headD .nil)
  | ⟨line, .negate⟩ :: rest => match stack with
    | [] => .notANumber line
    | v :: stack => match v.neg? with
      | none => .notANumber line
      | some w => interpret (w :: stack) line rest
  | ⟨line, .constant v⟩ :: rest => interpret (v :: stack) line rest

theorem interpret_negate (stack : List Value) (last line : Int) (rest : List Statement) :
    interpret stack last (⟨line, .negate⟩ :: rest) = match Machine.negated? stack with
      | none => .notANumber line
      | some s => interpret s line rest := by
  rw [interpret.eq_def]
  cases stack with
  | nil => rfl
  | cons v stack =>
    simp only [Machine.negated?]
    cases v.neg? <;> rfl

/-- A failure of the machine itself, told by its cause, message and frame. -/
def FailsWith (name : Str) (cause : RuntimeCause) (message : String) (line : Int)
    (result : Except Fault Value) : Prop :=
  ∃ e : RuntimeFault, result = .error (.runtime e) ∧ e.cause = cause ∧ e.message = message ∧
    e.frame.function = name ∧ e.frame.line = line

/-- What a run of a machine of the given name yields if it ends so. -/
def Ending.Describes (name : Str) (result : Except Fault Value) : Ending → Prop
  | value v => result = .ok v
  | notANumber line => FailsWith name .notANumber "Operand must be a number." line result
  | endOfCode line => FailsWith name .endOfCode "Unexpected end of bytecode" line result

/-! ## Programs in code -/

/-- What is left of a chunk at offset `o` and index `k` is that of a program, and the line before
is `last`. -/
structure StandsAt (c : Chunk) (o k : Nat) (last : Int) (program : List Statement) : Prop where
  le_size : o ≤ c.size
  cells : c.cells.toList.drop o = Program.cells k program
  constants : c.constants.toList.drop k = Program.constants program
  last : last = if o = 0 then 0 else c.lineOf (o - 1)

theorem standsAt_chunk (program : List Statement) :
    StandsAt (Program.chunk program).toSealed 0 0 0 program := by
  refine ⟨Nat.zero_le _, ?_, ?_, rfl⟩
  · rw [List.drop_zero, Chunk.toSealed_cells, Program.chunk, Program.toList_cells_extend]
    rfl
  · rw [List.drop_zero, Chunk.toSealed_constants, Program.chunk, Program.toList_constants_extend]
    rfl

section
variable {c : Chunk} {o k : Nat} {last line : Int} {rest : List Statement}

namespace StandsAt

theorem eq_size (h : StandsAt c o k last []) : o = c.size := by
  have := List.drop_eq_nil_iff.mp h.cells
  have hsize : c.cells.toList.length = c.size := Array.length_toList
  have := h.le_size
  omega

/-- At the end of the code the frame has the line before. -/
theorem last_eq (h : StandsAt c o k last []) : c.lineOf (min o (c.size - 1)) = last := by
  have ho := h.eq_size
  rw [h.last]
  by_cases h0 : o = 0
  · have hc : c.cells[min o (c.size - 1)]? = none := Array.getElem?_eq_none (by
      show c.size ≤ _
      omega)
    rw [if_pos h0, Chunk.lineOf, hc]
    rfl
  · rw [if_neg h0]
    congr 1
    omega

theorem ret (h : StandsAt c o k last (⟨line, .ret⟩ :: rest)) : c.decode o = .ret := by
  rw [Chunk.decode, (Chunk.cell_of_drop h.cells).1]
  rfl

theorem negate (h : StandsAt c o k last (⟨line, .negate⟩ :: rest)) :
    c.decode o = .negate ∧ c.lineOf o = line ∧ StandsAt c (o + 1) k line rest := by
  obtain ⟨hcell, hrest⟩ := Chunk.cell_of_drop h.cells
  refine ⟨?_, Chunk.lineOf_of_cell hcell, Chunk.lt_size hcell, hrest, h.constants, ?_⟩
  · rw [Chunk.decode, hcell]
    rfl
  · rw [if_neg (by omega), Nat.add_sub_cancel, Chunk.lineOf_of_cell hcell]

/-- The index of a constant fits into its operand, as the pool is no larger than that. -/
theorem constant {v : Value} (hpool : c.constants.size ≤ maxConstants)
    (h : StandsAt c o k last (⟨line, .constant v⟩ :: rest)) :
    c.decode o = .constant (UInt8.ofNat k) v ∧ StandsAt c (o + 2) (k + 1) line rest := by
  have hmax : maxConstants = 256 := rfl
  obtain ⟨htag, hcells⟩ := Chunk.cell_of_drop h.cells
  obtain ⟨hindex, hrest⟩ := Chunk.cell_of_drop hcells
  have hv : c.constants[k]? = some v := by
    rw [← Array.getElem?_toList, ← List.head?_drop, h.constants]
    rfl
  have hk := (Array.getElem?_eq_some_iff.mp hv).1
  have hbyte : (UInt8.ofNat k).toNat = k := UInt8.toNat_ofNat_of_lt' (by
    show k < 256
    omega)
  refine ⟨?_, Chunk.lt_size hindex, hrest, ?_, ?_⟩
  · simp only [Chunk.decode, htag, Opcode.ofByte?_tag, hindex, hbyte, hv]
  · rw [← List.drop_drop, h.constants]
    rfl
  · rw [if_neg (by omega), show o + 2 - 1 = o + 1 by omega, Chunk.lineOf_of_cell hindex]

end StandsAt

/-! ## Simulation -/

theorem failsWith_failure {name : Str} {m : Machine} (hname : m.name = name)
    (cause : RuntimeCause) (hline : c.lineOf (min o (c.size - 1)) = line) :
    FailsWith name cause cause.message line (.error (m.failure c o cause)) :=
  ⟨_, congrArg Except.error (Machine.failure_eq m c o cause), rfl, rfl, hname, hline⟩

/-- A machine that stands before a program, inside of the code of any chunk, runs it as it is
interpreted. -/
theorem describes_run (hp : c.LoxPool) (hpool : c.constants.size ≤ maxConstants)
    {program : List Statement} {m : Machine} (h : StandsAt c o k last program)
    (ho : m.offset = o) (hh : m.halted = false) :
    (interpret m.stack last program).Describes m.name (m.run c).2 := by
  induction program generalizing m o k last with
  | nil =>
    have hstep := Machine.step_eq hp ho hh
    rw [Chunk.decode_eq_ended_iff.mpr (Nat.le_of_eq h.eq_size.symm)] at hstep
    rw [Machine.run_of_error hstep]
    exact failsWith_failure rfl .endOfCode h.last_eq
  | cons s rest ih =>
    obtain ⟨line, i⟩ := s
    have hstep := Machine.step_eq hp ho hh
    cases i with
    | ret =>
      rw [h.ret] at hstep
      rw [Machine.run_of_halt hstep]
      rfl
    | negate =>
      obtain ⟨hdecode, hline, hrest⟩ := h.negate
      have hlt : o < c.size := Chunk.lt_size_of_decode (by rw [hdecode]; nofun)
      rw [← Nat.min_eq_left (show o ≤ c.size - 1 by omega)] at hline
      rw [hdecode] at hstep
      rw [interpret_negate]
      cases hs : Machine.negated? m.stack with
      | none =>
        simp only [hs] at hstep
        rw [Machine.run_of_error hstep]
        exact failsWith_failure rfl .notANumber hline
      | some s =>
        simp only [hs] at hstep
        rw [Machine.run_of_next hstep]
        have := ih (m := (((m.traced c o (.plain .negate)).moveTo (o + 1)).withStack s)) hrest rfl
          (by simpa using hh)
        simpa using this
    | constant v =>
      obtain ⟨hdecode, hrest⟩ := h.constant hpool
      rw [hdecode] at hstep
      rw [Machine.run_of_next hstep]
      have := ih (m := ((m.traced c o (.constant (UInt8.ofNat k) v.shown)).moveTo
        (o + 2)).withStack (v :: m.stack)) hrest rfl (by simpa using hh)
      simpa [interpret] using this

end

/-- **Meaning.** A text that is assembled spells a program, and a fresh machine runs the chunk as
the program is interpreted: to the same value, or to the same failure at the same line. -/
theorem run_assemble {lines : List (List Char)} {c : Chunk} (h : assemble lines = .ok c)
    (name : Str) (tracing : Bool) :
    (∃ program, SpellsProgram lines program) ∧
      ∀ program, SpellsProgram lines program →
        (interpret [] 0 program).Describes name
          (({ name, tracing } : Machine).run c.toSealed).2 := by
  obtain ⟨program, hspells, hsize, rfl⟩ := assemble_eq_ok_iff.mp h
  refine ⟨⟨program, hspells⟩, ?_⟩
  intro program' hspells'
  rw [hspells'.unique hspells]
  have hpool : (Program.chunk program).toSealed.constants.size ≤ maxConstants := by
    rw [Chunk.toSealed_constants, Program.chunk, Program.size_constants_extend]
    simpa using hsize
  exact describes_run (m := { name, tracing }) (loxPool_chunk hspells).toSealed hpool
    (standsAt_chunk program) rfl rfl

/-- The sign of nil is changed on line 8. -/
theorem run_assemble_nil_negated :
    let lines := ["7 op_constant nil # the operand".toList, [], " 8 OP_NEGATE".toList]
    let c : Chunk := { cells := #[⟨2, 7⟩, ⟨0, 7⟩, ⟨1, 8⟩], constants := #[.nil] }
    assemble lines = .ok c ∧ (∃ program, SpellsProgram lines program) ∧
      ∀ program, SpellsProgram lines program →
        (interpret [] 0 program).Describes "<script>" (({} : Machine).run c.toSealed).2 :=
  have h : assemble ["7 op_constant nil # the operand".toList, [], " 8 OP_NEGATE".toList] = .ok
      { cells := #[⟨2, 7⟩, ⟨0, 7⟩, ⟨1, 8⟩], constants := #[.nil] } := by decide
  ⟨h, run_assemble h _ _⟩

end Assembly
end LoxMachine
