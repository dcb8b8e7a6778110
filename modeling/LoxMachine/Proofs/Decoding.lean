import LoxMachine.Listing

/-!
# Decoding

Machine and listing both look at the bytes of a chunk, each in its own way. `Chunk.decode` says
once what stands at an offset, whatever the bytes are, and the queries of a chunk and the entries
of a listing are put in its terms:

    c.cells[o]? = some cell → c.byteAt o = .ok cell.byte            (byteAt_of_cell)
    c.LoxPool → Listing.entry c o = (c.decode o).body …             (entry_eq)
-/

namespace LoxMachine

/-- What stands at an offset of some code. -/
inductive Decoded where
  /-- The code is over. -/
  | ended
  | unknown (byte : UInt8)
  | ret
  | negate
  /-- A constant instruction whose operand the end of the code cuts off. -/
  | cutOff
  /-- A constant instruction whose index is not in the pool. -/
  | badIndex (index : UInt8)
  | constant (index : UInt8) (v : Value)
  deriving DecidableEq

namespace Chunk

def decode (c : Chunk) (o : Nat) : Decoded :=
  match c.cells[o]? with
  | none => .ended
  | some cell => match Opcode.ofByte? cell.byte with
    | none => .unknown cell.byte
    | some .ret => .ret
    | some .negate => .negate
    | some .constant => match c.cells[o + 1]? with
      | none => .cutOff
      | some operand => match c.constants[operand.byte.toNat]? with
        | none => .badIndex operand.byte
        | some v => .constant operand.byte v

/-- The line of a code byte; past the end of the code it is 0. -/
def lineOf (c : Chunk) (o : Nat) : Int := (c.cells[o]?).elim 0 (·.line)

/-- All constants are values that programs compute with. -/
def LoxPool (c : Chunk) : Prop := ∀ v ∈ c.constants.toList, v.IsLox

instance (c : Chunk) : Decidable c.LoxPool := List.decidableBAll Value.IsLox _

/-! ## Sealing -/

@[simp] theorem toSealed_cells (c : Chunk) : c.toSealed.cells = c.cells := rfl

@[simp] theorem toSealed_constants (c : Chunk) : c.toSealed.constants = c.constants := rfl

theorem LoxPool.toSealed {c : Chunk} (h : c.LoxPool) : c.toSealed.LoxPool := h

/-! ## Queries -/

theorem lt_size {c : Chunk} {o : Nat} {cell : Cell} (h : c.cells[o]? = some cell) : o < c.size :=
  (Array.getElem?_eq_some_iff.mp h).1

theorem size_le {c : Chunk} {o : Nat} (h : c.cells[o]? = none) : c.size ≤ o :=
  Array.getElem?_eq_none_iff.mp h

theorem exists_cell {c : Chunk} {o : Nat} (h : o < c.size) : ∃ cell, c.cells[o]? = some cell :=
  ⟨_, Array.getElem?_eq_getElem h⟩

theorem cell_of_drop {c : Chunk} {o : Nat} {cell : Cell} {l : List Cell}
    (h : c.cells.toList.drop o = cell :: l) :
    c.cells[o]? = some cell ∧ c.cells.toList.drop (o + 1) = l := by
  constructor
  · rw [← Array.getElem?_toList, ← List.head?_drop, h]
    rfl
  · rw [← List.drop_drop, h]
    rfl

theorem drop_of_cell {c : Chunk} {o : Nat} {cell : Cell} (h : c.cells[o]? = some cell) :
    c.cells.toList.drop o = cell :: c.cells.toList.drop (o + 1) := by
  obtain ⟨hlt, rfl⟩ := Array.getElem?_eq_some_iff.mp h
  exact List.drop_eq_getElem_cons (by simpa using hlt)

theorem byteAt_of_cell {c : Chunk} {o : Nat} {cell : Cell} (h : c.cells[o]? = some cell) :
    c.byteAt o = .ok cell.byte := by
  rw [byteAt, cellAt_ofNat h]
  rfl

theorem lineOf_of_cell {c : Chunk} {o : Nat} {cell : Cell} (h : c.cells[o]? = some cell) :
    c.lineOf o = cell.line := by
  rw [lineOf, h]
  rfl

theorem code_of_cell {c : Chunk} {o : Nat} {cell : Cell} (h : c.cells[o]? = some cell) :
    c.code[o]? = some cell.byte := by
  simp [code, h]

theorem lines_of_lt {c : Chunk} {o : Nat} (h : o < c.size) : c.lines[o]? = some (c.lineOf o) := by
  obtain ⟨cell, hc⟩ := exists_cell h
  simp [lines, hc, lineOf_of_cell hc]

theorem lineAt_of_lt {c : Chunk} {o : Nat} (h : o < c.size) : c.lineAt o = .ok (c.lineOf o) := by
  obtain ⟨cell, hc⟩ := exists_cell h
  rw [lineAt, cellAt_ofNat hc, lineOf_of_cell hc]
  rfl

theorem opcodeAt_of_cell {c : Chunk} {o : Nat} {cell : Cell} (h : c.cells[o]? = some cell) :
    c.opcodeAt o = match Opcode.ofByte? cell.byte with
      | some op => .ok op
      | none => .error (.bytecode (.unknownOpcode (.int cell.byte.toNat) (some o))) := by
  rw [opcodeAt, byteAt_of_cell h]
  simp only [bind, Except.bind]
  cases Opcode.ofByte? cell.byte <;> rfl

theorem constantAt_ofNat (c : Chunk) (i : Nat) :
    c.constantAt i = match c.constants[i]? with
      | some v => .ok v
      | none => .error (.bytecode (.constantIndex i c.constants.size)) := by
  have h : ¬ (i : Int) < 0 := by omega
  cases hv : c.constants[i]? <;> simp [constantAt, h, hv]

theorem decode_eq_ended_iff {c : Chunk} {o : Nat} : c.decode o = .ended ↔ c.size ≤ o := by
  unfold decode
  cases h : c.cells[o]? with
  | none => simpa using size_le h
  | some cell =>
    have hlt := lt_size h
    constructor
    · intro hd
      simp only at hd
      split at hd <;> try contradiction
      split at hd <;> try contradiction
      split at hd <;> contradiction
    · intro hle
      omega

/-- What a constant instruction pushes comes from the pool. -/
theorem mem_constants_of_decode {c : Chunk} {o : Nat} {i : UInt8} {v : Value}
    (h : c.decode o = .constant i v) : v ∈ c.constants.toList := by
  unfold decode at h
  split at h <;> try contradiction
  split at h <;> try contradiction
  split at h <;> try contradiction
  split at h <;> try contradiction
  next hv =>
  cases h
  exact Array.mem_toList_iff.mpr (Array.mem_of_getElem? hv)

theorem lt_size_of_decode {c : Chunk} {o : Nat} (h : c.decode o ≠ .ended) : o < c.size := by
  rw [ne_eq, decode_eq_ended_iff] at h
  omega

end Chunk

/-! ## Entries -/

/-- The displayed text of a value that has one. -/
def Value.shown (v : Value) : Str := v.display?.getD []

theorem Value.display_of_isLox {v : Value} (h : v.IsLox) : v.display = .ok v.shown := by
  unfold Value.display Value.shown
  obtain ⟨text, ht⟩ := Option.isSome_iff_exists.mp (Value.display?_isSome_of_isLox h)
  rw [ht]
  rfl

namespace Listing

/-- The opcode of what an entry shows, if that is an instruction. -/
def Body.opcode? : Body → Option Opcode
  | illegal => none
  | plain op => some op
  | constant .. => some .constant

theorem Body.opcode?_eq_none_iff {b : Body} : b.opcode? = none ↔ b = .illegal := by
  cases b <;> simp [opcode?]

end Listing

namespace Decoded

/-- How a listing shows what stands somewhere, or why it cannot, for a pool of the given size. -/
def body (pool : Nat) : Decoded → Except Fault Listing.Body
  | ended => .error .offsetRange
  | badIndex i => .error (.bytecode (.constantIndex i.toNat pool))
  | unknown _ | cutOff => .ok .illegal
  | ret => .ok (.plain .ret)
  | negate => .ok (.plain .negate)
  | constant i v => .ok (.constant i v.shown)

/-- The same for any pool: what it holds may have no displayed text. -/
def listed (pool : Nat) : Decoded → Except Fault Listing.Body
  | constant i v => v.display.map (.constant i ·)
  | d => d.body pool

theorem exists_display_of_listed {pool : Nat} {i : UInt8} {v : Value} {b : Listing.Body}
    (h : (constant i v).listed pool = .ok b) :
    ∃ text, v.display = .ok text ∧ b = .constant i text := by
  rw [listed] at h
  cases hv : v.display with
  | error f =>
    rw [hv] at h
    cases h
  | ok text =>
    rw [hv] at h
    exact ⟨text, rfl, (Except.ok.inj h).symm⟩

/-- The opcode of an instruction whose operands are there, in the pool or not. -/
def opcode? : Decoded → Option Opcode
  | ended | unknown _ | cutOff => none
  | ret => some .ret
  | negate => some .negate
  | badIndex _ | constant .. => some .constant

/-- The index of a constant instruction whose operand is there, in the pool or not. -/
def index? : Decoded → Option UInt8
  | ended | unknown _ | ret | negate | cutOff => none
  | badIndex i | constant i _ => some i

/-- Where a listing goes on after what stands at `o`, in code of the given size. -/
def next (size o : Nat) : Decoded → Nat
  | ended => o
  | unknown _ | cutOff => size
  | ret | negate => o + 1
  | badIndex _ | constant .. => o + 2

end Decoded

namespace Chunk

/-- An instruction's tag stands where the instruction does. -/
theorem tag_of_decode {c : Chunk} {o : Nat} {op : Opcode} (h : (c.decode o).opcode? = some op) :
    c.cells[o]? = some ⟨op.tag, c.lineOf o⟩ := by
  unfold decode at h
  split at h
  · cases h
  · next cell hc =>
    suffices hop : Opcode.ofByte? cell.byte = some op by
      rw [lineOf_of_cell hc, Opcode.ofByte?_eq_some_iff.mp hop, hc]
    split at h
    · cases h
    · next hop =>
      cases h
      exact hop
    · next hop =>
      cases h
      exact hop
    · next hop =>
      rw [hop]
      split at h
      · cases h
      · split at h <;> cases h <;> rfl

theorem operand_of_decode {c : Chunk} {o : Nat} {i : UInt8} (h : (c.decode o).index? = some i) :
    c.cells[o + 1]? = some ⟨i, c.lineOf (o + 1)⟩ := by
  unfold decode at h
  split at h <;> try contradiction
  split at h <;> try contradiction
  split at h <;> try contradiction
  next operand hc =>
  split at h <;> cases h <;> rw [lineOf_of_cell hc, hc]

theorem cell_of_unknown {c : Chunk} {o : Nat} {byte : UInt8} (h : c.decode o = .unknown byte) :
    c.cells[o]? = some ⟨byte, c.lineOf o⟩ := by
  unfold decode at h
  split at h <;> try contradiction
  next cell hc =>
  split at h <;> try contradiction
  · cases h
    rw [lineOf_of_cell hc, hc]
  · split at h <;> try contradiction
    split at h <;> contradiction

theorem opcodeAt_of_decode {c : Chunk} {o : Nat} {op : Opcode}
    (h : (c.decode o).opcode? = some op) : c.opcodeAt o = .ok op := by
  rw [opcodeAt_of_cell (tag_of_decode h), Opcode.ofByte?_tag]

theorem listed_decode {c : Chunk} (hp : c.LoxPool) (o : Nat) :
    (c.decode o).listed c.constants.size = (c.decode o).body c.constants.size := by
  cases hd : c.decode o with
  | constant i v =>
    have hv : v.IsLox := hp v (mem_constants_of_decode hd)
    rw [Decoded.listed, Value.display_of_isLox hv]
    rfl
  | ended | unknown _ | ret | negate | cutOff | badIndex _ => rfl

/-- No instruction leads out of the code. -/
theorem next_le_size {c : Chunk} {o : Nat} (h : o ≤ c.size) :
    (c.decode o).next c.size o ≤ c.size := by
  unfold decode
  cases hc : c.cells[o]? with
  | none => exact h
  | some cell =>
    have hlt := lt_size hc
    dsimp only
    cases Opcode.ofByte? cell.byte with
    | none => exact Nat.le_refl _
    | some op =>
      cases op with
      | ret | negate => exact hlt
      | constant =>
        dsimp only
        cases hoperand : c.cells[o + 1]? with
        | none => exact Nat.le_refl _
        | some operand =>
          have hlt' := lt_size hoperand
          dsimp only
          cases c.constants[operand.byte.toNat]? <;> exact hlt'

/-- The line that a listing shows at an offset. -/
def shownLine (c : Chunk) (o : Nat) : Option Int :=
  if 0 < o ∧ c.lineOf o = c.lineOf (o - 1) then none else some (c.lineOf o)

theorem shownLine_eq {c : Chunk} {o : Nat} (h : o < c.size) :
    Listing.shownLine c o = .ok (c.shownLine o) := by
  unfold Listing.shownLine shownLine
  rw [lineAt_of_lt h]
  simp only [bind, Except.bind, pure, Except.pure]
  by_cases h0 : 0 < o
  · have hc : (o : Int) - 1 = (o - 1 : Nat) := by omega
    rw [if_pos (by omega), hc, lineAt_of_lt (by omega)]
    by_cases hl : c.lineOf o = c.lineOf (o - 1) <;> simp [h0, hl]
  · rw [if_neg (by omega), if_neg (by omega)]

theorem shownLine_of_size_le {c : Chunk} {o : Nat} (h : c.size ≤ o) :
    Listing.shownLine c o = .error .offsetRange := by
  have h0 : ¬ (o : Int) < 0 := by omega
  have hn : c.cells[o]? = none := Array.getElem?_eq_none h
  simp [Listing.shownLine, lineAt, cellAt, h0, hn, bind, Except.bind]

end Chunk

namespace Listing

theorem constantBody_of_cell {c : Chunk} {o : Nat} {operand : Cell}
    (h : c.cells[o + 1]? = some operand) :
    constantBody c o = match c.constants[operand.byte.toNat]? with
      | some v => v.display.map (.constant operand.byte ·)
      | none => .error (.bytecode (.constantIndex operand.byte.toNat c.constants.size)) := by
  unfold constantBody
  rw [show (o : Int) + 1 = (o + 1 : Nat) by omega, Chunk.byteAt_of_cell h]
  simp only [bind, Except.bind, pure, Except.pure, Chunk.constantAt_ofNat]
  cases hv : c.constants[operand.byte.toNat]? with
  | none => rfl
  | some v => cases v.display <;> rfl

/-- Whatever the pool holds, an entry is there if what it has to show has a displayed text. -/
theorem entry_eq_listed (c : Chunk) (o : Nat) :
    entry c o = ((c.decode o).listed c.constants.size).map fun b =>
      ⟨o, c.shownLine o, b, (c.decode o).next c.size o⟩ := by
  unfold entry
  cases hc : c.cells[o]? with
  | none =>
    rw [Chunk.shownLine_of_size_le (Chunk.size_le hc),
      Chunk.decode_eq_ended_iff.mpr (Chunk.size_le hc)]
    rfl
  | some cell =>
    have ho := Chunk.lt_size hc
    rw [Chunk.shownLine_eq ho, Chunk.byteAt_of_cell hc]
    simp only [bind, Except.bind, pure, Except.pure, Chunk.decode, hc]
    cases hop : Opcode.ofByte? cell.byte with
    | none => rfl
    | some op =>
      have hw : op.width = 1 + op.operandCount := rfl
      dsimp only
      cases op with
      | ret | negate =>
        simp only [Opcode.operandCount] at hw
        rw [if_neg (by omega), if_neg (by decide), hw]
        rfl
      | constant =>
        simp only [Opcode.operandCount] at hw
        dsimp only
        cases h1 : c.cells[o + 1]? with
        | none =>
          have := Chunk.size_le h1
          rw [if_pos (by omega)]
          rfl
        | some operand =>
          have := Chunk.lt_size h1
          rw [if_neg (by omega), if_pos rfl, constantBody_of_cell h1]
          cases hv : c.constants[operand.byte.toNat]? with
          | none =>
            simp only [hv]
            rfl
          | some v =>
            simp only [hv, Decoded.listed]
            cases v.display <;> rfl

/-- **Entries.** A listing shows each way to decode in its own way. -/
theorem entry_eq {c : Chunk} (hp : c.LoxPool) (o : Nat) :
    entry c o = ((c.decode o).body c.constants.size).map fun b =>
      ⟨o, c.shownLine o, b, (c.decode o).next c.size o⟩ := by
  rw [entry_eq_listed, Chunk.listed_decode hp]

/-- Inside of the code, an entry can only lack its constant. -/
theorem badIndex_of_entry {c : Chunk} {o : Nat} {f : Fault} (hp : c.LoxPool) (hlt : o < c.size)
    (h : entry c o = .error f) :
    ∃ i, c.decode o = .badIndex i ∧ f = .bytecode (.constantIndex i.toNat c.constants.size) := by
  rw [entry_eq hp] at h
  cases hd : c.decode o with
  | ended =>
    have := Chunk.decode_eq_ended_iff.mp hd
    omega
  | badIndex i =>
    rw [hd] at h
    cases h
    exact ⟨i, rfl, rfl⟩
  | unknown _ | cutOff | ret | negate | constant _ _ =>
    rw [hd] at h
    cases h

end Listing
end LoxMachine
