import LoxMachine.Proofs.Listing.Reached

/-!
# Instructions in code

Read from its start, code falls into instructions, each a tag and as many operands as its opcode
takes. `instructions?` reads all of them; it finds none if a byte is no tag or if the end of the
code cuts an instruction off.

    instructions? cells = some is ↔
      cells = is.flatMap Block.cells ∧ ∀ b ∈ is, b.IsWhole        (instructions?_eq_some_iff)

Code that is read so, with indexes that are in the pool, has a listing without illegal entries.
-/

namespace LoxMachine

/-- An instruction as it stands in code. -/
structure Block where
  opcode : Opcode
  line : Int
  operands : List Cell
  deriving DecidableEq

namespace Block

def cells (b : Block) : List Cell := ⟨b.opcode.tag, b.line⟩ :: b.operands

/-- There are as many operands as the opcode takes. -/
def IsWhole (b : Block) : Prop := b.operands.length = b.opcode.operandCount

/-- The operands are indexes of a pool. -/
def InPool (b : Block) (pool : Array Value) : Prop :=
  ∀ operand ∈ b.operands, operand.byte.toNat < pool.size

/-- How far some instructions reach. -/
def totalWidth : List Block → Nat
  | [] => 0
  | b :: is => b.opcode.width + totalWidth is

/-- Where the tags of some instructions are, the first of which is at `o`. -/
def offsets (o : Nat) : List Block → List Nat
  | [] => []
  | b :: is => o :: offsets (o + b.opcode.width) is

theorem length_offsets (o : Nat) (is : List Block) : (offsets o is).length = is.length := by
  induction is generalizing o with
  | nil => rfl
  | cons b is ih => rw [offsets, List.length_cons, List.length_cons, ih]

theorem IsWhole.length_cells {b : Block} (h : b.IsWhole) : b.cells.length = b.opcode.width := by
  show b.operands.length + 1 = 1 + b.opcode.operandCount
  rw [h, Nat.add_comm]

section
variable {cells rest : List Cell} {o : Nat} {b : Block}

/-- What is left of code after a whole instruction. -/
theorem IsWhole.drop_eq (hb : b.IsWhole) (h : cells.drop o = b.cells ++ rest) :
    cells.drop (o + b.opcode.width) = rest := by
  rw [← List.drop_drop, h, ← hb.length_cells, List.drop_left]

theorem IsWhole.add_width_le (hb : b.IsWhole) (h : cells.drop o = b.cells ++ rest) :
    o + b.opcode.width ≤ cells.length := by
  have hwidth := b.opcode.width_pos
  have hlen := congrArg List.length h
  rw [List.length_drop, List.length_append, hb.length_cells] at hlen
  omega

end

end Block

/-! ## Reading -/

/-- All instructions of some code. -/
def instructions? : List Cell → Option (List Block)
  | [] => some []
  | tag :: rest =>
    match Opcode.ofByte? tag.byte with
    | none => none
    | some op =>
      if rest.length < op.operandCount then none
      else (instructions? (rest.drop op.operandCount)).map
        (⟨op, tag.line, rest.take op.operandCount⟩ :: ·)
termination_by cells => cells.length
decreasing_by
  rw [List.length_drop, List.length_cons]
  omega

theorem instructions?_cons {b : Block} (h : b.IsWhole) (rest : List Cell) :
    instructions? (b.cells ++ rest) = (instructions? rest).map (b :: ·) := by
  have hlen : ¬ (b.operands ++ rest).length < b.opcode.operandCount := by
    rw [List.length_append, h]
    omega
  show instructions? (⟨b.opcode.tag, b.line⟩ :: (b.operands ++ rest)) = _
  rw [instructions?, Opcode.ofByte?_tag]
  dsimp only
  rw [if_neg hlen, ← h, List.drop_left, List.take_left]

theorem instructions?_flatMap {is : List Block} (h : ∀ b ∈ is, b.IsWhole) :
    instructions? (is.flatMap Block.cells) = some is := by
  induction is with
  | nil =>
    rw [List.flatMap_nil, instructions?]
  | cons b is ih =>
    rw [List.flatMap_cons, instructions?_cons (h b List.mem_cons_self),
      ih fun b' hb' => h b' (List.mem_cons_of_mem b hb')]
    rfl

/-- Instructions are read as the code is made of them. -/
theorem instructions?_eq_some_iff {cells : List Cell} {is : List Block} :
    instructions? cells = some is ↔ cells = is.flatMap Block.cells ∧ ∀ b ∈ is, b.IsWhole := by
  constructor
  · intro h
    induction cells using instructions?.induct generalizing is with
    | case1 =>
      rw [instructions?] at h
      cases h
      exact ⟨rfl, nofun⟩
    | case2 tag rest hop =>
      rw [instructions?, hop] at h
      cases h
    | case3 tag rest op hop hlt =>
      rw [instructions?, hop] at h
      dsimp only at h
      rw [if_pos hlt] at h
      cases h
    | case4 tag rest op hop hlt ih =>
      rw [instructions?, hop] at h
      dsimp only at h
      rw [if_neg hlt] at h
      obtain ⟨is', his', rfl⟩ := Option.map_eq_some_iff.mp h
      obtain ⟨hrest, hwhole⟩ := ih his'
      have htag : op.tag = tag.byte := Opcode.ofByte?_eq_some_iff.mp hop
      constructor
      · rw [List.flatMap_cons, ← hrest]
        show tag :: rest = ⟨op.tag, tag.line⟩ :: (rest.take _ ++ rest.drop _)
        rw [htag, List.take_append_drop]
      · intro b hb
        rcases List.mem_cons.mp hb with rfl | hb
        · show (rest.take op.operandCount).length = op.operandCount
          rw [List.length_take]
          omega
        · exact hwhole b hb
  · rintro ⟨rfl, hwhole⟩
    exact instructions?_flatMap hwhole

/-- The instructions reach to the end of the code. -/
theorem totalWidth_of_instructions? {cells : List Cell} {is : List Block}
    (h : instructions? cells = some is) : Block.totalWidth is = cells.length := by
  obtain ⟨rfl, hwhole⟩ := instructions?_eq_some_iff.mp h
  induction is with
  | nil => rfl
  | cons b is ih =>
    have hrest : ∀ b' ∈ is, b'.IsWhole := fun b' hb' => hwhole b' (List.mem_cons_of_mem b hb')
    rw [Block.totalWidth, List.flatMap_cons, List.length_append,
      (hwhole b List.mem_cons_self).length_cells, ih hrest (instructions?_flatMap hrest)]

/-! ## Listing -/

namespace Listing

/-- An entry, and the entries from where it leads on. -/
theorem entriesFrom_of_entry {c : Chunk} {offset : Int} {e : Entry} (hlt : offset < c.size)
    (h : entry c offset = .ok e) :
    entriesFrom c offset = (entriesFrom c e.next).map (e :: ·) := by
  rw [entriesFrom, dif_pos hlt]
  split
  · next h' =>
    rw [h] at h'
    cases h'
  · next h' =>
    rw [h] at h'
    cases h'
    cases entriesFrom c e.next <;> rfl

section
variable {c : Chunk} {o : Nat} {b : Block} {rest : List Cell}

/-- A whole instruction is listed as what it is, up to the next one. -/
theorem entry_of_block (hp : c.LoxPool) (h : c.cells.toList.drop o = b.cells ++ rest)
    (hwhole : b.IsWhole) (hpool : b.InPool c.constants) :
    ∃ e, entry c o = .ok e ∧ e.body ≠ .illegal ∧ e.next = (o + b.opcode.width : Nat) := by
  obtain ⟨op, line, operands⟩ := b
  have hdrop : c.cells.toList.drop o = ⟨op.tag, line⟩ :: (operands ++ rest) := h
  obtain ⟨htag, hrest⟩ := Chunk.cell_of_drop hdrop
  rw [entry_eq hp]
  cases op with
  | ret =>
    have hd : c.decode o = .ret := by simp only [Chunk.decode, htag, Opcode.ofByte?_tag]
    rw [hd]
    exact ⟨_, rfl, fun h => (by cases h), rfl⟩
  | negate =>
    have hd : c.decode o = .negate := by simp only [Chunk.decode, htag, Opcode.ofByte?_tag]
    rw [hd]
    exact ⟨_, rfl, fun h => (by cases h), rfl⟩
  | constant =>
    obtain ⟨operand, rfl⟩ := List.length_eq_one_iff.mp hwhole
    have hoperand : c.cells[o + 1]? = some operand := (Chunk.cell_of_drop hrest).1
    have hlt : operand.byte.toNat < c.constants.size := hpool operand List.mem_cons_self
    have hd : c.decode o = .constant operand.byte c.constants[operand.byte.toNat] := by
      simp only [Chunk.decode, htag, Opcode.ofByte?_tag, hoperand, Array.getElem?_eq_getElem hlt]
    rw [hd]
    exact ⟨_, rfl, fun h => (by cases h), rfl⟩

end

/-- Whole instructions from an offset on are listed one by one. -/
theorem entriesFrom_of_blocks {c : Chunk} (hp : c.LoxPool) {is : List Block} {o : Nat}
    (ho : o ≤ c.size) (h : c.cells.toList.drop o = is.flatMap Block.cells)
    (hwhole : ∀ b ∈ is, b.IsWhole) (hpool : ∀ b ∈ is, b.InPool c.constants) :
    ∃ es, entriesFrom c o = .ok es ∧ es.map (·.offset) = (Block.offsets o is).map Nat.cast ∧
      ∀ e ∈ es, e.body ≠ .illegal := by
  have hsize : c.cells.toList.length = c.size := Array.length_toList
  induction is generalizing o with
  | nil =>
    have hle := List.drop_eq_nil_iff.mp h
    refine ⟨[], ?_, rfl, nofun⟩
    rw [entriesFrom, dif_neg (by omega)]
  | cons b is ih =>
    rw [List.flatMap_cons] at h
    have hb := hwhole b List.mem_cons_self
    have hwidth := b.opcode.width_pos
    have hle := hb.add_width_le h
    obtain ⟨e, he, hbody, hnext⟩ := entry_of_block hp h hb (hpool b List.mem_cons_self)
    obtain ⟨es, hes, hoffsets, hall⟩ := ih (by omega) (hb.drop_eq h)
      (fun b' hb' => hwhole b' (List.mem_cons_of_mem b hb'))
      (fun b' hb' => hpool b' (List.mem_cons_of_mem b hb'))
    refine ⟨e :: es, ?_, ?_, ?_⟩
    · rw [entriesFrom_of_entry (by omega) he, hnext, hes]
      rfl
    · rw [Block.offsets, List.map_cons, List.map_cons, hoffsets, offset_of_entry he]
    · intro e' he'
      rcases List.mem_cons.mp he' with rfl | he'
      · exact hbody
      · exact hall e' he'

end Listing
end LoxMachine
