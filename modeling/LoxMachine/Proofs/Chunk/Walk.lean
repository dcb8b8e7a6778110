import LoxMachine.Cursor
import LoxMachine.Proofs.Chunk.Instructions

/-!
# Walks through code

A cursor that reads a tag, and then as many operands as its opcode takes, goes through code from
instruction to instruction. So it finds what was written, whatever bytes the operands are, and its
tags are where a listing has its entries.

    k.walk = .ok (visits o is, k.advance (totalWidth is))                      (walk_of_blocks)

The proof goes along the instructions that are left: `o` is how far the cursor has come, and the
code from there on is theirs.
-/

namespace LoxMachine

/-! ## Algorithm -/

/-- An instruction as a cursor reads it. -/
structure Visit where
  offset : Int
  opcode : Opcode
  line : Int
  operands : List UInt8
  deriving DecidableEq

namespace Cursor

/-- Reads some bytes and goes past each of them. -/
def takeBytes (k : Cursor) : Nat → Except Fault (List UInt8 × Cursor)
  | 0 => .ok ([], k)
  | count + 1 => do
    let byte ← k.byte
    let (bytes, k') ← (k.advance 1).takeBytes count
    return (byte :: bytes, k')

/-- Reads a tag, goes past it, and reads the operands. -/
def takeInstruction (k : Cursor) : Except Fault (Visit × Cursor) := do
  let op ← k.opcode
  let line ← k.line
  let (operands, k') ← (k.advance 1).takeBytes (op.width - 1)
  return (⟨k.offset, op, line, operands⟩, k')

theorem advance_zero (k : Cursor) : k.advance 0 = k := by
  unfold advance
  simp only [Int.add_zero]

theorem advance_advance (k : Cursor) (a b : Int) :
    (k.advance a).advance b = k.advance (a + b) := by
  unfold advance
  simp only [Int.add_assoc]

theorem eq_advance_of_takeBytes {k k' : Cursor} {count : Nat} {bytes : List UInt8}
    (h : k.takeBytes count = .ok (bytes, k')) : k' = k.advance count := by
  induction count generalizing k bytes with
  | zero =>
    cases h
    exact (advance_zero _).symm
  | succ count ih =>
    simp only [takeBytes, bind, Except.bind, pure, Except.pure] at h
    split at h
    · cases h
    split at h
    · cases h
    next hrest =>
    cases h
    rw [ih hrest, advance_advance]
    congr 1
    omega

/-- A cursor that has read an instruction has less code before it. -/
theorem lt_of_takeInstruction {k k' : Cursor} {v : Visit} (hend : ¬ k.atEnd = true)
    (h : k.takeInstruction = .ok (v, k')) :
    (k'.chunk.size - k'.offset).toNat < (k.chunk.size - k.offset).toNat := by
  simp only [atEnd, decide_eq_true_eq] at hend
  simp only [takeInstruction, bind, Except.bind, pure, Except.pure] at h
  split at h
  · cases h
  split at h
  · cases h
  split at h
  · cases h
  next hbytes =>
  cases h
  rw [eq_advance_of_takeBytes hbytes, advance_advance]
  show (k.chunk.size - (k.offset + _)).toNat < _
  omega

/-- Reads instructions until the code is over. -/
def walk (k : Cursor) : Except Fault (List Visit × Cursor) :=
  if hend : k.atEnd = true then .ok ([], k)
  else match h : k.takeInstruction with
    | .error f => .error f
    | .ok (v, k') => do
      have := lt_of_takeInstruction hend h
      let (vs, last) ← k'.walk
      return (v :: vs, last)
termination_by (k.chunk.size - k.offset).toNat

end Cursor

/-- Writes cells in order. -/
def Chunk.writeCells (c : Chunk) (cells : List Cell) : Except Fault Chunk :=
  cells.foldlM (fun c cell => c.write cell.byte.toNat cell.line) c

/-! ## Reading -/

namespace Block

def visit (b : Block) (o : Nat) : Visit := ⟨o, b.opcode, b.line, b.operands.map (·.byte)⟩

/-- What a cursor finds of some instructions, the first of which is at `o`. -/
def visits (o : Nat) : List Block → List Visit
  | [] => []
  | b :: is => b.visit o :: visits (o + b.opcode.width) is

theorem map_offset_visits (o : Nat) (is : List Block) :
    (visits o is).map (·.offset) = (offsets o is).map Nat.cast := by
  induction is generalizing o with
  | nil => rfl
  | cons b is ih =>
    rw [visits, offsets, List.map_cons, List.map_cons, ih]
    rfl

theorem map_visits {α : Type} (f : Opcode → Int → List UInt8 → α) (o : Nat) (is : List Block) :
    (visits o is).map (fun v => f v.opcode v.line v.operands) =
      is.map fun b => f b.opcode b.line (b.operands.map (·.byte)) := by
  induction is generalizing o with
  | nil => rfl
  | cons b is ih =>
    rw [visits, List.map_cons, List.map_cons, ih]
    rfl

end Block

namespace Cursor

section
variable {k : Cursor} {o : Nat} {rest : List Cell}

theorem offset_advance (hk : k.offset = o) (w : Nat) : (k.advance w).offset = (o + w : Nat) := by
  show k.offset + w = _
  omega

theorem byte_of_drop {cell : Cell} (hk : k.offset = o)
    (h : k.chunk.cells.toList.drop o = cell :: rest) : k.byte = .ok cell.byte := by
  rw [byte, hk, Chunk.byteAt_of_cell (Chunk.cell_of_drop h).1]

/-- Bytes are read one after the other. -/
theorem takeBytes_of_drop {cells : List Cell} (hk : k.offset = o)
    (h : k.chunk.cells.toList.drop o = cells ++ rest) :
    k.takeBytes cells.length = .ok (cells.map (·.byte), k.advance cells.length) := by
  induction cells generalizing k o with
  | nil =>
    show Except.ok ([], k) = .ok ([], k.advance 0)
    rw [advance_zero]
  | cons cell cells ih =>
    have hnext : (k.advance 1).offset = (o + 1 : Nat) := offset_advance hk 1
    have hbytes := ih hnext (Chunk.cell_of_drop h).2
    rw [List.length_cons, takeBytes, byte_of_drop hk h]
    simp only [bind, Except.bind, hbytes, pure, Except.pure, advance_advance, List.map_cons]
    congr 3
    omega

/-- **Instructions.** A whole instruction is read as what it is, also if its operands look like
tags. -/
theorem takeInstruction_of_drop {b : Block} (hk : k.offset = o)
    (h : k.chunk.cells.toList.drop o = b.cells ++ rest) (hwhole : b.IsWhole) :
    k.takeInstruction = .ok (b.visit o, k.advance b.opcode.width) := by
  change k.chunk.cells.toList.drop o = ⟨b.opcode.tag, b.line⟩ :: (b.operands ++ rest) at h
  obtain ⟨htag, hoperands⟩ := Chunk.cell_of_drop h
  have hopcode : k.opcode = .ok b.opcode := by
    rw [opcode, hk, Chunk.opcodeAt_of_cell htag, Opcode.ofByte?_tag]
  have hline : k.line = .ok b.line := by
    rw [line, hk, Chunk.lineAt, Chunk.cellAt_ofNat htag]
    rfl
  have hnext : (k.advance 1).offset = (o + 1 : Nat) := offset_advance hk 1
  have hbytes := takeBytes_of_drop hnext hoperands
  have hcount : b.opcode.width - 1 = b.operands.length := by
    rw [hwhole, Opcode.width]
    omega
  unfold takeInstruction
  simp only [hopcode, hline, hcount, hbytes, bind, Except.bind, pure, Except.pure, advance_advance]
  rw [hk, Opcode.width, hwhole]
  rfl

end

theorem walk_of_atEnd {k : Cursor} (h : k.atEnd = true) : k.walk = .ok ([], k) := by
  rw [walk, dif_pos h]

theorem walk_of_takeInstruction {k k' : Cursor} {v : Visit} (hend : ¬ k.atEnd = true)
    (h : k.takeInstruction = .ok (v, k')) :
    k.walk = k'.walk.map fun found => (v :: found.1, found.2) := by
  rw [walk, dif_neg hend]
  split
  · next h' =>
    rw [h] at h'
    cases h'
  · next h' =>
    rw [h] at h'
    cases h'
    cases k'.walk <;> rfl

/-- **Walks.** From where the code is some whole instructions, a cursor finds them in order and
stops at the end. -/
theorem walk_of_blocks {k : Cursor} {o : Nat} {is : List Block} (hk : k.offset = o)
    (ho : o ≤ k.chunk.size) (h : k.chunk.cells.toList.drop o = is.flatMap Block.cells)
    (hwhole : ∀ b ∈ is, b.IsWhole) :
    k.walk = .ok (Block.visits o is, k.advance (Block.totalWidth is)) := by
  have hsize : k.chunk.cells.toList.length = k.chunk.size := Array.length_toList
  induction is generalizing k o with
  | nil =>
    have hle := List.drop_eq_nil_iff.mp h
    have hend : k.atEnd = true := by
      simp only [atEnd, decide_eq_true_eq]
      omega
    rw [walk_of_atEnd hend]
    show Except.ok ([], k) = .ok ([], k.advance 0)
    rw [advance_zero]
  | cons b is ih =>
    rw [List.flatMap_cons] at h
    have hb := hwhole b List.mem_cons_self
    have hwidth := b.opcode.width_pos
    have hle := hb.add_width_le h
    have hend : ¬ k.atEnd = true := by
      simp only [atEnd, decide_eq_true_eq]
      omega
    have hwalk := ih (offset_advance hk b.opcode.width) (by show _ ≤ k.chunk.size; omega)
      (hb.drop_eq h) (fun b' hb' => hwhole b' (List.mem_cons_of_mem b hb')) hsize
    rw [walk_of_takeInstruction hend (takeInstruction_of_drop hk h hb), hwalk, advance_advance,
      ← Int.natCast_add]
    rfl

end Cursor

/-! ## Writing -/

namespace Chunk

theorem write_cell {c : Chunk} (hc : c.isSealed = false) (cell : Cell) :
    c.write cell.byte.toNat cell.line = .ok { c with cells := c.cells.push cell } := by
  have hlt := cell.byte.toNat_lt
  rw [write_eq_ok_iff]
  refine ⟨hc, by omega, by omega, ?_⟩
  simp [push]

/-- Cells that are written to an open chunk are appended to it. -/
theorem writeCells_eq {c : Chunk} (hc : c.isSealed = false) (cells : List Cell) :
    c.writeCells cells = .ok { c with cells := c.cells ++ cells } := by
  unfold writeCells
  induction cells generalizing c with
  | nil =>
    show Except.ok c = _
    simp
  | cons cell cells ih =>
    rw [List.foldlM_cons, write_cell hc]
    exact (ih (c := { c with cells := c.cells.push cell }) hc).trans (by simp)

end Chunk

/-! ## Written instructions -/

/-- A cursor finds some instructions in a chunk, and then stands at `k`. -/
structure Chunk.Recovers (c : Chunk) (is : List Block) (vs : List Visit) (k : Cursor) : Prop where
  walk : c.cursor.walk = .ok (vs, k)
  instructions : vs.map (fun v => (v.opcode, v.operands)) =
    is.map fun b => (b.opcode, b.operands.map (·.byte))
  lines : vs.map (·.line) = is.map (·.line)
  stops : k.offset = c.size
  listed : c.LoxPool → (∀ b ∈ is, b.InPool c.constants) →
    ∃ es, Listing.entries c.toSealed = .ok es ∧ es.map (·.offset) = vs.map (·.offset)

section
variable {is : List Block}

theorem Chunk.recovers_of_cells {c : Chunk} (hcells : c.cells.toList = is.flatMap Block.cells)
    (hwhole : ∀ b ∈ is, b.IsWhole) :
    c.Recovers is (Block.visits 0 is) (c.cursor.advance (Block.totalWidth is)) := by
  have hsize : c.size = Block.totalWidth is := by
    rw [totalWidth_of_instructions? (instructions?_flatMap hwhole), ← hcells]
    rfl
  refine ⟨Cursor.walk_of_blocks (k := c.cursor) (o := 0) rfl (Nat.zero_le _) hcells hwhole,
    Block.map_visits (fun op _ bytes => (op, bytes)) 0 is,
    Block.map_visits (fun _ line _ => line) 0 is, ?_, ?_⟩
  · show (0 : Int) + Block.totalWidth is = c.size
    rw [hsize, Int.zero_add]
  · intro hlox hpool
    obtain ⟨es, hes, hoffsets, -⟩ := Listing.entriesFrom_of_blocks (c := c.toSealed) (o := 0) hlox
      (Nat.zero_le _) hcells hwhole hpool
    exact ⟨es, hes, by rw [hoffsets, Block.map_offset_visits]⟩

/-- **Written instructions.** Whole instructions that are written to a fresh chunk, whatever its
pool, are found again by a walk, in order and with their lines; if their indexes are in the pool,
a listing has its entries where they are. -/
theorem exists_recovers_of_isWhole (pool : Array Value) (hwhole : ∀ b ∈ is, b.IsWhole) :
    ∃ c vs k, ({ constants := pool } : Chunk).writeCells (is.flatMap Block.cells) = .ok c ∧
      c.constants = pool ∧ c.Recovers is vs k := by
  have hwrite := Chunk.writeCells_eq (c := { constants := pool }) rfl (is.flatMap Block.cells)
  exact ⟨_, _, _, hwrite, rfl, Chunk.recovers_of_cells (by simp) hwhole⟩

/-- The operands are the tag of a constant, and a byte that is no tag. -/
theorem exists_recovers_of_aliases :
    (∀ b ∈ ([⟨.constant, 3, [⟨2, 4⟩]⟩, ⟨.constant, 5, [⟨7, 5⟩]⟩] : List Block), b.IsWhole) ∧
      ∃ c vs k, ({ constants := Array.replicate 8 .nil } : Chunk).writeCells
          [⟨2, 3⟩, ⟨2, 4⟩, ⟨2, 5⟩, ⟨7, 5⟩] = .ok c ∧
        c.Recovers [⟨.constant, 3, [⟨2, 4⟩]⟩, ⟨.constant, 5, [⟨7, 5⟩]⟩] vs k ∧ c.LoxPool ∧
        ∀ b ∈ ([⟨.constant, 3, [⟨2, 4⟩]⟩, ⟨.constant, 5, [⟨7, 5⟩]⟩] : List Block),
          b.InPool c.constants := by
  have hwhole : ∀ b ∈ ([⟨.constant, 3, [⟨2, 4⟩]⟩, ⟨.constant, 5, [⟨7, 5⟩]⟩] : List Block),
      b.IsWhole := by
    simp [Block.IsWhole, Opcode.operandCount]
  obtain ⟨c, vs, k, hwrite, hpool, hrecovers⟩ :=
    exists_recovers_of_isWhole (Array.replicate 8 .nil) hwhole
  refine ⟨hwhole, c, vs, k, hwrite, hrecovers, ?_, ?_⟩
  · intro v hv
    rw [hpool] at hv
    rw [(Array.mem_replicate.mp (Array.mem_toList_iff.mp hv)).2]
    trivial
  · rw [hpool]
    simp [Block.InPool]

end

end LoxMachine
