import LoxMachine.Fault

/-!
# Chunks

A chunk is the bytecode of one unit: code bytes, each with its source line, and a pool of
constants. It grows at its ends while it is open. Taking a cursor seals it, and a sealed chunk
does not change any more.

Offsets into code are integers; negative ones count from the end.
-/

namespace LoxMachine

/-- A code byte and its source line. -/
structure Cell where
  byte : UInt8
  line : Int
  deriving DecidableEq, Inhabited

structure Chunk where
  cells : Array Cell := #[]
  constants : Array Value := #[]
  isSealed : Bool := false
  deriving DecidableEq, Inhabited

namespace Chunk

/-- The number of code bytes. -/
def size (c : Chunk) : Nat := c.cells.size

def code (c : Chunk) : List UInt8 := c.cells.toList.map (·.byte)

def lines (c : Chunk) : List Int := c.cells.toList.map (·.line)

/-! ## Growth -/

def toSealed (c : Chunk) : Chunk := { c with isSealed := true }

/-- Appends a cell. -/
def push (c : Chunk) (byte : UInt8) (line : Int) : Chunk :=
  { c with cells := c.cells.push ⟨byte, line⟩ }

/-- Appends a byte, given as an integer. -/
def write (c : Chunk) (byte line : Int) : Except Fault Chunk :=
  if c.isSealed then .error (.bytecode .sealedChunk)
  else if 0 ≤ byte ∧ byte < 256 then .ok (c.push (UInt8.ofNat byte.toNat) line)
  else .error (.argument .byteRange)

/-- Appends a constant; its index is the size of the pool before. -/
def pushConstant (c : Chunk) (v : Value) : Except Fault Chunk :=
  if c.isSealed then .error (.bytecode .sealedChunk)
  else .ok { c with constants := c.constants.push v }

/-! ## Queries -/

/-- The cell at an offset. -/
def cellAt (c : Chunk) (offset : Int) : Except Fault Cell :=
  let place := if offset < 0 then offset + c.size else offset
  if place < 0 then .error .offsetRange
  else match c.cells[place.toNat]? with
    | some cell => .ok cell
    | none => .error .offsetRange

def byteAt (c : Chunk) (offset : Int) : Except Fault UInt8 := return (← c.cellAt offset).byte

def lineAt (c : Chunk) (offset : Int) : Except Fault Int := return (← c.cellAt offset).line

/-- The opcode whose tag is the byte at an offset. -/
def opcodeAt (c : Chunk) (offset : Int) : Except Fault Opcode := do
  let byte ← c.byteAt offset
  match Opcode.ofByte? byte with
  | some op => return op
  | none => .error (.bytecode (.unknownOpcode (.int byte.toNat) (some offset)))

/-- The constant of an index; negative indexes have none. -/
def constantAt (c : Chunk) (index : Int) : Except Fault Value :=
  if index < 0 then .error (.bytecode (.constantIndex index c.constants.size))
  else match c.constants[index.toNat]? with
    | some v => .ok v
    | none => .error (.bytecode (.constantIndex index c.constants.size))

def summary (c : Chunk) : String :=
  let state := if c.isSealed then "sealed" else "open"
  s!"Chunk(code={c.size} bytes, constants={c.constants.size}, {state})"

/-! ## Lemmas -/

@[simp] theorem length_code (c : Chunk) : c.code.length = c.size := by
  simp [code, size]

@[simp] theorem length_lines (c : Chunk) : c.lines.length = c.size := by
  simp [lines, size]

@[simp] theorem code_push (c : Chunk) (byte : UInt8) (line : Int) :
    (c.push byte line).code = c.code ++ [byte] := by
  simp [code, push]

@[simp] theorem lines_push (c : Chunk) (byte : UInt8) (line : Int) :
    (c.push byte line).lines = c.lines ++ [line] := by
  simp [lines, push]

/-- Writing changes nothing but the end of the code, and only while the chunk is open. -/
theorem write_eq_ok_iff {c d : Chunk} {byte line : Int} :
    c.write byte line = .ok d ↔
      c.isSealed = false ∧ 0 ≤ byte ∧ byte < 256 ∧ d = c.push (UInt8.ofNat byte.toNat) line := by
  unfold write
  cases c.isSealed with
  | true => simp
  | false =>
    by_cases h : 0 ≤ byte ∧ byte < 256
    · simp only [Bool.false_eq_true, if_false, if_pos h, Except.ok.injEq, true_and]
      exact ⟨fun hd => ⟨h.1, h.2, hd.symm⟩, fun hd => hd.2.2.symm⟩
    · simp only [Bool.false_eq_true, if_false, if_neg h, reduceCtorEq, true_and, false_iff]
      exact fun hd => h ⟨hd.1, hd.2.1⟩

/-- Inside of the code, offsets count from its start. -/
theorem cellAt_ofNat {c : Chunk} {offset : Nat} {cell : Cell} (h : c.cells[offset]? = some cell) :
    c.cellAt offset = .ok cell := by
  have h0 : ¬ (offset : Int) < 0 := by omega
  simp [cellAt, h0, h]

end Chunk
end LoxMachine
