import LoxMachine.Assembly.Statement
import LoxMachine.Chunk
import LoxMachine.Text.File

/-!
# Assembly

The statements of a text are appended to an open chunk in order. A constant goes to the end of
the pool, which holds no more than an operand byte can address.
-/

namespace LoxMachine.Assembly

/-- Appends a byte, given as an integer, of a statement. -/
def put (c : Chunk) (byte line : Int) : Except LineError Chunk :=
  (c.write byte line).mapError .other

/-- Appends the constant to the pool, and the tag and the index to the code. -/
def appendConstant (c : Chunk) (v : Value) (line : Int) : Except LineError Chunk := do
  let index := c.constants.size
  if maxConstants ≤ index then .error (.fault .poolFull)
  else
    let c ← (c.pushConstant v).mapError .other
    let c ← put c Opcode.constant.tag.toNat line
    put c index line

def append (c : Chunk) (s : Statement) : Except LineError Chunk :=
  match s.instruction with
  | .ret => put c Opcode.ret.tag.toNat s.line
  | .negate => put c Opcode.negate.tag.toNat s.line
  | .constant v => appendConstant c v s.line

/-- Appends an instruction whose operand is given as text. -/
def appendOperand (c : Chunk) (op : Opcode) (operand : List Char) (line : Int) :
    Except LineError Chunk :=
  match op with
  | .constant => do appendConstant c (← (Literal.read operand).mapError .ofLiteral) line
  | op => .error (.fault (.unassemblable op))

/-- Appends the statement of a line, if it has one. -/
def appendLine (c : Chunk) (raw : List Char) : Except LineError Chunk := do
  match ← Statement.read raw with
  | some s => append c s
  | none => return c

/-- Appends lines of which the first has the given number. -/
def assembleFrom (number : Nat) (c : Chunk) : List (List Char) → Except Fault Chunk
  | [] => .ok c
  | raw :: rest => do
    let c ← (appendLine c raw).mapError (LineError.atLine number)
    assembleFrom (number + 1) c rest

def assemble (lines : List (List Char)) : Except Fault Chunk := assembleFrom 1 {} lines

/-- Assembles the content of a file. A line is appended before the next one is read, so a fault in
it comes before bytes that are found out later. -/
def ofBytes (bytes : ByteArray) : Except Fault Chunk :=
  match Text.Content.ofBytes bytes with
  | .text text => assemble (Text.lines text)
  | .broken before => do
    let _ ← assemble (Text.linesBeforeBreak before)
    .error .undecodable

end LoxMachine.Assembly
