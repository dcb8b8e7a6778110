import LoxMachine.Assembly.Comment
import LoxMachine.Literal
import LoxMachine.Text.Upper

/-!
# Statements

A line of an assembly text holds at most one statement, `LINE MNEMONIC [OPERAND]`: the source
line, the opcode in letters of either case, and a literal if the opcode takes an operand.
-/

namespace LoxMachine.Assembly

/-- Why a line cannot be assembled: a fault of its own, which is reported with its number, or
the failure of something that it needs. -/
inductive LineError where
  | fault (cause : LineFault)
  | other (f : Fault)
  deriving DecidableEq

def LineError.atLine (number : Int) : LineError → Fault
  | fault cause => .bytecode (.line number cause)
  | other f => f

/-- A token that is no literal is the line's own fault. -/
def LineError.ofLiteral : Fault → LineError
  | .argument cause => fault (.literal cause)
  | f => other f

inductive Instruction where
  | ret
  | negate
  | constant (v : Value)
  deriving DecidableEq

structure Statement where
  line : Int
  instruction : Instruction
  deriving DecidableEq

namespace Statement

/-! ## Reading -/

/-- The three parts of a line; the operand goes on to the end. -/
structure Parts where
  line : List Char
  mnemonic : List Char
  operand : List Char
  deriving DecidableEq

/-- The parts of a text without blanks at its ends; parts that are not there are empty. -/
def parts (text : List Char) : Parts :=
  let (line, rest) := Text.spanWord text
  let (mnemonic, rest) := Text.spanWord (Text.skipBlanks rest)
  ⟨line, mnemonic, Text.skipBlanks rest⟩

def readOpcode (mnemonic : List Char) : Except LineError Opcode :=
  match Opcode.ofMnemonic? (String.ofList (Text.toUpper mnemonic)) with
  | some op => .ok op
  | none => .error (.fault (.unknownMnemonic (String.ofList mnemonic)))

/-- The instruction of an opcode without operand. -/
def plain? : Opcode → Option Instruction
  | .ret => some .ret
  | .negate => some .negate
  | .constant => none

def readInstruction (op : Opcode) (operand : List Char) : Except LineError Instruction :=
  match plain? op with
  | some i => if operand = [] then .ok i else .error (.fault (.needlessOperand op))
  | none =>
    if operand = [] then .error (.fault (.missingOperand op))
    else match Literal.read operand with
      | .ok v => .ok (.constant v)
      | .error f => .error (.ofLiteral f)

def ofParts (p : Parts) : Except LineError Statement :=
  if p.mnemonic = [] then .error (.fault .missingParts)
  else match Numeral.read? p.line with
    | none => .error (.fault (.lineNumber (String.ofList p.line)))
    | some line => return ⟨line, ← readInstruction (← readOpcode p.mnemonic) p.operand⟩

/-- The statement of a line, if there is one before the comment. -/
def read (raw : List Char) : Except LineError (Option Statement) :=
  let text := Text.strip (beforeComment raw)
  if text = [] then .ok none
  else return some (← ofParts (parts text))

end Statement
end LoxMachine.Assembly
