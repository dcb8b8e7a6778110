import LoxMachine.Json.Fault
import LoxMachine.Opcode
import LoxMachine.Value.Display
import LoxMachine.Value.Equality

/-!
# Faults

What can go wrong, by cause. `BytecodeFault` is a defect of bytecode, of a text or document that
should become bytecode, or of the way it is written; the command line reports it and ends. A
`RuntimeFault` ends the execution of a chunk and carries the frame where it did. The wording of
every cause is in its `message`.
-/

namespace LoxMachine

/-! ## Causes -/

/-- An argument that an operation does not take. -/
inductive ArgumentFault where
  | emptyLiteral
  | notLiteral (text : String)
  | unsupported (v : Value)
  | tooManyDigits (count : Nat)
  | byteRange
  | openChunk
  | nullInPath
  /-- A string for the output that UTF-8 has no bytes for. -/
  | unencodable (text : Str)
  deriving DecidableEq

/-- What is wrong with one line of an assembly text. -/
inductive LineFault where
  | missingParts
  | lineNumber (word : String)
  | unknownMnemonic (word : String)
  | needlessOperand (op : Opcode)
  | missingOperand (op : Opcode)
  | literal (cause : ArgumentFault)
  | poolFull
  | unassemblable (op : Opcode)
  deriving DecidableEq

/-- What is wrong with a bytecode document. -/
inductive DocumentFault where
  | json (e : Json.SyntaxError)
  | notObject
  | missingField (field : String)
  | notArrays
  | lengths (code lines : Nat)
  | tooManyConstants (count : Nat)
  | constant (v : Value)
  | byte (v : Value)
  | line (v : Value)
  deriving DecidableEq

inductive BytecodeFault where
  | unknownOpcode (byte : Value) (offset : Option Int)
  | constantIndex (index : Int) (size : Nat)
  | sealedChunk
  | line (number : Int) (cause : LineFault)
  | document (cause : DocumentFault)
  deriving DecidableEq

/-- Where an execution stood: the function, the instruction's offset and its source line. -/
structure Frame where
  function : Str
  offset : Int
  line : Int
  deriving DecidableEq

inductive RuntimeCause where
  | endOfCode
  | notANumber
  | bytecode (cause : BytecodeFault)
  deriving DecidableEq

structure RuntimeFault where
  cause : RuntimeCause
  frame : Frame
  deriving DecidableEq

/-- Why an operation fails. -/
inductive Fault where
  | bytecode (cause : BytecodeFault)
  | runtime (e : RuntimeFault)
  | argument (cause : ArgumentFault)
  /-- An offset outside of the code. -/
  | offsetRange
  /-- A whole number beyond the range of binary64. -/
  | numberRange
  /-- Bytes that are not UTF-8. -/
  | undecodable
  /-- An operation that only a bound cursor has. -/
  | unbound
  /-- A name or tag that no opcode has. -/
  | noSuchOpcode
  deriving DecidableEq

instance {α : Type} [DecidableEq α] : DecidableEq (Except Fault α)
  | .ok a, .ok b => decidable_of_iff (a = b) (by simp)
  | .error f, .error g => decidable_of_iff (f = g) (by simp)
  | .ok _, .error _ | .error _, .ok _ => isFalse nofun

/-! ## Messages -/

/-- The most constants that an operand byte can address. -/
def maxConstants : Nat := 256

/-- Why a string cannot be written: where it has its first surrogate, or more than one there. -/
def unencodableMessage (text : Str) : String :=
  let start := (text.takeWhile (Str.Encodable [·])).length
  match (text.drop start).takeWhile (¬ Str.Encodable [·]) with
  | [p] =>
    "'utf-8' codec can't encode character '" ++ Text.unquoted [p] ++
      s!"' in position {start}: surrogates not allowed"
  | surrogates =>
    let last := start + surrogates.length - 1
    s!"'utf-8' codec can't encode characters in position {start}-{last}: surrogates not allowed"

def ArgumentFault.message : ArgumentFault → String
  | emptyLiteral => "empty literal"
  | notLiteral text => "not a literal: " ++ text
  | unsupported v => "unsupported constant: " ++ v.inspect
  | tooManyDigits count =>
    s!"Exceeds the limit ({Numeral.maxDigits} digits) for integer string conversion: " ++
      s!"value has {count} digits; use sys.set_int_max_str_digits() to increase the limit"
  | byteRange => "byte must be in range(0, 256)"
  | openChunk => "cursor requires a sealed chunk; use Chunk.base_cursor()"
  | nullInPath => "embedded null byte"
  | unencodable text => unencodableMessage text

def LineFault.message : LineFault → String
  | missingParts => "expected LINE MNEMONIC [OPERAND]"
  | lineNumber word => "invalid line number " ++ Text.quoted word
  | unknownMnemonic word => "unknown mnemonic " ++ Text.quoted word
  | needlessOperand op => op.mnemonic ++ " takes no operand"
  | missingOperand op => op.mnemonic ++ " requires an operand"
  | literal cause => cause.message
  | poolFull => "too many constants in one chunk"
  | unassemblable op => "cannot assemble operand for " ++ op.mnemonic

def DocumentFault.message : DocumentFault → String
  | json e => "invalid JSON: " ++ e.message
  | notObject => "bytecode document must be a JSON object"
  | missingField field => "missing field " ++ Text.quoted field
  | notArrays => "code, lines and constants must be arrays"
  | lengths code lines => s!"code has {code} bytes but lines has {lines} entries"
  | tooManyConstants count =>
    s!"{count} constants exceed the {maxConstants} a one-byte operand can address"
  | constant v => (ArgumentFault.unsupported v).message
  | byte v => "invalid byte " ++ v.inspect
  | line v => "invalid line number " ++ v.inspect

/-- An offset as listings and messages write it. -/
def writtenOffset (offset : Int) : String := String.ofList (Numeral.padded 4 offset)

def BytecodeFault.message : BytecodeFault → String
  | unknownOpcode byte none => "Unknown opcode " ++ byte.inspect
  | unknownOpcode byte (some offset) =>
    "Unknown opcode " ++ byte.inspect ++ " at offset " ++ writtenOffset offset
  | constantIndex index size =>
    "Constant index " ++ String.ofList (Numeral.ofInt index) ++
      s!" out of range (pool holds {size})"
  | sealedChunk => "chunk is sealed: a cursor has already been taken from it"
  | line number cause =>
    "line " ++ String.ofList (Numeral.ofInt number) ++ ": " ++ cause.message
  | document cause => cause.message

def RuntimeCause.message : RuntimeCause → String
  | endOfCode => "Unexpected end of bytecode"
  | notANumber => "Operand must be a number."
  | bytecode cause => cause.message

def RuntimeFault.message (e : RuntimeFault) : String := e.cause.message

/-- The message of a fault; those that have none are told by their kind alone. -/
def Fault.message? : Fault → Option String
  | bytecode cause => some cause.message
  | runtime e => some e.message
  | argument cause => some cause.message
  | offsetRange | numberRange | undecodable | unbound | noSuchOpcode => none

end LoxMachine
