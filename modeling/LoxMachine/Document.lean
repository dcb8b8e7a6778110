import LoxMachine.Chunk
import LoxMachine.Json.Reader
import LoxMachine.Json.Writer
import LoxMachine.Text.File
import LoxMachine.Value.Constant

/-!
# Documents

A document keeps a named chunk as a JSON record of the fields `name`, `code`, `lines` and
`constants`. It does not tell whether the chunk was sealed; one that is read is open.
-/

namespace LoxMachine

structure Document where
  name : Str
  chunk : Chunk
  deriving DecidableEq

namespace Document

/-! ## Writing -/

def toValue (d : Document) : Value :=
  .dict [
    ("name", .str d.name),
    ("code", .list (d.chunk.code.map fun b => .int b.toNat)),
    ("lines", .list (d.chunk.lines.map .int)),
    ("constants", .list d.chunk.constants.toList)]

/-- The text of the document's file. -/
def text (d : Document) : String := String.ofList (Json.write 0 d.toValue ++ ['\n'])

/-! ## Reading -/

def refuse {α : Type} (cause : DocumentFault) : Except Fault α :=
  .error (.bytecode (.document cause))

/-- What a constant is kept as; a list or record is a fault of the document. -/
def readConstant (v : Value) : Except Fault Value :=
  match v.toConstant with
  | .ok w => .ok w
  | .error (.argument (.unsupported v)) => refuse (.constant v)
  | .error f => .error f

/-- A byte and its line must be whole numbers, and the byte must be one. -/
def readCell (byte line : Value) : Except Fault Cell :=
  match byte with
  | .int b =>
    if 0 ≤ b ∧ b ≤ 255 then match line with
      | .int l => .ok ⟨UInt8.ofNat b.toNat, l⟩
      | line => refuse (.line line)
    else refuse (.byte byte)
  | byte => refuse (.byte byte)

def readChunk (code lines constants : List Value) : Except Fault Chunk := do
  if code.length ≠ lines.length then refuse (.lengths code.length lines.length)
  else if maxConstants < constants.length then refuse (.tooManyConstants constants.length)
  else
    let constants ← constants.mapM readConstant
    let cells ← (code.zip lines).mapM fun (byte, line) => readCell byte line
    return { cells := cells.toArray, constants := constants.toArray }

/-- A record without constants has none; one without a name is called `chunk`. -/
def ofValue : Value → Except Fault Document
  | .dict entries =>
    match Value.lookup entries "code", Value.lookup entries "lines" with
    | none, _ => refuse (.missingField "code")
    | some _, none => refuse (.missingField "lines")
    | some code, some lines =>
      match code, lines, (Value.lookup entries "constants").getD (.list []) with
      | .list code, .list lines, .list constants => do
        let chunk ← readChunk code lines constants
        return ⟨((Value.lookup entries "name").map Value.plain).getD "chunk", chunk⟩
      | _, _, _ => refuse .notArrays
  | _ => refuse .notObject

def ofText (text : List Char) : Except Fault Document :=
  match Json.read text with
  | .ok v => ofValue v
  | .error (.badSyntax e) => refuse (.json e)
  | .error (.tooManyDigits count) => .error (.argument (.tooManyDigits count))

/-- Reads the content of a file. -/
def ofBytes (bytes : ByteArray) : Except Fault Document :=
  match Text.Content.ofBytes bytes with
  | .text text => ofText text
  | .broken _ => .error .undecodable

end Document
end LoxMachine
