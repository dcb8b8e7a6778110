import LoxMachine.Assembly
import LoxMachine.Cursor

/-!
# The storage of a chunk

Code, lines and constants are arrays that grow one after the other. The first cursor makes copies of
code and constants and seals the chunk; cursors and readers of the whole code look at the copy,
single bytes and constants are looked up in the arrays that have grown. An operation does its parts
in order, and what it has done before a part that fails is not taken back.

    write           check that the chunk is open, append the byte, append the line
    pushConstant    check that the chunk is open, append the constant
    freeze          copy and seal, unless the chunk is sealed already
-/

namespace LoxMachine

structure Storage where
  code : Array UInt8 := #[]
  lines : Array Int := #[]
  constants : Array Value := #[]
  isSealed : Bool := false
  frozenCode : Option (Array UInt8) := none
  frozenConstants : Option (Array Value) := none
  deriving DecidableEq, Inhabited

/-- A cursor keeps the code that it has been made for. -/
structure StoredCursor where
  code : Array UInt8
  offset : Int
  deriving DecidableEq

/-- An operation on the storage of a chunk. -/
abbrev StorageM (α : Type) : Type := ExceptT Fault (StateM Storage) α

/-- What an operation yields and what it leaves. -/
def StorageM.exec {α : Type} (op : StorageM α) (st : Storage) : Except Fault α × Storage := op st

namespace Storage

/-! ## Growth -/

def checkOpen : StorageM Unit := do
  if (← get).isSealed then throw (.bytecode .sealedChunk)

def appendByte (byte : Int) : StorageM Unit :=
  if 0 ≤ byte ∧ byte < 256 then
    modify fun st => { st with code := st.code.push (UInt8.ofNat byte.toNat) }
  else throw (.argument .byteRange)

def appendLine (line : Int) : StorageM Unit :=
  modify fun st => { st with lines := st.lines.push line }

def write (byte line : Int) : StorageM Unit := do
  checkOpen
  appendByte byte
  appendLine line

/-- Writes bytes until one cannot be written. -/
def writeAll (line : Int) : List Int → StorageM Unit
  | [] => pure ()
  | byte :: rest => do
    write byte line
    writeAll line rest

/-- Appends a constant and yields its index. -/
def pushConstant (v : Value) : StorageM Nat := do
  checkOpen
  modify fun st => { st with constants := st.constants.push v }
  return (← get).constants.size - 1

/-- Appends an instruction whose operand is given as text, for the given line of a text. -/
def appendOperand (op : Opcode) (operand : List Char) (line textLine : Int) : StorageM Unit :=
  match op with
  | .constant => do
    match Literal.read operand with
    | .error f => throw ((Assembly.LineError.ofLiteral f).atLine textLine)
    | .ok v =>
      let st ← get
      if maxConstants ≤ st.constants.size then throw (.bytecode (.line textLine .poolFull))
      else
        let index ← pushConstant v
        write Opcode.constant.tag.toNat line
        write index line
  | op => throw (.bytecode (.line textLine (.unassemblable op)))

/-! ## Cursors -/

/-- Copies are made once. -/
def toFrozen (st : Storage) : Storage :=
  if st.isSealed then st
  else { st with
    isSealed := true, frozenCode := some st.code, frozenConstants := some st.constants }

def freeze : StorageM Unit := modify toFrozen

/-- All of the code, as readers get it: the copy, if there is one. -/
def visibleCode (st : Storage) : Array UInt8 := st.frozenCode.getD st.code

def visibleConstants (st : Storage) : Array Value := st.frozenConstants.getD st.constants

def cursorAt (offset : Int) : StorageM StoredCursor := do
  let st ← get
  if st.isSealed then return ⟨st.visibleCode, offset⟩ else throw (.argument .openChunk)

def baseCursor : StorageM StoredCursor := do
  freeze
  cursorAt 0

/-! ## Lookups -/

/-- What an array has at an offset; negative ones count from its end. -/
def lookAt {α : Type} (a : Array α) (offset : Int) : Except Fault α :=
  let place := if offset < 0 then offset + a.size else offset
  if place < 0 then .error .offsetRange
  else match a[place.toNat]? with
    | some x => .ok x
    | none => .error .offsetRange

def byteAt (st : Storage) (offset : Int) : Except Fault UInt8 := lookAt st.code offset

def lineAt (st : Storage) (offset : Int) : Except Fault Int := lookAt st.lines offset

def constantAt (st : Storage) (index : Int) : Except Fault Value :=
  if index < 0 then .error (.bytecode (.constantIndex index st.constants.size))
  else match st.constants[index.toNat]? with
    | some v => .ok v
    | none => .error (.bytecode (.constantIndex index st.constants.size))

end Storage

/-- The byte that a cursor looks at. -/
def StoredCursor.byte (k : StoredCursor) : Except Fault UInt8 := Storage.lookAt k.code k.offset

end LoxMachine
