import LoxMachine.Value

/-!
# Opcodes

An instruction is a tag byte and the operand bytes that its opcode asks for.
-/

namespace LoxMachine

inductive Opcode where
  | ret
  | negate
  | constant
  deriving DecidableEq, Inhabited

namespace Opcode

def all : List Opcode := [ret, negate, constant]

def tag : Opcode → UInt8
  | ret => 0
  | negate => 1
  | constant => 2

def name : Opcode → String
  | ret => "RETURN"
  | negate => "NEGATE"
  | constant => "CONSTANT"

/-- How listings and assembly texts write the opcode. -/
def mnemonic (op : Opcode) : String := "OP_" ++ op.name

def operandCount : Opcode → Nat
  | ret | negate => 0
  | constant => 1

/-- Tag and operands: the distance to the next instruction. -/
def width (op : Opcode) : Nat := 1 + op.operandCount

/-! ## Lookup -/

def ofByte? (b : UInt8) : Option Opcode := all.find? (·.tag = b)

def ofTag? (i : Int) : Option Opcode := all.find? fun op => (op.tag.toNat : Int) = i

/-- The opcode whose tag the value equals, be it a whole number, a binary64 or a boolean. -/
def ofValue? (v : Value) : Option Opcode := v.toInt?.bind ofTag?

/-- Finds an opcode by its mnemonic, in capitals. -/
def ofMnemonic? (s : String) : Option Opcode := all.find? (·.mnemonic = s)

/-! ## Lemmas -/

theorem ofByte?_tag (op : Opcode) : ofByte? op.tag = some op := by
  cases op <;> rfl

theorem ofByte?_eq_some_iff {b : UInt8} {op : Opcode} : ofByte? b = some op ↔ op.tag = b := by
  constructor
  · intro h
    simpa using List.find?_some h
  · rintro rfl
    exact ofByte?_tag op

theorem ofMnemonic?_mnemonic (op : Opcode) : ofMnemonic? op.mnemonic = some op := by
  cases op <;> decide

theorem width_pos (op : Opcode) : 0 < op.width := by
  show 0 < 1 + op.operandCount
  omega

end Opcode
end LoxMachine
