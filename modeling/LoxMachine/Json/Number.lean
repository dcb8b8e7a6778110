import LoxMachine.Json.Fault
import LoxMachine.Number.Decimal
import LoxMachine.Number.Numeral
import LoxMachine.Value

/-!
# JSON numbers

    -? (0 | [1-9][0-9]*) (. [0-9]+)? ([eE] [+-]? [0-9]+)?

The longest match is taken: a point or an exponent mark with no digit after it is left alone.
A number without fraction and exponent is a whole number, any other is rounded to binary64.
-/

namespace LoxMachine.Json

open Numeral (isDigit spanDigits toNat)

/-- The parts of a number; no fraction is an empty one. -/
structure Number where
  negative : Bool
  whole : List Char
  fraction : List Char
  exponent : Option Int
  deriving DecidableEq

namespace Number

/-- A zero, or digits that do not begin with one. -/
def scanWhole : List Char → Option (List Char × List Char)
  | '0' :: r => some (['0'], r)
  | c :: r => if isDigit c then some (spanDigits (c :: r)) else none
  | [] => none

def scanFraction (s : List Char) : List Char × List Char :=
  match s with
  | '.' :: r => match spanDigits r with
    | ([], _) => ([], s)
    | found => found
  | _ => ([], s)

/-- The digits of an exponent after its sign. -/
def scanExponentDigits (negative : Bool) (s : List Char) : Option (Int × List Char) :=
  match spanDigits s with
  | ([], _) => none
  | (digits, r) => some (if negative then -(toNat digits : Int) else toNat digits, r)

def scanExponent (s : List Char) : Option Int × List Char :=
  let found := match s with
    | c :: r =>
      if c = 'e' ∨ c = 'E' then match r with
        | '-' :: r' => scanExponentDigits true r'
        | '+' :: r' => scanExponentDigits false r'
        | r' => scanExponentDigits false r'
      else none
    | [] => none
  match found with
  | some (e, r) => (some e, r)
  | none => (none, s)

/-- The longest number at the start of a text, and what follows it. -/
def scan (s : List Char) : Option (Number × List Char) := do
  let (negative, s) := match s with
    | '-' :: r => (true, r)
    | r => (false, r)
  let (whole, s) ← scanWhole s
  let (fraction, s) := scanFraction s
  let (exponent, s) := scanExponent s
  return (⟨negative, whole, fraction, exponent⟩, s)

def isWhole (n : Number) : Bool := n.fraction.isEmpty && n.exponent.isNone

def toDecimal (n : Number) : Decimal :=
  ⟨toNat (n.whole ++ n.fraction), n.exponent.getD 0 - n.fraction.length⟩

def toValue (n : Number) : Except Fault Value :=
  if n.isWhole then
    if Numeral.maxDigits < n.whole.length then .error (.tooManyDigits n.whole.length)
    else .ok (.int (if n.negative then -(toNat n.whole : Int) else toNat n.whole))
  else .ok (.num (n.toDecimal.toBinary64 n.negative))

end Number
end LoxMachine.Json
