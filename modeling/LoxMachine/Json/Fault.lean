/-!
# What is wrong with a JSON text

A reader meets a fault at some place of its text and says how many characters are left there.
`SyntaxError.locate` turns that into a position, a line and a column: only line feeds end lines,
lines and columns count from one, positions from zero.
-/

namespace LoxMachine.Json

inductive Reason where
  | byteOrderMark
  | expectingValue
  | extraData
  | expectingName
  | expectingColon
  | expectingComma
  | unterminatedString
  | controlCharacter
  | badEscape
  | badUnicodeEscape
  deriving DecidableEq

def Reason.message : Reason → String
  | byteOrderMark => "Unexpected UTF-8 BOM (decode using utf-8-sig)"
  | expectingValue => "Expecting value"
  | extraData => "Extra data"
  | expectingName => "Expecting property name enclosed in double quotes"
  | expectingColon => "Expecting ':' delimiter"
  | expectingComma => "Expecting ',' delimiter"
  | unterminatedString => "Unterminated string starting at"
  | controlCharacter => "Invalid control character at"
  | badEscape => "Invalid \\escape"
  | badUnicodeEscape => "Invalid \\uXXXX escape"

/-- Why reading stops: bad syntax where `left` characters are left, or a whole number of more
digits than any number may have. -/
inductive Fault where
  | syntaxFault (reason : Reason) (left : Nat)
  | tooManyDigits (count : Nat)
  deriving DecidableEq

structure SyntaxError where
  reason : Reason
  position : Nat
  line : Nat
  column : Nat
  deriving DecidableEq

namespace SyntaxError

def locate (text : List Char) (reason : Reason) (left : Nat) : SyntaxError :=
  let before := text.take (text.length - left)
  { reason
    position := before.length
    line := before.count '\n' + 1
    column := (before.reverse.takeWhile (· ≠ '\n')).length + 1 }

def message (e : SyntaxError) : String :=
  s!"{e.reason.message}: line {e.line} column {e.column} (char {e.position})"

end SyntaxError
end LoxMachine.Json
