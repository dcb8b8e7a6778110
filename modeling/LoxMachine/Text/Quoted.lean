import LoxMachine.Text.Printable
import LoxMachine.Text.Str

/-!
# Quoted text

A text is quoted for messages and for texts inside of lists: between single quotes, or double
quotes if it has single quotes and no double ones. The quote and the backslash are escaped by a
backslash, tab and line ends have short escapes, and every other unprintable character and every
surrogate is written by its code point in hexadecimal.
-/

namespace LoxMachine.Text

/-- The digits of `n` in base 16, at least `width` of them. -/
def hex (width n : Nat) : List Char := (Nat.toDigits 16 n).leftpad width '0'

/-- The escape of a surrogate. -/
def escapeSurrogate (index : Fin 0x800) : List Char := '\\' :: 'u' :: hex 4 (0xd800 + index)

/-- Double quotes only where they save the escapes. -/
def chooseQuote (s : Str) : Char :=
  if s.contains (.char '\'') && !s.contains (.char '"') then '"' else '\''

def quoteChar (quote c : Char) : List Char :=
  if c = quote ∨ c = '\\' then ['\\', c]
  else if c = '\n' then ['\\', 'n']
  else if c = '\r' then ['\\', 'r']
  else if c = '\t' then ['\\', 't']
  else if isPrintable c then [c]
  else if c.toNat < 0x100 then '\\' :: 'x' :: hex 2 c.toNat
  else if c.toNat < 0x10000 then '\\' :: 'u' :: hex 4 c.toNat
  else '\\' :: 'U' :: hex 8 c.toNat

def quotePoint (quote : Char) : CodePoint → List Char
  | .char c => quoteChar quote c
  | .surrogate index => escapeSurrogate index

def quote (s : Str) : List Char :=
  let q := chooseQuote s
  q :: s.flatMap (quotePoint q) ++ [q]

def quoted (s : Str) : String := String.ofList (quote s)

/-- A string as the error stream shows it, which writes surrogates by their escapes. -/
def unquoted (s : Str) : String :=
  String.ofList <| s.flatMap fun
    | .char c => [c]
    | .surrogate index => escapeSurrogate index

end LoxMachine.Text
