import LoxMachine.Json.Fault
import LoxMachine.Text.Quoted

/-!
# JSON strings

Written strings are ASCII: quotes, backslashes and five control characters have short escapes,
and every other character outside of U+0020 to U+007E is written by its UTF-16 code units, one
`\uXXXX` escape each. A reader accepts any character from U+0020 on, and joins an escaped high
surrogate with the escaped low one after it; any other surrogate stays alone.
-/

namespace LoxMachine.Json

/-! ## Writing -/

/-- The UTF-16 code units of a character. -/
def codeUnits (c : Char) : List Nat :=
  let n := c.toNat
  if n < 0x10000 then [n] else [0xd800 + (n - 0x10000) / 0x400, 0xdc00 + (n - 0x10000) % 0x400]

def encodeChar (c : Char) : List Char :=
  match c with
  | '"' => ['\\', '"']
  | '\\' => ['\\', '\\']
  | '\x08' => ['\\', 'b']
  | '\x0c' => ['\\', 'f']
  | '\n' => ['\\', 'n']
  | '\r' => ['\\', 'r']
  | '\t' => ['\\', 't']
  | c =>
    if 0x20 ≤ c.toNat ∧ c.toNat ≤ 0x7e then [c]
    else (codeUnits c).flatMap fun u => '\\' :: 'u' :: Text.hex 4 u

def encodePoint : CodePoint → List Char
  | .char c => encodeChar c
  | .surrogate index => Text.escapeSurrogate index

def encode (s : Str) : List Char := '"' :: s.flatMap encodePoint ++ ['"']

/-! ## Reading -/

/-- What a string is spelled with: characters, and code units given by `\uXXXX` escapes. -/
inductive Piece where
  | char (c : Char)
  | unit (u : Nat)

def hexValue? (c : Char) : Option Nat :=
  if '0' ≤ c ∧ c ≤ '9' then some (c.toNat - 48)
  else if 'a' ≤ c ∧ c ≤ 'f' then some (c.toNat - 87)
  else if 'A' ≤ c ∧ c ≤ 'F' then some (c.toNat - 55)
  else none

def unit? (a b c d : Char) : Option Nat := do
  return (((← hexValue? a) * 16 + (← hexValue? b)) * 16 + (← hexValue? c)) * 16 + (← hexValue? d)

/-- What the character after a backslash stands for. -/
def shortEscape? : Char → Option Char
  | '"' => some '"'
  | '\\' => some '\\'
  | '/' => some '/'
  | 'b' => some '\x08'
  | 'f' => some '\x0c'
  | 'n' => some '\n'
  | 'r' => some '\r'
  | 't' => some '\t'
  | _ => none

/-- Reads up to the closing quote. The text has `start` characters from the opening quote on. An
`\uXXXX` escape is good only if another character follows it. -/
def readPieces (start : Nat) : List Char → Except Fault (List Piece × List Char)
  | [] => .error (.syntaxFault .unterminatedString start)
  | '"' :: r => .ok ([], r)
  | '\\' :: [] => .error (.syntaxFault .unterminatedString start)
  | '\\' :: 'u' :: a :: b :: c :: d :: e :: r =>
    match unit? a b c d with
    | none => .error (.syntaxFault .badUnicodeEscape (r.length + 6))
    | some u => do
      let (pieces, rest) ← readPieces start (e :: r)
      return (.unit u :: pieces, rest)
  | '\\' :: 'u' :: r => .error (.syntaxFault .badUnicodeEscape (r.length + 1))
  | '\\' :: c :: r =>
    match shortEscape? c with
    | none => .error (.syntaxFault .badEscape (r.length + 2))
    | some x => do
      let (pieces, rest) ← readPieces start r
      return (.char x :: pieces, rest)
  | c :: r =>
    if c.toNat < 0x20 then .error (.syntaxFault .controlCharacter (r.length + 1))
    else do
      let (pieces, rest) ← readPieces start r
      return (.char c :: pieces, rest)

def isHighSurrogate (u : Nat) : Bool := 0xd800 ≤ u && u < 0xdc00

def isLowSurrogate (u : Nat) : Bool := 0xdc00 ≤ u && u < 0xe000

/-- The code point of a code unit that stands alone. -/
def loneUnit (u : Nat) : CodePoint :=
  if h : 0xd800 ≤ u ∧ u < 0xe000 then .surrogate ⟨u - 0xd800, by omega⟩ else .char (Char.ofNat u)

def joinPieces : List Piece → Str
  | .unit h :: .unit l :: r =>
    if isHighSurrogate h && isLowSurrogate l then
      .char (Char.ofNat (0x10000 + (h - 0xd800) * 0x400 + (l - 0xdc00))) :: joinPieces r
    else loneUnit h :: joinPieces (.unit l :: r)
  | .unit u :: r => loneUnit u :: joinPieces r
  | .char c :: r => .char c :: joinPieces r
  | [] => []

/-- Reads a string whose opening quote has just been read. -/
def readString (s : List Char) : Except Fault (Str × List Char) := do
  let (pieces, rest) ← readPieces (s.length + 1) s
  return (joinPieces pieces, rest)

end LoxMachine.Json
