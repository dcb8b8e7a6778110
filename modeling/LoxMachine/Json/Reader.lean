import LoxMachine.Json.Number
import LoxMachine.Json.Quoted

/-!
# Reading JSON

`read` turns a whole text into a value. Besides the numbers of the grammar it takes `NaN`,
`Infinity` and `-Infinity`; of several entries with one key the last value counts, at the place
of the first. Lists and records may be nested to any depth: that a text is refused once they are too
deep for the stack of the reader (some thousand levels) is not modelled.

## Algorithm

`readValue`, `readItems` and `readEntries` descend into the text. Their first argument bounds
the depth of the descent; each call below a call that has read a character costs at most two, so
twice the length of the text is enough (`read`).
-/

namespace LoxMachine.Json

def isBlank (c : Char) : Bool := c = ' ' || c = '\t' || c = '\n' || c = '\r'

def skipBlanks (s : List Char) : List Char := s.dropWhile isBlank

/-- The values that are written as a word. -/
def words : List (List Char × Value) :=
  [("null".toList, .nil), ("true".toList, .bool true), ("false".toList, .bool false),
   ("NaN".toList, .num .nan), ("Infinity".toList, .num (.infinite false)),
   ("-Infinity".toList, .num (.infinite true))]

/-- The word at the start of a text, and what follows it. -/
def readWord? (s : List Char) : Option (Value × List Char) :=
  words.findSome? fun (word, v) => (word.isPrefixOf? s).map fun r => (v, r)

/-- A word or a number. -/
def readPlain (s : List Char) : Except Fault (Value × List Char) :=
  match readWord? s with
  | some found => .ok found
  | none => match Number.scan s with
    | some (n, r) => return (← n.toValue, r)
    | none => .error (.syntaxFault .expectingValue s.length)

/-- Sets a key's value: in place if the key is there, else at the end. -/
def setEntry (key : Str) (v : Value) : List (Str × Value) → List (Str × Value)
  | [] => [(key, v)]
  | (k, w) :: es => if k = key then (k, v) :: es else (k, w) :: setEntry key v es

/-- The record of entries in the order in which they were read. -/
def record (entries : List (Str × Value)) : List (Str × Value) :=
  entries.foldl (fun es e => setEntry e.1 e.2 es) []

mutual

def readValue (depth : Nat) (s : List Char) : Except Fault (Value × List Char) :=
  match depth with
  | 0 => .error (.syntaxFault .expectingValue s.length)
  | depth + 1 =>
    match s with
    | '"' :: r => do
      let (t, rest) ← readString r
      return (.str t, rest)
    | '[' :: r =>
      match skipBlanks r with
      | ']' :: rest => .ok (.list [], rest)
      | r => do
        let (items, rest) ← readItems depth r
        return (.list items, rest)
    | '{' :: r =>
      match skipBlanks r with
      | '}' :: rest => .ok (.dict [], rest)
      | r => do
        let (entries, rest) ← readEntries depth r
        return (.dict (record entries), rest)
    | s => readPlain s

/-- One or more items up to the closing bracket. -/
def readItems (depth : Nat) (s : List Char) : Except Fault (List Value × List Char) :=
  match depth with
  | 0 => .error (.syntaxFault .expectingValue s.length)
  | depth + 1 => do
    let (v, r) ← readValue depth s
    match skipBlanks r with
    | ']' :: rest => return ([v], rest)
    | ',' :: r => do
      let (vs, rest) ← readItems depth (skipBlanks r)
      return (v :: vs, rest)
    | r => .error (.syntaxFault .expectingComma r.length)

/-- One or more entries up to the closing brace. -/
def readEntries (depth : Nat) (s : List Char) :
    Except Fault (List (Str × Value) × List Char) :=
  match depth with
  | 0 => .error (.syntaxFault .expectingName s.length)
  | depth + 1 =>
    match s with
    | '"' :: r => do
      let (key, r) ← readString r
      match skipBlanks r with
      | ':' :: r => do
        let (v, r) ← readValue depth (skipBlanks r)
        match skipBlanks r with
        | '}' :: rest => return ([(key, v)], rest)
        | ',' :: r => do
          let (es, rest) ← readEntries depth (skipBlanks r)
          return ((key, v) :: es, rest)
        | r => .error (.syntaxFault .expectingComma r.length)
      | r => .error (.syntaxFault .expectingColon r.length)
    | s => .error (.syntaxFault .expectingName s.length)

end

/-- Reads a value and requires that only blanks surround it. -/
def readText (s : List Char) : Except Fault Value :=
  match s with
  | '\ufeff' :: _ => .error (.syntaxFault .byteOrderMark s.length)
  | _ => do
    let (v, r) ← readValue (2 * s.length + 1) (skipBlanks s)
    match skipBlanks r with
    | [] => return v
    | r => .error (.syntaxFault .extraData r.length)

/-- What a text is refused for, its place worked out. -/
inductive Error where
  | badSyntax (e : SyntaxError)
  | tooManyDigits (count : Nat)
  deriving DecidableEq

def Error.ofFault (text : List Char) : Fault → Error
  | .syntaxFault reason left => .badSyntax (.locate text reason left)
  | .tooManyDigits count => .tooManyDigits count

def read (text : List Char) : Except Error Value :=
  (readText text).mapError (.ofFault text)

end LoxMachine.Json
