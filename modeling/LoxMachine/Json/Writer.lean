import LoxMachine.Json.Quoted
import LoxMachine.Number.Notation
import LoxMachine.Value

/-!
# Writing JSON

Every item and every entry stands on a line of its own, two blanks deeper than the brackets
around it; empty lists and records stay on one line. Numbers are in their written form, whole
numbers without a point, and the text is ASCII.
-/

namespace LoxMachine.Json

/-- The words of JSON for numbers without digits. -/
def numberWords : Binary64.Words := ⟨"NaN".toList, "Infinity".toList⟩

/-- A new line, indented for `depth` brackets. -/
def newLine (depth : Nat) : List Char := '\n' :: List.replicate (2 * depth) ' '

mutual

/-- The text of a value between `depth` brackets. -/
def write (depth : Nat) : Value → List Char
  | .nil => "null".toList
  | .bool true => "true".toList
  | .bool false => "false".toList
  | .int i => Numeral.ofInt i
  | .num x => x.written numberWords
  | .str s => encode s
  | .list [] => ['[', ']']
  | .list (v :: vs) =>
    '[' :: newLine (depth + 1) ++ write (depth + 1) v ++ writeItems (depth + 1) vs ++
      newLine depth ++ [']']
  | .dict [] => ['{', '}']
  | .dict ((key, v) :: es) =>
    '{' :: newLine (depth + 1) ++ encode key ++ ':' :: ' ' :: write (depth + 1) v ++
      writeEntries (depth + 1) es ++ newLine depth ++ ['}']

/-- The items after the first one. -/
def writeItems (depth : Nat) : List Value → List Char
  | [] => []
  | v :: vs => ',' :: newLine depth ++ write depth v ++ writeItems depth vs

/-- The entries after the first one. -/
def writeEntries (depth : Nat) : List (Str × Value) → List Char
  | [] => []
  | (key, v) :: es =>
    ',' :: newLine depth ++ encode key ++ ':' :: ' ' :: write depth v ++
      writeEntries depth es

end

end LoxMachine.Json
