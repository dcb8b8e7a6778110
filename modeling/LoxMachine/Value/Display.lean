import LoxMachine.Number.Notation
import LoxMachine.Text.Quoted
import LoxMachine.Value

/-!
# The two texts of a value

`display?` is how a program's output shows a value: strings as they are, numbers without a
fraction as whole numbers. `inspect` is how messages show it, and how lists and records show
what they hold: strings quoted, numbers in their written form.
-/

namespace LoxMachine.Value

/-! ## Inspection -/

mutual

def inspect : Value → String
  | nil => "None"
  | bool true => "True"
  | bool false => "False"
  | int i => String.ofList (Numeral.ofInt i)
  | num x => String.ofList (x.written Binary64.displayWords)
  | str s => Text.quoted s
  | list items => "[" ++ ", ".intercalate (inspectItems items) ++ "]"
  | dict entries => "\x7b" ++ ", ".intercalate (inspectEntries entries) ++ "\x7d"

def inspectItems : List Value → List String
  | [] => []
  | v :: vs => inspect v :: inspectItems vs

def inspectEntries : List (Str × Value) → List String
  | [] => []
  | (key, v) :: es => (Text.quoted key ++ ": " ++ inspect v) :: inspectEntries es

end

/-- A string as it is, any other value as it is inspected. -/
def plain : Value → Str
  | str s => s
  | v => inspect v

/-! ## Display -/

/-- A number without a fraction is shown by its digits alone, minus zero as zero. -/
def displayNumber (x : Binary64) : String :=
  String.ofList <| match x.toInt? with
    | some i => Numeral.ofInt i
    | none => x.written Binary64.displayWords

/-- The displayed text. Whole numbers are shown as the nearest binary64, and those beyond its
range have no text. -/
def display? : Value → Option Str
  | nil => some "nil"
  | bool b => some (if b then "true" else "false")
  | int i => (Binary64.ofInt? i).map fun x => displayNumber x
  | num x => some (displayNumber x)
  | v => some v.plain

/-! ## Lemmas -/

theorem display?_isSome_of_isLox {v : Value} (h : v.IsLox) : v.display?.isSome := by
  cases v <;> simp_all [IsLox, display?]

end LoxMachine.Value
