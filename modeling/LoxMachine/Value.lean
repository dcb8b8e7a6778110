import LoxMachine.Number.Binary64
import LoxMachine.Text.Str

/-!
# Values

The values that constant pools, stacks and documents hold. Programs compute with nil, booleans,
binary64 numbers and strings (`IsLox`); whole numbers without bound, lists and records come from
documents and from pools filled by hand.
-/

namespace LoxMachine

inductive Value where
  | nil
  | bool (b : Bool)
  | int (i : Int)
  | num (x : Binary64)
  | str (s : Str)
  | list (items : List Value)
  | dict (entries : List (Str × Value))
  deriving Inhabited

namespace Value

/-- The values that programs compute with. -/
def IsLox : Value → Prop
  | nil | bool _ | num _ | str _ => True
  | int _ | list _ | dict _ => False

instance : DecidablePred IsLox := fun v => by cases v <;> unfold IsLox <;> infer_instance

def isNumber : Value → Bool
  | int _ | num _ => true
  | _ => false

/-- The same number with the other sign; a whole number stays one. -/
def neg? : Value → Option Value
  | int i => some (int (-i))
  | num x => some (num x.neg)
  | _ => none

/-- The integer that a value equals, if there is one; true equals 1 and false equals 0. -/
def toInt? : Value → Option Int
  | bool b => some (if b then 1 else 0)
  | int i => some i
  | num x => x.toInt?
  | _ => none

/-- The value of a key, if the record has it. -/
def lookup (entries : List (Str × Value)) (key : Str) : Option Value := entries.lookup key

/-! ## Lemmas -/

theorem neg?_isSome (v : Value) : v.neg?.isSome = v.isNumber := by
  cases v <;> rfl

/-- Changing a sign twice leads back. -/
theorem neg?_of_neg? {v w : Value} (h : v.neg? = some w) : w.neg? = some v := by
  cases v with
  | int i =>
    cases h
    show some (int (- -i)) = some (int i)
    rw [Int.neg_neg]
  | num x =>
    cases h
    cases x <;> simp [neg?, Binary64.neg]
  | nil | bool _ | str _ | list _ | dict _ => cases h

end Value
end LoxMachine
