import LoxMachine.Fault

/-!
# Constants

Pools are filled with nil, booleans, strings and binary64 numbers: `toConstant` rounds a whole
number to one and refuses lists and records.
-/

namespace LoxMachine.Value

/-- The constant that a value is kept as. -/
def toConstant : Value → Except Fault Value
  | nil => .ok nil
  | bool b => .ok (bool b)
  | str s => .ok (str s)
  | num x => .ok (num x)
  | int i => match Binary64.ofInt? i with
    | some x => .ok (num x)
    | none => .error .numberRange
  | v => .error (.argument (.unsupported v))

/-- The displayed text, or the fault of a whole number that has none. -/
def display (v : Value) : Except Fault Str :=
  match v.display? with
  | some text => .ok text
  | none => .error .numberRange

/-! ## Lemmas -/

theorem isLox_of_toConstant {v w : Value} (h : v.toConstant = .ok w) : w.IsLox := by
  cases v <;> simp only [toConstant] at h <;> try contradiction
  all_goals try (cases h; trivial)
  split at h <;> cases h
  trivial

theorem toConstant_of_isLox {v : Value} (h : v.IsLox) : v.toConstant = .ok v := by
  cases v <;> first | rfl | exact h.elim

end LoxMachine.Value
