import LoxMachine.Literal
import LoxMachine.Proofs.Number.Rank

/-!
# Numbers that are no constants

A whole number that is rounded beyond the range of binary64 is kept as no constant. Its fault is no
defect of bytecode, so nobody reports it, be the number an item of a document or a literal.

    Literal.read text = .error .numberRange ↔
      ∃ v, Json.read (strip text) = .ok v ∧ v.Overflows     (Literal.read_eq_numberRange_iff)
-/

namespace LoxMachine

/-- The faults that the command line reports. -/
def Fault.IsReported : Fault → Prop
  | bytecode _ | runtime _ => True
  | argument _ | offsetRange | numberRange | undecodable | unbound | noSuchOpcode => False

namespace Value

/-- A whole number from the middle between the last finite magnitude and 2¹⁰²⁴ on. -/
inductive Overflows : Value → Prop
  | intro {i : Int} (h : 2 ^ 1024 - 2 ^ 970 ≤ i.natAbs) : Overflows (int i)

theorem overflows_int_iff {i : Int} : (int i).Overflows ↔ Binary64.ofInt? i = none := by
  rw [Binary64.ofInt?_eq_none_iff]
  exact ⟨fun ⟨h⟩ => h, .intro⟩

theorem toConstant_eq_numberRange_iff {v : Value} :
    v.toConstant = .error .numberRange ↔ v.Overflows := by
  cases v with
  | int i =>
    rw [overflows_int_iff]
    simp only [toConstant]
    cases Binary64.ofInt? i <;> simp
  | nil | bool _ | str _ | num _ | list _ | dict _ =>
    constructor
    · intro h
      cases h
    · intro h
      cases h

/-- A constant is kept as it is, or is a whole number that is rounded. -/
theorem toConstant_eq_ok_iff {v w : Value} : w.toConstant = .ok v ↔
    (w = v ∧ v.IsLox) ∨ ∃ i x, w = .int i ∧ Binary64.ofInt? i = some x ∧ v = .num x := by
  cases w with
  | nil | bool _ | num _ | str _ =>
    simp only [toConstant, Except.ok.injEq, reduceCtorEq, false_and, exists_false, or_false]
    constructor
    · rintro rfl
      exact ⟨rfl, trivial⟩
    · exact And.left
  | int i =>
    have hnot : ¬ (int i = v ∧ v.IsLox) := by
      rintro ⟨rfl, h⟩
      exact h
    simp only [toConstant, hnot, false_or]
    cases hx : Binary64.ofInt? i <;> simp [hx, eq_comm]
  | list _ | dict _ =>
    simp only [toConstant, reduceCtorEq, false_and, exists_false, or_false, false_iff]
    rintro ⟨rfl, h⟩
    exact h

/-- The two faults of values that are no constants. -/
theorem fault_of_toConstant {v : Value} {f : Fault} (h : v.toConstant = .error f) :
    f = .numberRange ∨ f = .argument (.unsupported v) := by
  cases v with
  | int i =>
    simp only [toConstant] at h
    split at h
    · cases h
    · cases h
      exact .inl rfl
  | nil | bool _ | str _ | num _ => cases h
  | list _ | dict _ =>
    cases h
    exact .inr rfl

end Value

namespace Literal

open Text

/-- A text from a single quote on is no JSON. -/
theorem not_json_of_quote {r : List Char} {v : Value} : Json.read ('\'' :: r) ≠ .ok v := by
  have hfail : Json.readText ('\'' :: r) =
      .error (.syntaxFault .expectingValue ('\'' :: r).length) := rfl
  rw [Json.read, hfail]
  nofun

theorem not_json_of_betweenQuotes? {token s : List Char} (h : betweenQuotes? token = some s)
    {v : Value} : Json.read token ≠ .ok v := by
  unfold betweenQuotes? at h
  split at h
  · exact not_json_of_quote
  · cases h

/-- A literal is out of range as a whole number of JSON. -/
theorem read_eq_numberRange_iff {text : List Char} :
    read text = .error .numberRange ↔ ∃ v, Json.read (strip text) = .ok v ∧ v.Overflows := by
  unfold read ofToken
  by_cases hnil : strip text = []
  · rw [if_pos hnil, hnil]
    exact ⟨nofun, fun ⟨v, hv, _⟩ => nomatch hv⟩
  by_cases hword : strip text = ['n', 'i', 'l']
  · rw [if_neg hnil, if_pos hword, hword]
    exact ⟨nofun, fun ⟨v, hv, _⟩ => nomatch hv⟩
  rw [if_neg hnil, if_neg hword]
  cases hquotes : betweenQuotes? (strip text) with
  | some s => exact ⟨nofun, fun ⟨v, hv, _⟩ => absurd hv (not_json_of_betweenQuotes? hquotes)⟩
  | none =>
    cases hjson : Json.read (strip text) with
    | ok v => simp [Value.toConstant_eq_numberRange_iff]
    | error e => cases e <;> simp

/-- All other faults of a literal are those of an argument. -/
theorem fault_of_read {text : List Char} {f : Fault} (h : read text = .error f) :
    f = .numberRange ∨ ∃ cause, f = .argument cause := by
  unfold read ofToken at h
  split at h
  · cases h
    exact .inr ⟨_, rfl⟩
  split at h
  · cases h
  split at h
  · cases h
  split at h
  · rcases Value.fault_of_toConstant h with h | h
    · exact .inl h
    · exact .inr ⟨_, h⟩
  · cases h
    exact .inr ⟨_, rfl⟩
  · cases h
    exact .inr ⟨_, rfl⟩

end Literal
end LoxMachine
