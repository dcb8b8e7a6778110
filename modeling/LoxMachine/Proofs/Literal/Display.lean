import LoxMachine.Proofs.Literal.Grammar
import LoxMachine.Proofs.Number.Whole

/-!
# Displayed values are read back

What is displayed of nil, of a boolean and of a finite number is a literal, which is read as an
equal value. A number without a fraction is displayed by the digits of the integer that it equals,
and that integer is read and rounded; any other number is displayed in its written form, which JSON
has too.

    v.IsSimple → ∃ text, Told v text                                   (exists_told_of_isSimple)

Since one text is read as one value, no two of these values are displayed alike, unless they are
equal.
-/

namespace LoxMachine

namespace Value

/-! ## Equality -/

/-- nil, booleans and finite numbers. -/
inductive IsSimple : Value → Prop
  | nil : IsSimple nil
  | bool (b : Bool) : IsSimple (bool b)
  | finite (negative : Bool) (rank : Fin (2047 * 2 ^ 52)) : IsSimple (num (.finite negative rank))

/-- Values of one kind that are equal. Minus zero equals zero. -/
inductive Equals : Value → Value → Prop
  | nil : Equals nil nil
  | bool (b : Bool) : Equals (bool b) (bool b)
  | num {x y : Binary64} (h : x.Equals y) : Equals (num x) (num y)

theorem Equals.symm {v w : Value} (h : v.Equals w) : w.Equals v := by
  cases h with
  | nil => exact .nil
  | bool b => exact .bool b
  | num h => exact .num h.symm

theorem Equals.trans {u v w : Value} (h : u.Equals v) (h' : v.Equals w) : u.Equals w := by
  cases h with
  | nil | bool _ => exact h'
  | num h =>
    cases h' with
    | num h' => exact .num (h.trans h')

/-! ## Display -/

theorem displayNumber_of_toInt? {x : Binary64} {i : Int} (h : x.toInt? = some i) :
    displayNumber x = String.ofList (Numeral.ofInt i) := by
  rw [displayNumber, h]

theorem displayNumber_of_toInt?_eq_none {s : Bool} {r : Fin (2047 * 2 ^ 52)}
    (h : (Binary64.finite s r).toInt? = none) :
    displayNumber (.finite s r) = String.ofList (Json.write 0 (.num (.finite s r))) := by
  rw [displayNumber, h]
  rfl

theorem displayNumber_of_equals {x y : Binary64} (h : x.Equals y) :
    displayNumber x = displayNumber y := by
  cases hx : x.toInt? with
  | some i =>
    have hy : y.toInt? = some i := by rw [← h.toInt?_eq, hx]
    rw [displayNumber_of_toInt? hx, displayNumber_of_toInt? hy]
  | none => rw [h.eq_of_toInt?_eq_none hx]

/-- Equal values are displayed alike. -/
theorem Equals.display?_eq {v w : Value} (h : v.Equals w) : v.display? = w.display? := by
  cases h with
  | nil | bool _ => rfl
  | num h => rw [display?, display?, displayNumber_of_equals h]

end Value

namespace Literal

open Text

/-! ## Whole numbers -/

/-- The digits of an integer spell it. -/
theorem scalar_ofInt {i : Int} (h : (Numeral.ofNat i.natAbs).length ≤ Numeral.maxDigits) :
    Json.Scalar (Numeral.ofInt i) (.int i) := by
  obtain ⟨t, ht, htext⟩ := Json.exists_scalar_of_readPlain (Json.readPlain_ofInt (r := []) nofun h)
  rw [List.append_nil, List.append_nil] at htext
  rwa [htext]

/-- A whole number is displayed by the digits of an integer. They are few enough to be read, and
the integer is in range. -/
structure Whole (x : Binary64) (i : Int) (text : String) : Prop where
  digits : text = String.ofList (Numeral.ofInt i)
  length : (Numeral.ofNat i.natAbs).length ≤ 309
  json : Json.read text.toList = .ok (.int i)
  rounds : ∃ y, Binary64.ofInt? i = some y ∧ y.Equals x

theorem whole_displayNumber {x : Binary64} {i : Int} (h : x.toInt? = some i) :
    Whole x i (Value.displayNumber x) := by
  obtain ⟨y, hy, hequals⟩ := Binary64.exists_ofInt?_of_toInt? h
  have hlength := Binary64.length_ofNat_le hy
  have hscalar := scalar_ofInt (Nat.le_trans hlength (by decide))
  have htrimmed : Trimmed (Numeral.ofInt i) := (Json.numberText_ofInt i).isWord.trimmed
  refine ⟨Value.displayNumber_of_toInt? h, hlength, ?_, y, hy, hequals⟩
  rw [Value.displayNumber_of_toInt? h, String.toList_ofList]
  exact (Json.read_eq_ok_iff (v := .int i) htrimmed trivial).mpr hscalar

theorem Whole.read_eq {x y : Binary64} {i : Int} {text : String} (h : Whole x i text)
    (hy : Binary64.ofInt? i = some y) : read text.toList = .ok (.num y) := by
  have hscalar := scalar_ofInt (Nat.le_trans h.length (by decide))
  have htrimmed : Trimmed (Numeral.ofInt i) := (Json.numberText_ofInt i).isWord.trimmed
  rw [h.digits, String.toList_ofList, read_eq_ok_iff, htrimmed.strip_eq]
  exact .whole hscalar hy

/-! ## Reading -/

/-- **Numbers.** A finite number is read back from its displayed text. -/
theorem exists_read_displayNumber (s : Bool) (r : Fin (2047 * 2 ^ 52)) :
    ∃ y, read (Value.displayNumber (.finite s r)).toList = .ok (.num y) ∧
      y.Equals (.finite s r) := by
  cases h : (Binary64.finite s r).toInt? with
  | some i =>
    have hwhole := whole_displayNumber h
    obtain ⟨y, hy, hequals⟩ := hwhole.rounds
    exact ⟨y, hwhole.read_eq hy, hequals⟩
  | none =>
    refine ⟨.finite s r, ?_, .refl_finite s r⟩
    rw [Value.displayNumber_of_toInt?_eq_none h, String.toList_ofList]
    exact (Denotes.written (v := .num (.finite s r)) trivial trivial).read_eq

theorem exists_read_of_isSimple {v : Value} (hv : v.IsSimple) :
    ∃ (text : String) (w : Value), v.display? = some (text : Str) ∧ read text.toList = .ok w ∧
      w.Equals v := by
  cases hv with
  | nil => exact ⟨"nil", .nil, rfl, by decide, .nil⟩
  | bool b =>
    cases b with
    | false => exact ⟨"false", .bool false, rfl, by decide, .bool false⟩
    | true => exact ⟨"true", .bool true, rfl, by decide, .bool true⟩
  | finite s r =>
    obtain ⟨y, hread, hequals⟩ := exists_read_displayNumber s r
    exact ⟨_, .num y, rfl, hread, .num hequals⟩

/-- Values that are displayed alike are equal to the one that the text is read as. -/
theorem equals_of_display?_eq {v w : Value} (hv : v.IsSimple) (hw : w.IsSimple)
    (h : v.display? = w.display?) : v.Equals w := by
  obtain ⟨text, u, htext, hread, hequals⟩ := exists_read_of_isSimple hv
  obtain ⟨text', u', htext', hread', hequals'⟩ := exists_read_of_isSimple hw
  obtain rfl : text = text' := by
    rw [htext, htext'] at h
    exact Str.coe_inj.mp (Option.some.inj h)
  obtain rfl : u = u' := by
    rw [hread] at hread'
    exact Except.ok.inj hread'
  exact hequals.symm.trans hequals'

/-- What the displayed text of a value tells. -/
structure Told (v : Value) (text : String) : Prop where
  display : v.display? = some (text : Str)
  reads : ∃ w, read text.toList = .ok w ∧ w.Equals v
  unique : ∀ w : Value, w.IsSimple → (w.display? = some (text : Str) ↔ w.Equals v)
  whole : ∀ x i, v = .num x → x.signedUnits? = some (Binary64.one * i) → Whole x i text

/-- **Display.** The displayed text of nil, of a boolean and of a finite number is read as an equal
value, and belongs to no other one. -/
theorem exists_told_of_isSimple {v : Value} (hv : v.IsSimple) : ∃ text, Told v text := by
  obtain ⟨text, u, htext, hread, hequals⟩ := exists_read_of_isSimple hv
  refine ⟨text, htext, ⟨u, hread, hequals⟩, ?_, ?_⟩
  · intro w hw
    constructor
    · intro h
      exact equals_of_display?_eq hw hv (h.trans htext.symm)
    · intro h
      rw [h.display?_eq, htext]
  · rintro x i rfl hx
    obtain rfl := Str.coe_inj.mp (Option.some.inj htext)
    exact whole_displayNumber (Binary64.toInt?_eq_some_iff.mpr hx)

/-- A negative number whose digits are more than its written form shows. -/
theorem told_minus_1e22 :
    let v : Value := .num (.finite true 4936209963552724370)
    v.IsSimple ∧ Told v "-10000000000000000000000" := by
  intro v
  refine ⟨.finite true _, ?_⟩
  obtain ⟨text, h⟩ := exists_told_of_isSimple (.finite true 4936209963552724370)
  have htext : v.display? = some ("-10000000000000000000000" : Str) := by decide +kernel
  obtain rfl := Str.coe_inj.mp (Option.some.inj (htext.symm.trans h.display))
  exact h

/-- Minus zero is displayed as zero. -/
example : Value.displayNumber (.finite true 0) = "0" := by decide +kernel

end Literal
end LoxMachine
