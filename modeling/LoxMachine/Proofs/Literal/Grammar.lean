import LoxMachine.Proofs.Json.Scalar
import LoxMachine.Proofs.Literal
import LoxMachine.Proofs.Value.Overflow

/-!
# The grammar of a literal

A literal is `nil`, any text between two single quotes, or the JSON text of a value that is neither
a list nor a record. A whole number is rounded, and what it is rounded to has to be finite. `Spells`
is that grammar, said without the reader.

    read text = .ok v ↔ Spells (strip text) v                                  (read_eq_ok_iff)
-/

namespace LoxMachine.Literal

open Text

/-- The literals, which have no blanks at their ends, and their values. -/
inductive Spells : List Char → Value → Prop
  | nil : Spells ['n', 'i', 'l'] .nil
  | quoted (s : List Char) : Spells ('\'' :: (s ++ ['\''])) (.str (.ofChars (unescape s)))
  | json {s : List Char} {v : Value} (h : Json.Scalar s v) (hv : v.IsLox) : Spells s v
  | whole {s : List Char} {i : Int} {x : Binary64} (h : Json.Scalar s (.int i))
      (hx : Binary64.ofInt? i = some x) : Spells s (.num x)

/-! ## Tokens -/

theorem betweenQuotes?_eq_some_iff {token s : List Char} :
    betweenQuotes? token = some s ↔ token = '\'' :: (s ++ ['\'']) := by
  constructor
  · intro h
    unfold betweenQuotes? at h
    split at h
    · split at h
      · next hlast =>
        obtain ⟨t, rfl⟩ := List.getLast?_eq_some_iff.mp hlast
        cases h
        rw [List.dropLast_concat]
      · cases h
    · cases h
  · rintro rfl
    rw [betweenQuotes?, List.getLast?_concat, if_pos rfl, List.dropLast_concat]

/-- A token is read in one of three ways. -/
theorem ofToken_eq_ok_iff {token : List Char} {v : Value} :
    ofToken token = .ok v ↔ (token = ['n', 'i', 'l'] ∧ v = .nil) ∨
      (∃ s, token = '\'' :: (s ++ ['\'']) ∧ v = .str (.ofChars (unescape s))) ∨
      ∃ w, Json.read token = .ok w ∧ w.toConstant = .ok v := by
  simp only [← betweenQuotes?_eq_some_iff]
  unfold ofToken
  by_cases hempty : token = []
  · subst hempty
    rw [if_pos rfl]
    constructor
    · nofun
    · rintro (⟨h, -⟩ | ⟨s, h, -⟩ | ⟨w, h, -⟩) <;> cases h
  by_cases hnil : token = ['n', 'i', 'l']
  · subst hnil
    rw [if_neg hempty, if_pos rfl]
    constructor
    · intro h
      cases h
      exact .inl ⟨rfl, rfl⟩
    · rintro (⟨-, rfl⟩ | ⟨s, h, -⟩ | ⟨w, h, -⟩)
      · rfl
      · cases h
      · cases h
  rw [if_neg hempty, if_neg hnil]
  cases hquotes : betweenQuotes? token with
  | some s =>
    simp only [hnil, not_json_of_betweenQuotes? hquotes, false_and, exists_false, or_false,
      false_or, Except.ok.injEq, Option.some.injEq, exists_eq_left', eq_comm]
  | none =>
    simp only [hnil, reduceCtorEq, false_and, exists_false, false_or]
    cases hjson : Json.read token with
    | ok w => simp
    | error e => cases e <;> simp

/-- From a single quote on, a token goes on to another one at its end. -/
theorem ofToken_quote_eq_ok_iff {r : List Char} {v : Value} :
    ofToken ('\'' :: r) = .ok v ↔ ∃ s, r = s ++ ['\''] ∧ v = .str (.ofChars (unescape s)) := by
  rw [ofToken_eq_ok_iff]
  simp [not_json_of_quote]

/-- A text that starts with a single quote is read up to a quote with nothing but blanks after
it. -/
theorem read_quote_eq_ok_iff {r : List Char} {v : Value} :
    read ('\'' :: r) = .ok v ↔
      ∃ s b, Blanks b ∧ r = s ++ '\'' :: b ∧ v = .str (.ofChars (unescape s)) := by
  constructor
  · intro h
    obtain ⟨b, hb, hr⟩ := exists_blanks_strip ('\'' :: r)
    rw [skipBlanks_eq_self (by rintro c ⟨⟩; decide)] at hr
    unfold read at h
    generalize strip ('\'' :: r) = token at h hr
    cases token with
    | nil => cases h
    | cons c t =>
      obtain ⟨rfl, rfl⟩ := List.cons.inj hr
      obtain ⟨s, rfl, hv⟩ := ofToken_quote_eq_ok_iff.mp h
      exact ⟨s, b, hb, by simp, hv⟩
  · rintro ⟨s, b, hb, rfl, hv⟩
    have htext : '\'' :: (s ++ '\'' :: b) = [] ++ ('\'' :: s ++ ['\'']) ++ b := by simp
    have htrimmed : Trimmed ('\'' :: s ++ ['\'']) := trimmed_of_ends (by decide) s
    rw [read, htext, strip_surrounded (b := []) (fun _ h => by cases h) htrimmed hb]
    exact ofToken_quote_eq_ok_iff.mpr ⟨s, rfl, hv⟩

/-! ## Grammar -/

theorem ofToken_eq_ok_iff_spells {token : List Char} {v : Value} (htoken : Trimmed token) :
    ofToken token = .ok v ↔ Spells token v := by
  rw [ofToken_eq_ok_iff]
  constructor
  · rintro (⟨rfl, rfl⟩ | ⟨s, rfl, rfl⟩ | ⟨w, hw, hv⟩)
    · exact .nil
    · exact .quoted s
    · rcases Value.toConstant_eq_ok_iff.mp hv with ⟨rfl, hlox⟩ | ⟨i, x, rfl, hx, rfl⟩
      · exact .json ((Json.read_eq_ok_iff htoken (Json.isScalar_of_isLox hlox)).mp hw) hlox
      · exact .whole ((Json.read_eq_ok_iff (v := .int i) htoken trivial).mp hw) hx
  · intro h
    cases h with
    | nil => exact .inl ⟨rfl, rfl⟩
    | quoted s => exact .inr (.inl ⟨s, rfl, rfl⟩)
    | json h hv =>
      exact .inr (.inr ⟨v, (Json.read_eq_ok_iff htoken (Json.isScalar_of_isLox hv)).mpr h,
        Value.toConstant_of_isLox hv⟩)
    | @whole _ i _ h hx =>
      exact .inr (.inr ⟨_, (Json.read_eq_ok_iff (v := .int i) htoken trivial).mpr h,
        Value.toConstant_eq_ok_iff.mpr (.inr ⟨_, _, rfl, hx, rfl⟩)⟩)

/-- **Literals.** A text is read as the literal that it spells. -/
theorem read_eq_ok_iff {text : List Char} {v : Value} :
    read text = .ok v ↔ Spells (strip text) v :=
  ofToken_eq_ok_iff_spells (trimmed_strip text)

/-- A literal is out of range as a whole number. -/
theorem read_eq_numberRange_iff_scalar {text : List Char} : read text = .error .numberRange ↔
    ∃ i, Json.Scalar (strip text) (.int i) ∧ (Value.int i).Overflows := by
  rw [read_eq_numberRange_iff]
  have hscalar (i : Int) := Json.read_eq_ok_iff (v := .int i) (trimmed_strip text) trivial
  constructor
  · rintro ⟨v, hv, hover⟩
    obtain ⟨i, h⟩ : ∃ i, v = .int i := by
      cases hover
      exact ⟨_, rfl⟩
    subst h
    exact ⟨i, (hscalar i).mp hv, hover⟩
  · rintro ⟨i, hi, hover⟩
    exact ⟨.int i, (hscalar i).mpr hi, hover⟩

end LoxMachine.Literal
