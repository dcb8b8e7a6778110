import LoxMachine.Literal
import LoxMachine.Proofs.Json.RoundTrip
import LoxMachine.Proofs.Text.Blank

/-!
# Literals are read back

A value that programs compute with has its JSON text as a literal, if it is no string that JSON
would join; nil is also `nil`, and a string of characters but backslashes may be put between single
quotes, with its own single quotes escaped. Each of them is read as the value.

    Denotes text v → read text = .ok v                                        (Denotes.read_eq)
-/

namespace LoxMachine.Literal

open Text

/-! ## Spelling -/

def escapeQuote (c : Char) : List Char := if c = '\'' then ['\\', '\''] else [c]

/-- A string between single quotes. -/
def quoted (s : List Char) : List Char := '\'' :: s.flatMap escapeQuote ++ ['\'']

/-- The texts that stand for a value. -/
inductive Denotes : List Char → Value → Prop
  | written {v : Value} (h : v.IsLox) (hw : Json.Writable v) : Denotes (Json.write 0 v) v
  | nil : Denotes ['n', 'i', 'l'] .nil
  | quoted {s : List Char} (h : '\\' ∉ s) : Denotes (quoted s) (.str (.ofChars s))

/-! ## Ends -/

theorem trimmed_of_ends {q : Char} (hq : isBlank q = false) (s : List Char) :
    Trimmed (q :: s ++ [q]) := by
  constructor
  · rintro c ⟨⟩
    exact hq
  · intro c hc
    rw [List.getLast?_concat] at hc
    cases hc
    exact hq

theorem bare_write {v : Value} (hv : v.IsLox) (hstr : ∀ s, v ≠ .str s) :
    Bare (Json.write 0 v) := by
  cases v with
  | nil => exact (by decide : Bare "null".toList)
  | bool b =>
    cases b with
    | true => exact (by decide : Bare "true".toList)
    | false => exact (by decide : Bare "false".toList)
  | num x => exact (Json.numberText_written x).bare
  | str s => exact absurd rfl (hstr s)
  | int _ | list _ | dict _ => exact hv.elim

theorem Denotes.ne_nil {text : List Char} {v : Value} (h : Denotes text v) : text ≠ [] := by
  cases h with
  | written _ _ =>
    obtain ⟨c, r, hw, -⟩ := Json.startsValue_write 0 v
    rw [hw]
    exact List.cons_ne_nil c r
  | nil | quoted _ => exact List.cons_ne_nil _ _

theorem Denotes.trimmed {text : List Char} {v : Value} (h : Denotes text v) : Trimmed text := by
  have hbare {s : List Char} (hne : s ≠ []) (hs : Bare s) : Trimmed s :=
    IsWord.trimmed ⟨hne, hs.noBlanks⟩
  cases id h with
  | written hv _ =>
    cases v with
    | str s => exact trimmed_of_ends (by decide) _
    | nil | bool _ | num _ | int _ | list _ | dict _ => exact hbare h.ne_nil (bare_write hv nofun)
  | nil => exact hbare h.ne_nil (by decide)
  | quoted _ => exact trimmed_of_ends (by decide) _

/-! ## Single quotes -/

theorem unescape_cons {c : Char} {s : List Char} (h : c = '\\' → s.head? ≠ some '\'') :
    unescape (c :: s) = c :: unescape s := by
  rw [unescape]
  rintro r rfl rfl
  exact h rfl rfl

/-- In an escaped text each quote has the backslash of its escape before it. -/
theorem head?_escaped_append {s r : List Char} (hr : s = [] → r.head? ≠ some '\'') :
    (s.flatMap escapeQuote ++ r).head? ≠ some '\'' := by
  cases s with
  | nil => exact hr rfl
  | cons c s =>
    rw [List.flatMap_cons]
    unfold escapeQuote
    split
    · nofun
    · next hc => simpa using hc

/-- An escaped text is read back, also if it has backslashes of its own; only the last one could
take a quote from what follows. -/
theorem unescape_escaped_append {s r : List Char}
    (hr : s.getLast? = some '\\' → r.head? ≠ some '\'') :
    unescape (s.flatMap escapeQuote ++ r) = s ++ unescape r := by
  induction s with
  | nil => rfl
  | cons c s ih =>
    have hrest : unescape (s.flatMap escapeQuote ++ r) = s ++ unescape r := by
      apply ih
      intro hlast
      apply hr
      rw [List.getLast?_cons, hlast, Option.getD_some]
    rw [List.flatMap_cons, List.append_assoc]
    by_cases hc : c = '\''
    · rw [escapeQuote, if_pos hc, hc]
      exact congrArg ('\'' :: ·) hrest
    · rw [escapeQuote, if_neg hc, List.singleton_append, unescape_cons, hrest, List.cons_append]
      intro hslash
      apply head?_escaped_append
      intro hempty
      apply hr
      rw [hempty, hslash]
      rfl

theorem unescape_escaped (s : List Char) : unescape (s.flatMap escapeQuote) = s := by
  have h := unescape_escaped_append (s := s) (r := []) nofun
  rwa [List.append_nil, unescape, List.append_nil] at h

theorem betweenQuotes?_quoted (s : List Char) :
    betweenQuotes? (quoted s) = some (s.flatMap escapeQuote) := by
  show betweenQuotes? ('\'' :: (s.flatMap escapeQuote ++ ['\''])) = _
  rw [betweenQuotes?, List.getLast?_concat, if_pos rfl, List.dropLast_concat]

theorem betweenQuotes?_of_head? {text : List Char} (h : text.head? ≠ some '\'') :
    betweenQuotes? text = none := by
  unfold betweenQuotes?
  split
  · exact absurd rfl h
  · rfl

/-! ## Reading -/

theorem ofToken_quoted (s : List Char) : ofToken (quoted s) = .ok (.str (.ofChars s)) := by
  have hempty : quoted s ≠ [] := List.cons_ne_nil _ _
  have hnil : quoted s ≠ ['n', 'i', 'l'] := fun heq => by cases heq
  unfold ofToken
  rw [if_neg hempty, if_neg hnil, betweenQuotes?_quoted]
  dsimp only
  rw [unescape_escaped]

/-- Any string is read from between single quotes. -/
theorem read_quoted (s : List Char) : read (quoted s) = .ok (.str (.ofChars s)) := by
  have htrimmed : Trimmed (quoted s) := trimmed_of_ends (by decide) _
  rw [read, htrimmed.strip_eq, ofToken_quoted]

/-- Written values are neither `nil` nor between single quotes. -/
theorem head?_write {v : Value} (hv : v.IsLox) :
    (Json.write 0 v).head? ≠ some '\'' ∧ Json.write 0 v ≠ ['n', 'i', 'l'] := by
  cases v with
  | nil => decide
  | bool b => cases b <;> decide
  | num x =>
    obtain ⟨hne, hchars⟩ := Json.numberText_written x
    constructor
    · intro hhead
      exact (hchars '\'' (List.mem_of_mem_head? hhead)).ne rfl (by decide) rfl
    · intro hnil
      have hl : 'l' ∈ x.written Json.numberWords := by
        rw [show x.written Json.numberWords = ['n', 'i', 'l'] from hnil]
        decide
      exact (hchars 'l' hl).ne rfl (by decide) rfl
  | str s =>
    constructor
    all_goals
      intro h
      cases h
  | int _ | list _ | dict _ => exact hv.elim

theorem ofToken_write {v : Value} (hv : v.IsLox) (hw : Json.Writable v) :
    ofToken (Json.write 0 v) = .ok v := by
  obtain ⟨hhead, hnil⟩ := head?_write hv
  have hread : Json.readText (Json.write 0 v ++ []) = .ok v :=
    Json.readText_write_append hw nofun rfl
  rw [List.append_nil] at hread
  unfold ofToken
  rw [if_neg (Denotes.written hv hw).ne_nil, if_neg hnil, betweenQuotes?_of_head? hhead]
  dsimp only
  rw [Json.read, hread]
  exact Value.toConstant_of_isLox hv

/-- **Literals.** A text that stands for a value is read as that value. -/
theorem Denotes.read_eq {text : List Char} {v : Value} (h : Denotes text v) :
    read text = .ok v := by
  cases id h with
  | written hv hw =>
    rw [read, h.trimmed.strip_eq]
    exact ofToken_write hv hw
  | nil => rfl
  | quoted _ => exact read_quoted _

end LoxMachine.Literal
