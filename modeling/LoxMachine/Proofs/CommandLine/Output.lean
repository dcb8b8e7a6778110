import LoxMachine.CommandLine

/-!
# What the output takes

A script is written string by string, up to the first string that the output refuses.

    (write texts).2 = refused? texts                                            (write_refused)
    ((write texts).1 : Str) = (texts.takeWhile fun t => t.Encodable).flatten    (write_written)

So a script without such a string ends as it says, with all of its strings on the output; any other
one ends with a fault that names the string.
-/

namespace LoxMachine

theorem Str.coe_ofList (s : List Char) : (String.ofList s : Str) = .ofChars s := by
  rw [String.toList_ofList]

theorem Str.coe_append (s t : String) : (s ++ t : String) = (s ++ t : Str) := by
  rw [String.toList_append, ofChars_append]

namespace CommandLine

/-- The first string that cannot be written. -/
def refused? (texts : List Str) : Option Str := texts.find? fun t => ¬ t.Encodable

section
variable {texts rest : List Str} {s t : Str}

/-! ## What is refused -/

theorem refused?_eq_none_iff : refused? texts = none ↔ ∀ t ∈ texts, t.Encodable := by
  rw [refused?, List.find?_eq_none]
  simp

theorem refused?_eq_some_iff : refused? texts = some t ↔ ¬ t.Encodable ∧ ∃ before after,
    texts = before ++ t :: after ∧ ∀ s ∈ before, s.Encodable := by
  rw [refused?, List.find?_eq_some_iff_append]
  simp

theorem refused?_append (texts rest : List Str) :
    refused? (texts ++ rest) = (refused? texts).or (refused? rest) :=
  List.find?_append

theorem refused?_cons_of_encodable (h : t.Encodable) : refused? (t :: rest) = refused? rest :=
  List.find?_cons_of_neg (by simp [h])

theorem refused?_cons_of_not_encodable (h : ¬ t.Encodable) : refused? (t :: rest) = some t :=
  List.find?_cons_of_pos (by simp [h])

/-- A line feed is never refused. -/
theorem refused?_line (s : Str) : refused? (line s) = refused? [s] := by
  by_cases hs : s.Encodable <;> simp [refused?, line, hs]

theorem refused?_lines (texts : List Str) : refused? (texts.flatMap line) = refused? texts := by
  induction texts with
  | nil => rfl
  | cons t texts ih =>
    rw [List.flatMap_cons, refused?_append, ih, refused?_line, ← refused?_append,
      List.singleton_append]

/-! ## Writing -/

theorem write_cons_ofChars (cs : List Char) (rest : List Str) :
    write (Str.ofChars cs :: rest) = (String.ofList cs ++ (write rest).1, (write rest).2) := by
  rw [write, Str.chars?_eq_some_iff.mpr rfl]

theorem write_cons_of_not_encodable (h : ¬ t.Encodable) : write (t :: rest) = ("", some t) := by
  have hnone : t.chars? = none := by
    rwa [← Str.chars?_isSome_iff, Option.not_isSome_iff_eq_none] at h
  rw [write, hnone]

theorem write_refused (texts : List Str) : (write texts).2 = refused? texts := by
  induction texts with
  | nil => rfl
  | cons t rest ih =>
    by_cases ht : t.Encodable
    · obtain ⟨cs, rfl⟩ := Str.encodable_iff.mp ht
      rw [write_cons_ofChars, refused?_cons_of_encodable ht, ih]
    · rw [write_cons_of_not_encodable ht, refused?_cons_of_not_encodable ht]

theorem write_written (texts : List Str) :
    ((write texts).1 : Str) = (texts.takeWhile fun t => t.Encodable).flatten := by
  induction texts with
  | nil => rfl
  | cons t rest ih =>
    by_cases ht : t.Encodable
    · obtain ⟨cs, rfl⟩ := Str.encodable_iff.mp ht
      rw [write_cons_ofChars, List.takeWhile_cons_of_pos (by simp), List.flatten_cons, ← ih,
        Str.coe_append, Str.coe_ofList]
    · rw [write_cons_of_not_encodable ht, List.takeWhile_cons_of_neg (by simpa using ht)]
      rfl

/-- What is written after strings that are all taken comes behind them. -/
theorem write_append (h : refused? texts = none) (rest : List Str) :
    write (texts ++ rest) = ((write texts).1 ++ (write rest).1, (write rest).2) := by
  induction texts with
  | nil => simp [write]
  | cons t texts ih =>
    obtain ⟨ht, htexts⟩ := List.forall_mem_cons.mp (refused?_eq_none_iff.mp h)
    obtain ⟨cs, rfl⟩ := Str.encodable_iff.mp ht
    rw [List.cons_append, write_cons_ofChars, write_cons_ofChars,
      ih (refused?_eq_none_iff.mpr htexts), String.append_assoc]

/-- Nothing is written after a string that is refused. -/
theorem write_append_of_refused (h : refused? texts = some t) (rest : List Str) :
    write (texts ++ rest) = write texts := by
  induction texts with
  | nil => cases h
  | cons s texts ih =>
    by_cases hs : s.Encodable
    · obtain ⟨cs, rfl⟩ := Str.encodable_iff.mp hs
      rw [refused?_cons_of_encodable hs] at h
      rw [List.cons_append, write_cons_ofChars, write_cons_ofChars, ih h]
    · rw [List.cons_append, write_cons_of_not_encodable hs, write_cons_of_not_encodable hs]

end

/-! ## Scripts -/

namespace Script

variable {s : Script} {t : Str}

theorem play_of_encodable (h : refused? s.texts = none) :
    s.play = { status := s.status, stdout := (write s.texts).1, stderr := s.stderr } := by
  rw [← write_refused] at h
  unfold play
  generalize write s.texts = written at h
  obtain ⟨out, refused⟩ := written
  cases h
  rfl

theorem play_of_refused (h : refused? s.texts = some t) :
    s.play = { status := .raised (.argument (.unencodable t)), stdout := (write s.texts).1 } := by
  rw [← write_refused] at h
  unfold play
  generalize write s.texts = written at h
  obtain ⟨out, refused⟩ := written
  cases h
  rfl

end Script

end CommandLine
end LoxMachine
