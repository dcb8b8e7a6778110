/-!
# Strings

A string is a list of code points: characters, and surrogates that stand alone. Files hold
characters only; an `\uXXXX` escape in a JSON string may name a surrogate. Output is UTF-8, which
has no bytes for surrogates, so a string that has one cannot be written there.
-/

namespace LoxMachine

inductive CodePoint where
  | char (c : Char)
  /-- The surrogate U+D800 + `index`. -/
  | surrogate (index : Fin 0x800)
  deriving DecidableEq

def CodePoint.toNat : CodePoint → Nat
  | char c => c.toNat
  | surrogate index => 0xd800 + index

abbrev Str := List CodePoint

namespace Str

def ofChars (s : List Char) : Str := s.map .char

instance : Coe String Str := ⟨fun s => ofChars s.toList⟩

/-- The characters of a string that has no surrogates. -/
def chars? : Str → Option (List Char)
  | [] => some []
  | .char c :: s => (chars? s).map (c :: ·)
  | .surrogate _ :: _ => none

/-- UTF-8 has bytes for all of a string. -/
def Encodable (s : Str) : Prop := ∀ index, CodePoint.surrogate index ∉ s

/-! ## Lemmas -/

theorem ofChars_inj {s t : List Char} : ofChars s = ofChars t ↔ s = t :=
  List.map_inj_right fun _ _ h => CodePoint.char.inj h

theorem coe_inj {s t : String} : (s : Str) = t ↔ s = t := ofChars_inj.trans String.toList_inj

@[simp] theorem ofChars_nil : ofChars [] = [] := rfl

@[simp] theorem ofChars_cons (c : Char) (s : List Char) : ofChars (c :: s) = .char c :: ofChars s :=
  rfl

@[simp] theorem ofChars_append (s t : List Char) : ofChars (s ++ t) = ofChars s ++ ofChars t :=
  List.map_append

theorem chars?_eq_some_iff {s : Str} {cs : List Char} : chars? s = some cs ↔ s = ofChars cs := by
  induction s generalizing cs with
  | nil => cases cs <;> simp [chars?]
  | cons p s ih =>
    cases p with
    | surrogate index => cases cs <;> simp [chars?]
    | char c =>
      cases cs with
      | nil => simp [chars?]
      | cons c' cs => simpa [chars?, ih] using and_comm

@[simp] theorem encodable_nil : Encodable [] := fun _ => List.not_mem_nil

@[simp] theorem encodable_cons_char {c : Char} {s : Str} :
    Encodable (.char c :: s) ↔ Encodable s := by
  simp [Encodable]

theorem encodable_cons {p : CodePoint} {s : Str} :
    Encodable (p :: s) ↔ (∃ c, p = .char c) ∧ Encodable s := by
  cases p with
  | char c => simp [Encodable]
  | surrogate index => exact iff_of_false (fun h => h index List.mem_cons_self) nofun

theorem encodable_append {s t : Str} : Encodable (s ++ t) ↔ Encodable s ∧ Encodable t := by
  simp only [Encodable, List.mem_append, not_or, forall_and]

theorem encodable_flatMap {α : Type} {f : α → Str} {l : List α}
    (h : ∀ a ∈ l, Encodable (f a)) : Encodable (l.flatMap f) := by
  intro index hindex
  obtain ⟨a, ha, hmem⟩ := List.mem_flatMap.mp hindex
  exact h a ha index hmem

@[simp] theorem encodable_ofChars (s : List Char) : Encodable (ofChars s) := by
  intro index h
  obtain ⟨c, -, hc⟩ := List.mem_map.mp h
  cases hc

/-- What can be encoded is made of characters. -/
theorem encodable_iff {s : Str} : Encodable s ↔ ∃ cs, s = ofChars cs := by
  constructor
  · intro h
    induction s with
    | nil => exact ⟨[], rfl⟩
    | cons p s ih =>
      obtain ⟨⟨c, rfl⟩, hs⟩ := encodable_cons.mp h
      obtain ⟨cs, rfl⟩ := ih hs
      exact ⟨c :: cs, rfl⟩
  · rintro ⟨cs, rfl⟩
    exact encodable_ofChars cs

theorem chars?_isSome_iff {s : Str} : (chars? s).isSome = true ↔ Encodable s := by
  simp only [Option.isSome_iff_exists, chars?_eq_some_iff, encodable_iff]

instance : DecidablePred Encodable := fun _ => decidable_of_iff _ chars?_isSome_iff

end Str
end LoxMachine
