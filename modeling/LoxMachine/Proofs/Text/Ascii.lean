import LoxMachine.Text.File

/-!
# Plain text

A text of printable ASCII characters and line feeds takes a byte for each character, and a file of
these bytes is read as that text.

    Plain s → Content.ofBytes (String.ofList s).toUTF8 = .text s            (ofBytes_of_plain)
-/

namespace LoxMachine.Text

/-- Printable ASCII characters, and line feeds. -/
def IsPlain (c : Char) : Prop := c = '\n' ∨ 0x20 ≤ c.toNat ∧ c.toNat ≤ 0x7e

instance (c : Char) : Decidable (IsPlain c) := inferInstanceAs (Decidable (_ ∨ _))

def Plain (s : List Char) : Prop := ∀ c ∈ s, IsPlain c

instance (s : List Char) : Decidable (Plain s) := List.decidableBAll IsPlain s

theorem Plain.append {s t : List Char} (hs : Plain s) (ht : Plain t) : Plain (s ++ t) := by
  intro c hc
  rcases List.mem_append.mp hc with hc | hc
  · exact hs c hc
  · exact ht c hc

theorem Plain.cons {c : Char} {s : List Char} (hc : IsPlain c) (hs : Plain s) :
    Plain (c :: s) := by
  intro d hd
  rcases List.mem_cons.mp hd with rfl | hd
  · exact hc
  · exact hs d hd

theorem Plain.flatMap {α : Type} {f : α → List Char} {s : List α} (h : ∀ a ∈ s, Plain (f a)) :
    Plain (s.flatMap f) := by
  intro c hc
  obtain ⟨a, ha, hc⟩ := List.mem_flatMap.mp hc
  exact h a ha c hc

theorem IsPlain.toNat_lt {c : Char} (h : IsPlain c) : c.toNat < 0x80 := by
  rcases h with rfl | h
  · decide
  · omega

theorem IsPlain.ne_return {c : Char} (h : IsPlain c) : c ≠ '\r' := by
  rintro rfl
  revert h
  decide

/-! ## Bytes -/

theorem utf8EncodeChar_of_lt {c : Char} (h : c.toNat < 0x80) :
    String.utf8EncodeChar c = [UInt8.ofNat c.toNat] := by
  have hsize : c.utf8Size = 1 := by
    rw [Char.utf8Size_eq_one_iff, UInt32.le_iff_toNat_le]
    exact Nat.le_of_lt_succ h
  rw [String.utf8EncodeChar_eq_singleton hsize]
  rfl

theorem data_toUTF8 (s : List Char) :
    (String.ofList s).toUTF8.data.toList = s.flatMap String.utf8EncodeChar := by
  show (String.ofList s).toByteArray.data.toList = _
  rw [String.toByteArray_ofList, List.utf8Encode]
  simp

theorem run_of_plain {s : List Char} (h : Plain s) :
    Utf8.between.run (s.flatMap String.utf8EncodeChar) = some (.between, s) := by
  induction s with
  | nil => rfl
  | cons c s ih =>
    have hc := (h c List.mem_cons_self).toNat_lt
    have hnext : Utf8.between.next (UInt8.ofNat c.toNat) = some (.between, [c]) := by
      unfold Utf8.next Utf8.first
      dsimp only
      have hbyte : (UInt8.ofNat c.toNat).toNat = c.toNat := UInt8.toNat_ofNat_of_lt' (by
        show c.toNat < 256
        omega)
      rw [hbyte, if_pos hc, Char.ofNat_toNat]
    rw [List.flatMap_cons, utf8EncodeChar_of_lt hc, List.singleton_append, Utf8.run, hnext]
    dsimp only
    rw [ih fun d hd => h d (List.mem_cons_of_mem c hd)]
    rfl

theorem unifyLineEnds_of_plain {s : List Char} (h : Plain s) : unifyLineEnds s = s := by
  induction s with
  | nil => rfl
  | cons c s ih =>
    have hc := (h c List.mem_cons_self).ne_return
    rw [unifyLineEnds, ih fun d hd => h d (List.mem_cons_of_mem c hd)]
    · simp [hc]
    · simp [hc]

/-- **Plain files.** The bytes of a plain text are read as that text. -/
theorem ofBytes_of_plain {s : List Char} (h : Plain s) :
    Content.ofBytes (String.ofList s).toUTF8 = .text s := by
  unfold Content.ofBytes
  rw [data_toUTF8]
  dsimp only
  rw [run_of_plain h]
  dsimp only
  rw [unifyLineEnds_of_plain h]

end LoxMachine.Text
