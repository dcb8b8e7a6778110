import LoxMachine.Assembly
import LoxMachine.Cursor

/-!
# Growth of chunks

A chunk grows at its ends only, and a sealed one does not grow. `Appended` is what the operations
that write do, and `Grows` allows for sealing as well; both go on from one operation to the next.

    c.Grows d → c.constantAt n = .ok v → d.constantAt n = .ok v             (Grows.constantAt)
-/

namespace LoxMachine.Chunk

/-- Nothing but what has been appended tells `d` from `c`. -/
structure Appended (c d : Chunk) : Prop where
  code : c.code <+: d.code
  lines : c.lines <+: d.lines
  constants : c.constants.toList <+: d.constants.toList
  isSealed : d.isSealed = c.isSealed
  frozen : c.isSealed = true → d = c

/-- What has been there is still there, and all of it if the chunk was sealed. -/
structure Grows (c d : Chunk) : Prop where
  code : c.code <+: d.code
  lines : c.lines <+: d.lines
  constants : c.constants.toList <+: d.constants.toList
  frozen : c.isSealed = true → d = c

section
variable {c d e : Chunk}

theorem Appended.refl (c : Chunk) : c.Appended c :=
  ⟨List.prefix_rfl, List.prefix_rfl, List.prefix_rfl, rfl, fun _ => rfl⟩

theorem Appended.trans (h : c.Appended d) (h' : d.Appended e) : c.Appended e := by
  refine ⟨h.code.trans h'.code, h.lines.trans h'.lines, h.constants.trans h'.constants,
    h'.isSealed.trans h.isSealed, fun hc => ?_⟩
  obtain rfl := h.frozen hc
  exact h'.frozen hc

theorem Appended.grows (h : c.Appended d) : c.Grows d :=
  ⟨h.code, h.lines, h.constants, h.frozen⟩

theorem Grows.refl (c : Chunk) : c.Grows c := (Appended.refl c).grows

theorem Grows.trans (h : c.Grows d) (h' : d.Grows e) : c.Grows e := by
  refine ⟨h.code.trans h'.code, h.lines.trans h'.lines, h.constants.trans h'.constants,
    fun hc => ?_⟩
  obtain rfl := h.frozen hc
  exact h'.frozen hc

theorem toSealed_of_isSealed (h : c.isSealed = true) : c.toSealed = c := by
  unfold toSealed
  rw [← h]

theorem grows_toSealed (c : Chunk) : c.Grows c.toSealed :=
  ⟨List.prefix_rfl, List.prefix_rfl, List.prefix_rfl, toSealed_of_isSealed⟩

/-- A constant keeps its index. -/
theorem Grows.constantAt (h : c.Grows d) {n : Int} {v : Value} (hv : c.constantAt n = .ok v) :
    d.constantAt n = .ok v := by
  unfold Chunk.constantAt at hv ⊢
  split at hv
  · cases hv
  · next hn =>
    rw [if_neg hn]
    cases hc : c.constants[n.toNat]? with
    | none =>
      rw [hc] at hv
      cases hv
    | some w =>
      rw [hc] at hv
      cases hv
      rw [← Array.getElem?_toList] at hc
      obtain ⟨rest, hrest⟩ := h.constants
      rw [← Array.getElem?_toList, ← hrest, List.getElem?_append_left, hc]
      exact (List.getElem?_eq_some_iff.mp hc).1

/-! ## Operations that write -/

theorem appended_push {byte : UInt8} {line : Int} (hc : c.isSealed = false) :
    c.Appended (c.push byte line) := by
  refine ⟨?_, ?_, List.prefix_rfl, rfl, fun h => ?_⟩
  · rw [code_push]
    exact List.prefix_append ..
  · rw [lines_push]
    exact List.prefix_append ..
  · rw [hc] at h
    cases h

theorem appended_write {byte line : Int} (h : c.write byte line = .ok d) : c.Appended d := by
  obtain ⟨hc, -, -, rfl⟩ := write_eq_ok_iff.mp h
  exact appended_push hc

/-- A constant is appended to the pool of an open chunk. -/
theorem pushConstant_eq_ok_iff {v : Value} :
    c.pushConstant v = .ok d ↔
      c.isSealed = false ∧ d = { c with constants := c.constants.push v } := by
  unfold pushConstant
  cases c.isSealed <;> simp [eq_comm]

theorem appended_pushConstant {v : Value} (h : c.pushConstant v = .ok d) : c.Appended d := by
  obtain ⟨hc, rfl⟩ := pushConstant_eq_ok_iff.mp h
  refine ⟨List.prefix_rfl, List.prefix_rfl, ?_, rfl, fun h => ?_⟩
  · rw [Array.toList_push]
    exact List.prefix_append ..
  · rw [hc] at h
    cases h

end

end Chunk

namespace Assembly

variable {c d : Chunk}

theorem appended_put {byte line : Int} (h : put c byte line = .ok d) : c.Appended d := by
  unfold put at h
  cases hw : c.write byte line with
  | error f =>
    rw [hw] at h
    cases h
  | ok d' =>
    rw [hw] at h
    cases h
    exact Chunk.appended_write hw

theorem appended_appendConstant {v : Value} {line : Int} (h : appendConstant c v line = .ok d) :
    c.Appended d := by
  unfold appendConstant at h
  dsimp only at h
  split at h
  · cases h
  · simp only [bind, Except.bind] at h
    split at h
    · cases h
    · next grown hgrown =>
      split at h
      · cases h
      · next tagged htagged =>
        have hpush : c.pushConstant v = .ok grown := by
          cases hp : c.pushConstant v <;> rw [hp] at hgrown <;> cases hgrown
          rfl
        exact ((Chunk.appended_pushConstant hpush).trans (appended_put htagged)).trans
          (appended_put h)

theorem appended_appendOperand {op : Opcode} {operand : List Char} {line : Int}
    (h : appendOperand c op operand line = .ok d) : c.Appended d := by
  cases op with
  | ret | negate => cases h
  | constant =>
    simp only [appendOperand, bind, Except.bind] at h
    split at h
    · cases h
    · exact appended_appendConstant h

end LoxMachine.Assembly
