import LoxMachine.Proofs.Chunk.Growth
import LoxMachine.Session

/-!
# What requests do to a chunk

A request reaches a chunk of a session by the chunk's number, or by that of a machine that
executes it. `Request.effect` says all that becomes of the chunk: it is written to at its end, it is
sealed, or it stays as it is.

    s.chunks[i]? = some c →
      (s.perform r).1.chunks[i]? = some (r.effect s i c)              (getElem?_chunks_perform)
-/

namespace LoxMachine

namespace Session

/-- What is kept of a change to a chunk: a change that fails leaves it as it was. -/
def kept (c : Chunk) : Except Fault Chunk → Chunk
  | .ok d => d
  | .error _ => c

def ChunkRequest.effect (c : Chunk) : ChunkRequest → Chunk
  | .write byte line => kept c (c.write byte line)
  | .writeMany bytes line times => (writeAll c line (List.replicate times bytes).flatten).1
  | .pushConstant v => kept c (c.pushConstant v)
  | .appendOperand op operand line textLine =>
    kept c ((Assembly.appendOperand c op operand.toList line).mapError (·.atLine textLine))
  | .cursor => c.toSealed
  | _ => c

/-- A request has a machine step or run. -/
def MachineRequest.Executes : MachineRequest → Prop
  | .step | .run => True
  | _ => False

instance : DecidablePred MachineRequest.Executes := fun r => by
  cases r <;> unfold MachineRequest.Executes <;> infer_instance

/-- What becomes of the chunk `c` with the number `i`. -/
def Request.effect (s : Session) (i : Nat) (c : Chunk) : Request → Chunk
  | .onChunk j r => if j = i then r.effect c else c
  | .onMachine k r =>
    if r.Executes ∧ (s.machines[k]?).map (·.1) = some i then c.toSealed else c
  | _ => c

/-! ## Chunks -/

section
variable {s : Session} {i : Nat} {c : Chunk}

theorem getElem?_push_of_some {α : Type} {a : Array α} {n : Nat} {v w : α} (h : a[n]? = some v) :
    (a.push w)[n]? = some v := by
  have hlt := (Array.getElem?_eq_some_iff.mp h).1
  rw [Array.getElem?_push_lt hlt, ← Array.getElem?_eq_getElem hlt, h]

theorem chunks_addChunk (hc : s.chunks[i]? = some c) (name : Option Str) (d : Chunk) :
    (s.addChunk name d).1.chunks[i]? = some c := getElem?_push_of_some hc

theorem chunks_setChunk (hc : s.chunks[i]? = some c) (j : Nat) (d : Chunk) :
    (s.setChunk j d).chunks[i]? = some (if j = i then d else c) := by
  have hlt := (Array.getElem?_eq_some_iff.mp hc).1
  show (s.chunks.setIfInBounds j d)[i]? = _
  rw [Array.getElem?_setIfInBounds]
  by_cases h : j = i
  · rw [if_pos h, if_pos h, if_pos (by omega)]
  · rw [if_neg h, if_neg h, hc]

/-- A session in which nothing is done to the chunk `b` with the number `j`. -/
theorem chunks_of_same (hc : s.chunks[i]? = some c) {j : Nat} {b : Chunk}
    (hb : s.chunks[j]? = some b) : s.chunks[i]? = some (if j = i then b else c) := by
  by_cases h : j = i
  · rw [if_pos h, ← h]
    exact hb
  · rw [if_neg h, hc]

theorem chunks_update (hc : s.chunks[i]? = some c) (j : Nat) (reply : Chunk → Reply) {b : Chunk}
    (hb : s.chunks[j]? = some b) (result : Except Fault Chunk) :
    (s.update j reply result).1.chunks[i]? = some (if j = i then kept b result else c) := by
  cases result with
  | ok d => exact chunks_setChunk hc j d
  | error f => exact chunks_of_same hc hb

theorem chunks_onChunk (hc : s.chunks[i]? = some c) {j : Nat} {b : Chunk}
    (hb : s.chunks[j]? = some b) (r : ChunkRequest) :
    (s.onChunk j b r).1.chunks[i]? = some (if j = i then r.effect b else c) := by
  have hlook := chunks_of_same hc hb
  cases r with
  | write byte line => exact chunks_update hc j _ hb _
  | writeMany bytes line times => exact chunks_setChunk hc j _
  | pushConstant v => exact chunks_update hc j _ hb _
  | appendOperand op operand line textLine => exact chunks_update hc j _ hb _
  | cursor => exact chunks_setChunk hc j _
  | cursorAt offset =>
    unfold onChunk
    dsimp only
    cases b.cursorAt offset <;> exact hlook
  | state | constantAt _ | lineAt _ | byteAt _ | listing _ | entry _ | save _ | machine _ _ =>
    exact hlook

theorem chunks_onMachine (hc : s.chunks[i]? = some c) {k j : Nat} {m : Machine}
    (r : MachineRequest) :
    (s.onMachine k j (s.chunks.getD j {}) m r).1.chunks[i]? =
      some (if r.Executes ∧ j = i then c.toSealed else c) := by
  have hset : (s.setChunk j (s.chunks.getD j {}).toSealed).chunks[i]? =
      some (if j = i then c.toSealed else c) := by
    rw [chunks_setChunk hc]
    by_cases h : j = i
    · rw [if_pos h, if_pos h, h, Array.getD_eq_getD_getElem?, hc]
      rfl
    · rw [if_neg h, if_neg h]
  cases r with
  | step | run =>
    simp only [MachineRequest.Executes, true_and]
    exact hset
  | advance distance =>
    rw [if_neg (fun h => h.1)]
    unfold onMachine
    cases m.ip <;> exact hc
  | state | push _ | takeEvents =>
    rw [if_neg (fun h => h.1)]
    exact hc

/-- **Requests.** All that a request does to a chunk. -/
theorem getElem?_chunks_perform (hc : s.chunks[i]? = some c) (r : Request) :
    (s.perform r).1.chunks[i]? = some (r.effect s i c) := by
  cases r with
  | newChunk => exact chunks_addChunk hc none {}
  | assemble lines =>
    unfold perform
    dsimp only
    split
    · exact chunks_addChunk hc none _
    · exact hc
  | loadAssembly bytes =>
    unfold perform
    dsimp only
    split
    · exact chunks_addChunk hc none _
    · exact hc
  | loadDocument bytes =>
    unfold perform
    dsimp only
    split
    · exact chunks_addChunk hc _ _
    · exact hc
  | onChunk j r =>
    unfold perform Request.effect
    dsimp only
    cases hb : s.chunks[j]? with
    | none =>
      have hne : j ≠ i := by
        rintro rfl
        rw [hc] at hb
        cases hb
      rw [if_neg hne]
      exact hc
    | some b =>
      dsimp only
      rw [chunks_onChunk hc hb]
      by_cases h : j = i
      · subst h
        rw [hc] at hb
        cases hb
        rfl
      · rw [if_neg h, if_neg h]
  | onCursor k r =>
    unfold perform Request.effect
    dsimp only
    cases s.cursors[k]? with
    | none => exact hc
    | some p => cases r <;> exact hc
  | onMachine k r =>
    unfold perform Request.effect
    dsimp only
    cases hm : s.machines[k]? with
    | none =>
      rw [if_neg (fun h => nomatch h.2)]
      exact hc
    | some p =>
      dsimp only
      simp only [chunks_onMachine hc, Option.map_some, Option.some.injEq]

/-! ## Effects -/

theorem appended_kept {result : Except Fault Chunk} (h : ∀ d, result = .ok d → c.Appended d) :
    c.Appended (kept c result) := by
  cases result with
  | ok d => exact h d rfl
  | error f => exact .refl c

theorem appended_writeAll (c : Chunk) (line : Int) (bytes : List Int) :
    c.Appended (writeAll c line bytes).1 := by
  induction bytes generalizing c with
  | nil => exact .refl c
  | cons byte rest ih =>
    unfold writeAll
    split
    · next d hd => exact (Chunk.appended_write hd).trans (ih d)
    · exact .refl c

/-- Requests to a chunk append to it, but for one that takes a cursor. -/
theorem ChunkRequest.appended_effect {r : ChunkRequest} (h : r ≠ .cursor) :
    c.Appended (r.effect c) := by
  cases r with
  | write byte line => exact appended_kept fun d => Chunk.appended_write
  | writeMany bytes line times => exact appended_writeAll c line _
  | pushConstant v => exact appended_kept fun d => Chunk.appended_pushConstant
  | appendOperand op operand line textLine =>
    refine appended_kept fun d hd => ?_
    cases ha : Assembly.appendOperand c op operand.toList line with
    | ok d' =>
      rw [ha] at hd
      cases hd
      exact Assembly.appended_appendOperand ha
    | error e =>
      rw [ha] at hd
      cases hd
  | cursor => exact absurd rfl h
  | state | constantAt _ | lineAt _ | byteAt _ | listing _ | entry _ | save _ | cursorAt _
  | machine _ _ => exact .refl c

/-- Requests that seal the chunk with the number `i`: one that takes a cursor, and one that has a
machine of the chunk execute. -/
def Request.Seals (s : Session) (i : Nat) : Request → Prop
  | .onChunk j .cursor => j = i
  | .onMachine k r => r.Executes ∧ ∃ m, s.machines[k]? = some (i, m)
  | _ => False

/-- A request seals a chunk, or it appends to it at most. -/
theorem Request.effect_cases (s : Session) (i : Nat) (c : Chunk) (r : Request) :
    (r.Seals s i ∧ r.effect s i c = c.toSealed) ∨
      (¬ r.Seals s i ∧ c.Appended (r.effect s i c)) := by
  cases r with
  | onChunk j r =>
    unfold Request.effect
    dsimp only
    by_cases hcursor : r = .cursor
    · subst hcursor
      by_cases h : j = i
      · exact .inl ⟨h, if_pos h⟩
      · refine .inr ⟨h, ?_⟩
        rw [if_neg h]
        exact .refl c
    · have hnot : ¬ (Request.onChunk j r).Seals s i := by
        unfold Request.Seals
        split
        · next heq =>
          cases heq
          exact absurd rfl hcursor
        · next heq => cases heq
        · exact id
      refine .inr ⟨hnot, ?_⟩
      by_cases h : j = i
      · rw [if_pos h]
        exact r.appended_effect hcursor
      · rw [if_neg h]
        exact .refl c
  | onMachine k r =>
    unfold Request.effect Request.Seals
    dsimp only
    have hiff : (s.machines[k]?).map (·.1) = some i ↔ ∃ m, s.machines[k]? = some (i, m) := by
      rw [Option.map_eq_some_iff]
      constructor
      · rintro ⟨⟨j, m⟩, hm, rfl⟩
        exact ⟨m, hm⟩
      · rintro ⟨m, hm⟩
        exact ⟨(i, m), hm, rfl⟩
    by_cases h : r.Executes ∧ ∃ m, s.machines[k]? = some (i, m)
    · exact .inl ⟨h, if_pos ⟨h.1, hiff.mpr h.2⟩⟩
    · refine .inr ⟨h, ?_⟩
      rw [if_neg fun h' => h ⟨h'.1, hiff.mp h'.2⟩]
      exact .refl c
  | newChunk | assemble _ | loadAssembly _ | loadDocument _ | onCursor _ _ =>
    exact .inr ⟨id, .refl c⟩

theorem Request.grows_effect (r : Request) : c.Grows (r.effect s i c) := by
  rcases r.effect_cases s i c with ⟨-, h⟩ | ⟨-, h⟩
  · rw [h]
    exact c.grows_toSealed
  · exact h.grows

/-- A chunk is sealed by the first request that seals, and stays so. -/
theorem Request.isSealed_effect (r : Request) :
    (r.effect s i c).isSealed = true ↔ c.isSealed = true ∨ r.Seals s i := by
  rcases r.effect_cases s i c with ⟨hs, h⟩ | ⟨hs, h⟩
  · rw [h]
    exact ⟨fun _ => .inr hs, fun _ => rfl⟩
  · rw [h.isSealed]
    simp [hs]

end

end Session
end LoxMachine
