import LoxMachine.Proofs.Chunk.Storage
import LoxMachine.Proofs.Session.Effect

/-!
# What requests do to storage

The storage of a chunk goes through the operations that the requests to the chunk consist of, part
by part. It stands for the chunk that the session has after each request.

    (r.store s i st).view = r.effect s i st.view                              (Request.store_spec)
    (s.performAll rs).1.chunks[i]? = some (s.storeAll i st rs).view               (storeAll_spec)
-/

namespace LoxMachine

namespace Session

/-- What a request to a chunk leaves of its storage. -/
def ChunkRequest.store (st : Storage) : ChunkRequest → Storage
  | .write byte line => ((Storage.write byte line).exec st).2
  | .writeMany bytes line times =>
    ((Storage.writeAll line (List.replicate times bytes).flatten).exec st).2
  | .pushConstant v => ((Storage.pushConstant v).exec st).2
  | .appendOperand op operand line textLine =>
    ((Storage.appendOperand op operand.toList line textLine).exec st).2
  | .cursor => (Storage.baseCursor.exec st).2
  | .cursorAt offset => ((Storage.cursorAt offset).exec st).2
  | _ => st

/-- A machine takes a cursor before it executes its first instruction. -/
def Request.store (s : Session) (i : Nat) (st : Storage) : Request → Storage
  | .onChunk j r => if j = i then r.store st else st
  | .onMachine k r =>
    if r.Executes ∧ (s.machines[k]?).map (·.1) = some i then (Storage.baseCursor.exec st).2 else st
  | _ => st

/-- What is left of the storage of the chunk with the number `i` after requests to the session. -/
def storeAll (s : Session) (i : Nat) (st : Storage) : List Request → Storage
  | [] => st
  | r :: rest => (s.perform r).1.storeAll i (r.store s i st) rest

section
variable {st : Storage}

theorem store_of_mirrors {α : Type} {op : StorageM α} {result : Except Fault Chunk}
    (h : st.Intact) (hop : Storage.Mirrors op st result) :
    (op.exec st).2.Intact ∧ (op.exec st).2.view = kept st.view result := by
  cases result with
  | ok d =>
    obtain ⟨a, st', hexec, hintact, hview⟩ := hop.done d rfl
    rw [hexec]
    exact ⟨hintact, hview⟩
  | error f =>
    rw [hop.failed f rfl]
    exact ⟨h, rfl⟩

/-- Of a series of writes all before the first that fails are kept. -/
theorem exec_writeAll (h : st.Intact) (line : Int) (bytes : List Int) :
    let result := (Storage.writeAll line bytes).exec st
    result.2.Intact ∧ (result.2.view, result.1) = writeAll st.view line bytes := by
  induction bytes generalizing st with
  | nil => exact ⟨h, rfl⟩
  | cons byte rest ih =>
    have hwrite := Storage.mirrors_write h byte line
    unfold Storage.writeAll writeAll
    cases hresult : st.view.write byte line with
    | error f =>
      rw [Storage.exec_bind_of_error (hwrite.failed f hresult)]
      exact ⟨h, rfl⟩
    | ok d =>
      obtain ⟨a, st', hexec, hintact, rfl⟩ := hwrite.done d hresult
      rw [Storage.exec_bind_of_ok hexec]
      exact ih hintact

theorem store_baseCursor (h : st.Intact) : (Storage.baseCursor.exec st).2.Intact ∧
    (Storage.baseCursor.exec st).2.view = st.view.toSealed := by
  rw [h.exec_baseCursor]
  exact h.toFrozen

theorem store_cursorAt (h : st.Intact) (offset : Int) :
    ((Storage.cursorAt offset).exec st).2 = st := by
  rw [h.exec_cursorAt]
  cases st.isSealed <;> rfl

theorem ChunkRequest.store_spec (h : st.Intact) (r : ChunkRequest) :
    (r.store st).Intact ∧ (r.store st).view = r.effect st.view := by
  cases r with
  | write byte line => exact store_of_mirrors h (Storage.mirrors_write h byte line)
  | writeMany bytes line times =>
    obtain ⟨hintact, heq⟩ := exec_writeAll h line (List.replicate times bytes).flatten
    exact ⟨hintact, congrArg Prod.fst heq⟩
  | pushConstant v => exact store_of_mirrors h (Storage.mirrors_pushConstant h v)
  | appendOperand op operand line textLine =>
    exact store_of_mirrors h (Storage.mirrors_appendOperand h op operand.toList line textLine)
  | cursor => exact store_baseCursor h
  | cursorAt offset =>
    unfold store effect
    dsimp only
    rw [store_cursorAt h]
    exact ⟨h, rfl⟩
  | state | constantAt _ | lineAt _ | byteAt _ | listing _ | entry _ | save _ | machine _ _ =>
    exact ⟨h, rfl⟩

/-- **Requests.** Storage stays intact and stands for what becomes of the chunk. -/
theorem Request.store_spec (h : st.Intact) (s : Session) (i : Nat) (r : Request) :
    (r.store s i st).Intact ∧ (r.store s i st).view = r.effect s i st.view := by
  cases r with
  | onChunk j r =>
    unfold store effect
    dsimp only
    by_cases hj : j = i
    · rw [if_pos hj, if_pos hj]
      exact r.store_spec h
    · rw [if_neg hj, if_neg hj]
      exact ⟨h, rfl⟩
  | onMachine k r =>
    unfold store effect
    dsimp only
    by_cases hk : r.Executes ∧ (s.machines[k]?).map (·.1) = some i
    · rw [if_pos hk, if_pos hk]
      exact store_baseCursor h
    · rw [if_neg hk, if_neg hk]
      exact ⟨h, rfl⟩
  | newChunk | assemble _ | loadAssembly _ | loadDocument _ | onCursor _ _ => exact ⟨h, rfl⟩

/-- **Requests, one after the other.** -/
theorem storeAll_spec {s : Session} {i : Nat} (h : st.Intact) (hc : s.chunks[i]? = some st.view)
    (rs : List Request) : (s.storeAll i st rs).Intact ∧
      (s.performAll rs).1.chunks[i]? = some (s.storeAll i st rs).view := by
  induction rs generalizing s st with
  | nil => exact ⟨h, hc⟩
  | cons r rest ih =>
    obtain ⟨hintact, hview⟩ := r.store_spec h s i
    refine ih hintact ?_
    rw [hview]
    exact getElem?_chunks_perform hc r

end

end Session
end LoxMachine
