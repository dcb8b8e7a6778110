import LoxMachine.Chunk.Storage
import LoxMachine.Proofs.Chunk.Growth
import LoxMachine.Proofs.Traversal

/-!
# What storage stands for

The arrays of a chunk's storage stand for the chunk: each byte with its line, the constants, and
whether it is sealed. An operation on the storage does what the one on the chunk does, or it fails
as that one does and has left the storage as it was.

    st.Intact → Mirrors (write byte line) st (st.view.write byte line)              (mirrors_write)

There are as many lines as bytes at any time, and from sealing on the copies of code and constants
are what they have been copied from.
-/

namespace LoxMachine

namespace Storage

/-! ## Views -/

/-- The chunk that is stored. -/
def view (st : Storage) : Chunk where
  cells := (st.code.zip st.lines).map fun p => ⟨p.1, p.2⟩
  constants := st.constants
  isSealed := st.isSealed

/-- Every byte has a line, and copies are there from sealing on, each the same as what has been
copied. -/
structure Intact (st : Storage) : Prop where
  lines : st.lines.size = st.code.size
  frozenCode : st.frozenCode = if st.isSealed then some st.code else none
  frozenConstants : st.frozenConstants = if st.isSealed then some st.constants else none

/-- An operation on storage does the same as one on the stored chunk; if that fails, the storage is
left alone. -/
structure Mirrors {α : Type} (op : StorageM α) (st : Storage) (result : Except Fault Chunk) :
    Prop where
  done : ∀ d, result = .ok d → ∃ a st', op.exec st = (.ok a, st') ∧ st'.Intact ∧ st'.view = d
  failed : ∀ f, result = .error f → op.exec st = (.error f, st)

section
variable {st : Storage} {α β : Type}

theorem intact_empty : ({} : Storage).Intact := ⟨rfl, rfl, rfl⟩

theorem view_empty : ({} : Storage).view = {} := by
  simp [view]

theorem Intact.code_view (h : st.Intact) : st.view.code = st.code.toList := by
  have hle : st.code.toList.length ≤ st.lines.toList.length := Nat.le_of_eq h.lines.symm
  simp only [view, Chunk.code, Array.toList_map, Array.toList_zip, List.map_map]
  exact List.map_fst_zip hle

theorem Intact.lines_view (h : st.Intact) : st.view.lines = st.lines.toList := by
  have hle : st.lines.toList.length ≤ st.code.toList.length := Nat.le_of_eq h.lines
  simp only [view, Chunk.lines, Array.toList_map, Array.toList_zip, List.map_map]
  exact List.map_snd_zip hle

/-- Storage that is intact is told by its chunk. -/
theorem Intact.eq_of_view {st' : Storage} (h : st.Intact) (h' : st'.Intact)
    (hview : st.view = st'.view) : st = st' := by
  have hcode : st.code = st'.code := by
    rw [← Array.toList_inj, ← h.code_view, ← h'.code_view, hview]
  have hlines : st.lines = st'.lines := by
    rw [← Array.toList_inj, ← h.lines_view, ← h'.lines_view, hview]
  have hconstants : st.constants = st'.constants := congrArg Chunk.constants hview
  have hsealed : st.isSealed = st'.isSealed := congrArg Chunk.isSealed hview
  have hfrozen := h.frozenCode
  have hfrozen' := h.frozenConstants
  rw [hcode, hsealed, ← h'.frozenCode] at hfrozen
  rw [hconstants, hsealed, ← h'.frozenConstants] at hfrozen'
  obtain ⟨_, _, _, _, _, _⟩ := st
  obtain ⟨_, _, _, _, _, _⟩ := st'
  simp_all only

theorem Intact.visibleCode_eq (h : st.Intact) : st.visibleCode = st.code := by
  rw [visibleCode, h.frozenCode]
  cases st.isSealed <;> rfl

theorem Intact.visibleConstants_eq (h : st.Intact) : st.visibleConstants = st.constants := by
  rw [visibleConstants, h.frozenConstants]
  cases st.isSealed <;> rfl

/-! ## Executing -/

@[simp] theorem exec_get (st : Storage) : (get : StorageM Storage).exec st = (.ok st, st) := rfl

@[simp] theorem exec_modify (f : Storage → Storage) (st : Storage) :
    (modify f : StorageM PUnit).exec st = (.ok ⟨⟩, f st) := rfl

theorem exec_bind (op : StorageM α) (g : α → StorageM β) (st : Storage) :
    (op >>= g).exec st = match op.exec st with
      | (.ok a, st') => (g a).exec st'
      | (.error f, st') => (.error f, st') := by
  show (ExceptT.bind op g : StateM Storage (Except Fault β)) st = _
  unfold ExceptT.bind ExceptT.mk StorageM.exec
  show (match op st with | (r, st') => ExceptT.bindCont g r st') = _
  obtain ⟨r, st'⟩ := op st
  cases r <;> rfl

theorem exec_bind_of_ok {op : StorageM α} {g : α → StorageM β} {a : α} {st' : Storage}
    (h : op.exec st = (.ok a, st')) : (op >>= g).exec st = (g a).exec st' := by
  rw [exec_bind, h]

theorem exec_bind_of_error {op : StorageM α} {g : α → StorageM β} {f : Fault} {st' : Storage}
    (h : op.exec st = (.error f, st')) : (op >>= g).exec st = (.error f, st') := by
  rw [exec_bind, h]

/-! ## Growth -/

theorem exec_checkOpen (st : Storage) : checkOpen.exec st =
    if st.isSealed then (.error (.bytecode .sealedChunk), st) else (.ok (), st) := by
  unfold checkOpen
  rw [exec_bind_of_ok (exec_get st)]
  cases st.isSealed <;> rfl

/-- The storage after a byte and its line. -/
def withCell (st : Storage) (byte : UInt8) (line : Int) : Storage :=
  { st with code := st.code.push byte, lines := st.lines.push line }

def withConstant (st : Storage) (v : Value) : Storage :=
  { st with constants := st.constants.push v }

theorem Intact.withCell (h : st.Intact) (hopen : st.isSealed = false) (byte : UInt8) (line : Int) :
    (st.withCell byte line).Intact ∧ (st.withCell byte line).view = st.view.push byte line := by
  have hfrozen := h.frozenCode
  have hconstants := h.frozenConstants
  rw [hopen] at hfrozen hconstants
  refine ⟨⟨?_, ?_, ?_⟩, ?_⟩
  · simp [Storage.withCell, h.lines]
  · simp [Storage.withCell, hopen, hfrozen]
  · simp [Storage.withCell, hopen, hconstants]
  · have hlen : st.code.toList.length = st.lines.toList.length := h.lines.symm
    unfold view Chunk.push
    congr 1
    apply Array.toList_inj.mp
    simp [Storage.withCell, List.zip_append hlen]

theorem Intact.withConstant (h : st.Intact) (hopen : st.isSealed = false) (v : Value) :
    (st.withConstant v).Intact ∧
      (st.withConstant v).view = { st.view with constants := st.view.constants.push v } := by
  have hfrozen := h.frozenCode
  have hconstants := h.frozenConstants
  rw [hopen] at hfrozen hconstants
  refine ⟨⟨h.lines, ?_, ?_⟩, rfl⟩
  · simp [Storage.withConstant, hopen, hfrozen]
  · simp [Storage.withConstant, hopen, hconstants]

theorem exec_appendByte (st : Storage) {byte : Int} (h : 0 ≤ byte ∧ byte < 256) :
    (appendByte byte).exec st =
      (.ok (), { st with code := st.code.push (UInt8.ofNat byte.toNat) }) := by
  rw [appendByte, if_pos h]
  rfl

theorem exec_appendByte_of_not (st : Storage) {byte : Int} (h : ¬ (0 ≤ byte ∧ byte < 256)) :
    (appendByte byte).exec st = (.error (.argument .byteRange), st) := by
  rw [appendByte, if_neg h]
  rfl

theorem exec_write_of_sealed (h : st.isSealed = true) (byte line : Int) :
    (write byte line).exec st = (.error (.bytecode .sealedChunk), st) := by
  refine exec_bind_of_error ?_
  rw [exec_checkOpen, h]
  rfl

theorem exec_write_of_open (h : st.isSealed = false) (byte line : Int) :
    (write byte line).exec st = (do appendByte byte; appendLine line : StorageM Unit).exec st := by
  refine exec_bind_of_ok (a := ()) ?_
  rw [exec_checkOpen, h]
  rfl

/-- Both parts of a write are done, or none. -/
theorem mirrors_write (h : st.Intact) (byte line : Int) :
    Mirrors (write byte line) st (st.view.write byte line) where
  done d hd := by
    obtain ⟨hopen, h0, h1, rfl⟩ := Chunk.write_eq_ok_iff.mp hd
    obtain ⟨hintact, hview⟩ := h.withCell hopen (UInt8.ofNat byte.toNat) line
    refine ⟨(), _, ?_, hintact, hview⟩
    rw [exec_write_of_open hopen, exec_bind_of_ok (exec_appendByte st ⟨h0, h1⟩)]
    rfl
  failed f hf := by
    unfold Chunk.write at hf
    cases hsealed : st.isSealed with
    | true =>
      rw [if_pos (show st.view.isSealed = true from hsealed)] at hf
      cases hf
      exact exec_write_of_sealed hsealed byte line
    | false =>
      rw [show st.view.isSealed = false from hsealed] at hf
      by_cases hbyte : 0 ≤ byte ∧ byte < 256
      · rw [if_neg Bool.false_ne_true, if_pos hbyte] at hf
        cases hf
      · rw [if_neg Bool.false_ne_true, if_neg hbyte] at hf
        cases hf
        rw [exec_write_of_open hsealed, exec_bind_of_error (exec_appendByte_of_not st hbyte)]

theorem exec_pushConstant_of_open (h : st.isSealed = false) (v : Value) :
    (pushConstant v).exec st = (.ok st.constants.size, st.withConstant v) := by
  have hcheck : checkOpen.exec st = (.ok (), st) := by
    rw [exec_checkOpen, h]
    rfl
  rw [pushConstant, exec_bind_of_ok hcheck]
  show (Except.ok ((st.constants.push v).size - 1), st.withConstant v) = _
  rw [Array.size_push, Nat.add_sub_cancel]

theorem exec_pushConstant_of_sealed (h : st.isSealed = true) (v : Value) :
    (pushConstant v).exec st = (.error (.bytecode .sealedChunk), st) := by
  refine exec_bind_of_error ?_
  rw [exec_checkOpen, h]
  rfl

theorem mirrors_pushConstant (h : st.Intact) (v : Value) :
    Mirrors (pushConstant v) st (st.view.pushConstant v) where
  done d hd := by
    obtain ⟨hopen, rfl⟩ := Chunk.pushConstant_eq_ok_iff.mp hd
    obtain ⟨hintact, hview⟩ := h.withConstant hopen v
    exact ⟨_, _, exec_pushConstant_of_open hopen v, hintact, hview⟩
  failed f hf := by
    unfold Chunk.pushConstant at hf
    cases hsealed : st.isSealed with
    | true =>
      rw [if_pos (show st.view.isSealed = true from hsealed)] at hf
      cases hf
      exact exec_pushConstant_of_sealed hsealed v
    | false =>
      rw [show st.view.isSealed = false from hsealed] at hf
      cases hf

/-! ## Series of operations -/

/-- Operations one after the other. Only the first may fail, since what it has done stays. -/
theorem Mirrors.bind {op : StorageM α} {g : α → StorageM β} {r : Except Fault Chunk}
    {q : Chunk → Except Fault Chunk} (h : Mirrors op st r)
    (hg : ∀ a st', op.exec st = (.ok a, st') → st'.Intact → Mirrors (g a) st' (q st'.view))
    (hq : ∀ d, r = .ok d → ∃ e, q d = .ok e) : Mirrors (op >>= g) st (r >>= q) where
  done e he := by
    obtain ⟨d, hd, hqd⟩ := bind_eq_ok_iff.mp he
    obtain ⟨a, st', hexec, hintact, rfl⟩ := h.done d hd
    obtain ⟨b, st'', hexec', hrest⟩ := (hg a st' hexec hintact).done e hqd
    exact ⟨b, st'', (exec_bind_of_ok hexec).trans hexec', hrest⟩
  failed f hf := by
    rcases bind_eq_error_iff.mp hf with hf | ⟨d, hd, hqd⟩
    · exact exec_bind_of_error (h.failed f hf)
    · obtain ⟨e, he⟩ := hq d hd
      rw [he] at hqd
      cases hqd

theorem Mirrors.of_exec {op op' : StorageM α} {r : Except Fault Chunk} (h : Mirrors op' st r)
    (hexec : op.exec st = op'.exec st) : Mirrors op st r := by
  constructor
  · rw [hexec]
    exact h.done
  · rw [hexec]
    exact h.failed

theorem mirrors_throw (f : Fault) (st : Storage) :
    Mirrors (throw f : StorageM α) st (.error f) :=
  ⟨nofun, fun _ hf => by cases hf; rfl⟩

theorem exists_write {c : Chunk} (hopen : c.isSealed = false) {byte : Int} (h0 : 0 ≤ byte)
    (h1 : byte < 256) (line : Int) : ∃ d, c.write byte line = .ok d ∧ d.isSealed = false :=
  ⟨_, Chunk.write_eq_ok_iff.mpr ⟨hopen, h0, h1, rfl⟩, hopen⟩

/-- A constant, the tag and the index; the tag and the index of a constant that has been appended
are always written. -/
theorem mirrors_constant (h : st.Intact) (v : Value) (line : Int)
    (hsize : st.constants.size < maxConstants) :
    Mirrors (do
        let index ← pushConstant v
        write Opcode.constant.tag.toNat line
        write index line) st (do
        let c ← st.view.pushConstant v
        let c ← c.write Opcode.constant.tag.toNat line
        c.write st.constants.size line) := by
  have htag (c : Chunk) (hopen : c.isSealed = false) :
      ∃ d, c.write Opcode.constant.tag.toNat line = .ok d ∧ d.isSealed = false :=
    exists_write hopen (by decide) (by decide) line
  have hindex (c : Chunk) (hopen : c.isSealed = false) :
      ∃ d, c.write st.constants.size line = .ok d ∧ d.isSealed = false :=
    exists_write hopen (Int.natCast_nonneg _) (by unfold maxConstants at hsize; omega) line
  have hopen {c d : Chunk} {byte : Int} (hd : c.write byte line = .ok d) : d.isSealed = false := by
    obtain ⟨hopen, -, -, rfl⟩ := Chunk.write_eq_ok_iff.mp hd
    exact hopen
  refine (mirrors_pushConstant h v).bind (fun index st' hexec hintact => ?_) fun c hc => ?_
  · cases hsealed : st.isSealed with
    | true =>
      rw [exec_pushConstant_of_sealed hsealed] at hexec
      cases hexec
    | false =>
      rw [exec_pushConstant_of_open hsealed] at hexec
      cases hexec
      refine (mirrors_write hintact _ line).bind (fun _ st'' _ h'' => mirrors_write h'' _ line) ?_
      exact fun d hd => (hindex d (hopen hd)).imp fun _ => And.left
  · obtain ⟨hsealed, rfl⟩ := Chunk.pushConstant_eq_ok_iff.mp hc
    obtain ⟨d, hd, hdopen⟩ := htag { st.view with constants := st.view.constants.push v } hsealed
    obtain ⟨e, he, -⟩ := hindex d hdopen
    exact ⟨e, bind_eq_ok_iff.mpr ⟨d, hd, he⟩⟩

theorem mapError_appendConstant {c : Chunk} (hsize : c.constants.size < maxConstants) (v : Value)
    (line textLine : Int) :
    (Assembly.appendConstant c v line).mapError (·.atLine textLine) = (do
      let d ← c.pushConstant v
      let d ← d.write Opcode.constant.tag.toNat line
      d.write c.constants.size line) := by
  unfold Assembly.appendConstant Assembly.put
  dsimp only
  rw [if_neg (Nat.not_le.mpr hsize)]
  cases c.pushConstant v with
  | error f => rfl
  | ok d =>
    simp only [bind, Except.bind, Except.mapError]
    cases d.write Opcode.constant.tag.toNat line with
    | error f => rfl
    | ok d =>
      dsimp only
      cases d.write c.constants.size line <;> rfl

/-- The constant is not in the pool if its instruction is not in the code. -/
theorem mirrors_appendOperand (h : st.Intact) (op : Opcode) (operand : List Char)
    (line textLine : Int) : Mirrors (appendOperand op operand line textLine) st
      ((Assembly.appendOperand st.view op operand line).mapError (·.atLine textLine)) := by
  cases op with
  | ret | negate => exact mirrors_throw _ st
  | constant =>
    unfold appendOperand Assembly.appendOperand
    dsimp only
    cases Literal.read operand with
    | error f => exact mirrors_throw _ st
    | ok v =>
      show Mirrors _ st ((Assembly.appendConstant st.view v line).mapError (·.atLine textLine))
      rcases Nat.lt_or_ge st.constants.size maxConstants with hsize | hsize
      · rw [mapError_appendConstant (c := st.view) hsize]
        refine (mirrors_constant h v line hsize).of_exec ?_
        rw [exec_bind_of_ok (exec_get st), if_neg (Nat.not_le.mpr hsize)]
      · rw [Assembly.appendConstant, if_pos (show maxConstants ≤ st.view.constants.size from hsize)]
        refine (mirrors_throw _ st).of_exec ?_
        rw [exec_bind_of_ok (exec_get st), if_pos hsize]
        rfl

/-! ## Cursors -/

theorem Intact.toFrozen (h : st.Intact) :
    st.toFrozen.Intact ∧ st.toFrozen.view = st.view.toSealed := by
  unfold Storage.toFrozen
  cases hsealed : st.isSealed with
  | true =>
    rw [if_pos rfl]
    exact ⟨h, (Chunk.toSealed_of_isSealed hsealed).symm⟩
  | false =>
    rw [if_neg Bool.false_ne_true]
    exact ⟨⟨h.lines, rfl, rfl⟩, rfl⟩

theorem isSealed_toFrozen (st : Storage) : st.toFrozen.isSealed = true := by
  unfold Storage.toFrozen
  split
  · assumption
  · rfl

/-- A cursor looks at the code of the sealed chunk, wherever it is. -/
theorem Intact.exec_cursorAt (h : st.Intact) (offset : Int) : (cursorAt offset).exec st =
    if st.isSealed then (.ok ⟨st.code, offset⟩, st) else (.error (.argument .openChunk), st) := by
  rw [cursorAt, exec_bind_of_ok (exec_get st), h.visibleCode_eq]
  cases st.isSealed <;> rfl

theorem Intact.exec_baseCursor (h : st.Intact) :
    baseCursor.exec st = (.ok ⟨st.toFrozen.code, 0⟩, st.toFrozen) := by
  rw [baseCursor, freeze, exec_bind_of_ok (exec_modify Storage.toFrozen st),
    h.toFrozen.1.exec_cursorAt, if_pos st.isSealed_toFrozen]

/-! ## Lookups -/

/-- A part of the cells is looked up in an array of its own as it is in the cells. -/
theorem lookAt_map (f : Cell → α) (c : Chunk) (offset : Int) :
    lookAt (c.cells.map f) offset = (c.cellAt offset).map f := by
  unfold lookAt Chunk.cellAt
  rw [Array.size_map, show c.cells.size = c.size from rfl]
  dsimp only
  generalize (if offset < 0 then offset + (c.size : Int) else offset) = place
  split
  · rfl
  · rw [Array.getElem?_map]
    cases c.cells[place.toNat]? <;> rfl

theorem Intact.byteAt_eq (h : st.Intact) (offset : Int) :
    st.byteAt offset = st.view.byteAt offset := by
  have hcode : st.code = st.view.cells.map (·.byte) := by
    rw [← Array.toList_inj, Array.toList_map]
    exact h.code_view.symm
  rw [Storage.byteAt, hcode, lookAt_map]
  rfl

theorem Intact.lineAt_eq (h : st.Intact) (offset : Int) :
    st.lineAt offset = st.view.lineAt offset := by
  have hlines : st.lines = st.view.cells.map (·.line) := by
    rw [← Array.toList_inj, Array.toList_map]
    exact h.lines_view.symm
  rw [Storage.lineAt, hlines, lookAt_map]
  rfl

theorem constantAt_eq (st : Storage) (index : Int) :
    st.constantAt index = st.view.constantAt index := rfl

end
end Storage
end LoxMachine
