import LoxMachine.Proofs.Session.Storage

/-!
# The life of a chunk

A chunk is made empty and open. What is written to it is appended, and stays where it is. The first
cursor or the first step of a machine seals it, and then nothing of it changes any more. A request
that fails changes nothing.

    {} → ... → c → d → ... → e,  where a request r of any kind makes d of c           (lifecycle)

Cursors keep the chunk as it was when they were taken, and that is the chunk which the session has
at any later time. The storage that the requests leave, array by array, stands for the chunk all the
time.
-/

namespace LoxMachine.Session

/-- What a chunk is asked for cannot be done. -/
def ChunkRequest.Breaks (c : Chunk) : ChunkRequest → Prop
  | .write byte _ => c.isSealed = true ∨ byte < 0 ∨ 256 ≤ byte
  | .pushConstant _ => c.isSealed = true
  | .cursorAt _ => c.isSealed = false
  | .constantAt index => index < 0 ∨ c.constants.size ≤ index
  | .lineAt offset | .byteAt offset => offset < -c.size ∨ c.size ≤ offset
  | _ => False

/-- One operation, which is done or has no effect. A series of writes is many, and a machine keeps
what it has done before it fails. -/
def Request.IsSingle : Request → Prop
  | .onChunk _ (.writeMany ..) => False
  | .onMachine _ r => ¬ r.Executes
  | _ => True

/-- One of the requests seals the chunk with the number `i`. -/
def SealedDuring (s : Session) (i : Nat) : List Request → Prop
  | [] => False
  | r :: rest => r.Seals s i ∨ (s.perform r).1.SealedDuring i rest

/-- The chunk with the number `i` from `c` by a request to `d`, and then up to `e`. -/
structure Lifecycle (s : Session) (i : Nat) (r : Request) (c d : Chunk) (later : Session)
    (e : Chunk) : Prop where
  lengths : c.lines.length = c.code.length ∧ c.code.length = c.size
  bytes : ∀ b ∈ c.code, b.toNat < 256
  grows : c.Grows d
  growsOn : d.Grows e
  write : ∀ byte line, r = .onChunk i (.write byte line) →
    ¬ (ChunkRequest.write byte line).Breaks c →
      (s.perform r).2 = .ok (.count (c.size + 1)) ∧
        ∃ b : UInt8, (b.toNat : Int) = byte ∧ d = c.push b line
  /-- The index of a constant is answered, and stays its index. -/
  pushConstant : ∀ v, r = .onChunk i (.pushConstant v) → c.isSealed = false →
    (s.perform r).2 = .ok (.count c.constants.size) ∧
      d = { c with constants := c.constants.push v } ∧ e.constantAt c.constants.size = .ok v
  breaks : ∀ q : ChunkRequest, r = .onChunk i q → q.Breaks c → ∃ f, (s.perform r).2 = .error f
  failed : r.IsSingle → (∃ f, (s.perform r).2 = .error f) → d = c
  executed : ∀ k q, r = .onMachine k q → d = c ∨ d = c.toSealed
  sealing : d.isSealed = true ↔ c.isSealed = true ∨ r.Seals s i
  cursors : ∀ (j : Nat) (k : Cursor), later.cursors[j]? = some (i, k) →
    k.chunk = e ∧ e.isSealed = true ∧
      ∀ distance, (k.advance distance).byte = e.byteAt (k.offset + distance)

/-- The storage of the chunk through all of this: at first, after the request, and in the end. -/
structure Stored (s : Session) (i : Nat) (r : Request) (c d : Chunk) (later : Session) (e : Chunk)
    (first second last : Storage) : Prop where
  intact : first.Intact ∧ second.Intact ∧ last.Intact
  views : first.view = c ∧ second.view = d ∧ last.view = e
  lengths : first.lines.size = first.code.size ∧ second.lines.size = second.code.size
  grows : first.code.toList <+: second.code.toList ∧
    first.lines.toList <+: second.lines.toList ∧
    first.constants.toList <+: second.constants.toList
  failed : r.IsSingle → (∃ f, (s.perform r).2 = .error f) → second = first
  frozen : second.isSealed = true → last = second
  /-- Readers of the whole get the chunk's code and constants, from the copies or not. -/
  visible : last.visibleCode.toList = e.code ∧ last.visibleConstants = e.constants
  /-- The arrays are looked up as the chunk is. -/
  lookups : ∀ place, last.byteAt place = e.byteAt place ∧ last.lineAt place = e.lineAt place ∧
    last.constantAt place = e.constantAt place
  /-- A cursor can be had once the chunk is sealed, and looks at the code that there is. -/
  bound : ∀ offset, (Storage.cursorAt offset).exec last =
    if last.isSealed then (.ok ⟨last.code, offset⟩, last) else (.error (.argument .openChunk), last)
  /-- The code of a cursor is the copy, and what has been copied. -/
  cursors : ∀ (j : Nat) (k : Cursor), later.cursors[j]? = some (i, k) →
    last.frozenCode = some last.code ∧ last.frozenConstants = some last.constants ∧
      k.chunk.code = last.code.toList ∧
      ∀ offset, (StoredCursor.mk last.visibleCode offset).byte = last.byteAt offset ∧
        last.byteAt offset = k.chunk.byteAt offset

section
variable {s : Session} {i : Nat} {c : Chunk}

/-! ## Writes -/

theorem perform_onChunk (hc : s.chunks[i]? = some c) (q : ChunkRequest) :
    s.perform (.onChunk i q) = s.onChunk i c q := by
  unfold perform
  dsimp only
  rw [hc]

theorem Request.effect_onChunk (s : Session) (i : Nat) (c : Chunk) (q : ChunkRequest) :
    (Request.onChunk i q).effect s i c = q.effect c := if_pos rfl

theorem perform_write (hc : s.chunks[i]? = some c) {byte line : Int}
    (h : ¬ (ChunkRequest.write byte line).Breaks c) :
    (s.perform (.onChunk i (.write byte line))).2 = .ok (.count (c.size + 1)) ∧
      ∃ b : UInt8, (b.toNat : Int) = byte ∧
        (ChunkRequest.write byte line).effect c = c.push b line := by
  simp only [ChunkRequest.Breaks, not_or, Bool.not_eq_true] at h
  have hw : c.write byte line = .ok (c.push (UInt8.ofNat byte.toNat) line) :=
    Chunk.write_eq_ok_iff.mpr ⟨h.1, by omega, by omega, rfl⟩
  rw [perform_onChunk hc]
  unfold onChunk ChunkRequest.effect
  dsimp only
  rw [hw]
  refine ⟨?_, UInt8.ofNat byte.toNat, ?_, rfl⟩
  · simp only [update, Chunk.size, Chunk.push, Array.size_push]
  · rw [UInt8.toNat_ofNat_of_lt' (by show byte.toNat < 256; omega)]
    omega

theorem perform_pushConstant (hc : s.chunks[i]? = some c) (hopen : c.isSealed = false) (v : Value) :
    (s.perform (.onChunk i (.pushConstant v))).2 = .ok (.count c.constants.size) ∧
      (ChunkRequest.pushConstant v).effect c = { c with constants := c.constants.push v } := by
  rw [perform_onChunk hc]
  unfold onChunk ChunkRequest.effect
  dsimp only
  rw [Chunk.pushConstant_eq_ok_iff.mpr ⟨hopen, rfl⟩]
  exact ⟨rfl, rfl⟩

theorem constantAt_push (c : Chunk) (v : Value) :
    Chunk.constantAt { c with constants := c.constants.push v } c.constants.size = .ok v := by
  unfold Chunk.constantAt
  rw [if_neg (Int.not_lt.mpr (Int.natCast_nonneg _)), Int.toNat_natCast, Array.getElem?_push_size]

/-! ## Failures -/

theorem update_eq_error {j : Nat} {reply : Chunk → Reply} {result : Except Fault Chunk}
    {e : Refusal} (h : (s.update j reply result).2 = .error e) : ∃ f, result = .error f := by
  cases result with
  | ok d => cases h
  | error f => exact ⟨f, rfl⟩

theorem ChunkRequest.effect_of_error {q : ChunkRequest} {e : Refusal}
    (hq : (Request.onChunk i q).IsSingle) (h : (s.onChunk i c q).2 = .error e) :
    q.effect c = c := by
  cases q with
  | write byte line =>
    obtain ⟨f, hf⟩ := update_eq_error h
    exact congrArg (kept c) hf
  | pushConstant v =>
    obtain ⟨f, hf⟩ := update_eq_error h
    exact congrArg (kept c) hf
  | appendOperand op operand line textLine =>
    obtain ⟨f, hf⟩ := update_eq_error h
    exact congrArg (kept c) hf
  | writeMany bytes line times => exact hq.elim
  | cursor => cases h
  | state | constantAt _ | lineAt _ | byteAt _ | listing _ | entry _ | save _ | cursorAt _
  | machine _ _ => rfl

/-- **Failures.** A single operation that fails changes nothing. -/
theorem Request.effect_of_error (hc : s.chunks[i]? = some c) {r : Request} {e : Refusal}
    (hr : r.IsSingle) (h : (s.perform r).2 = .error e) : r.effect s i c = c := by
  cases r with
  | onChunk j q =>
    unfold Request.effect
    dsimp only
    by_cases hj : j = i
    · subst hj
      rw [perform_onChunk hc] at h
      rw [if_pos rfl, q.effect_of_error hr h]
    · exact if_neg hj
  | onMachine k q => exact if_neg fun h => hr h.1
  | newChunk | assemble _ | loadAssembly _ | loadDocument _ | onCursor _ _ => rfl

theorem cellAt_eq_error {offset : Int} (h : offset < -c.size ∨ c.size ≤ offset) :
    c.cellAt offset = .error .offsetRange := by
  have hsize : c.cells.size = c.size := rfl
  unfold Chunk.cellAt
  by_cases hneg : offset < 0
  · simp only [if_pos hneg]
    exact if_pos (by omega)
  · simp only [if_neg hneg, Array.getElem?_eq_none (show c.cells.size ≤ offset.toNat by omega)]

theorem ChunkRequest.onChunk_of_breaks {q : ChunkRequest} (h : q.Breaks c) :
    ∃ f, (s.onChunk i c q).2 = .error f := by
  cases q with
  | write byte line =>
    cases hw : c.write byte line with
    | ok d =>
      obtain ⟨hopen, h0, h1, -⟩ := Chunk.write_eq_ok_iff.mp hw
      obtain hs | hs := h
      · rw [hopen] at hs
        cases hs
      · omega
    | error f => exact ⟨.fault f, by simp only [onChunk, hw, update, refuse]⟩
  | pushConstant v =>
    cases hp : c.pushConstant v with
    | ok d =>
      have hs : c.isSealed = true := h
      rw [(Chunk.pushConstant_eq_ok_iff.mp hp).1] at hs
      cases hs
    | error f => exact ⟨.fault f, by simp only [onChunk, hp, update, refuse]⟩
  | cursorAt offset =>
    have hopen : ¬ c.isSealed = true := by
      rw [show c.isSealed = false from h]
      exact Bool.false_ne_true
    refine ⟨.fault (.argument .openChunk), ?_⟩
    simp only [onChunk, Chunk.cursorAt, dif_neg hopen, refuse]
  | constantAt index =>
    refine ⟨.fault (.bytecode (.constantIndex index c.constants.size)), ?_⟩
    have herr :
        c.constantAt index = .error (.bytecode (.constantIndex index c.constants.size)) := by
      unfold Chunk.constantAt
      by_cases h0 : index < 0
      · exact if_pos h0
      · have hsize : (c.constants.size : Int) ≤ index := h.resolve_left h0
        rw [if_neg h0, Array.getElem?_eq_none (by omega)]
    simp only [onChunk, herr, answer, refuse]
  | lineAt offset | byteAt offset =>
    refine ⟨.fault .offsetRange, ?_⟩
    simp only [onChunk, Chunk.lineAt, Chunk.byteAt, cellAt_eq_error h, bind, Except.bind, answer,
      refuse]
  | state | writeMany _ _ _ | appendOperand _ _ _ _ | listing _ | entry _ | save _ | cursor
  | machine _ _ => exact h.elim

/-! ## Cursors -/

/-- Cursors keep the chunk that the session has. -/
def CursorsBound (s : Session) : Prop :=
  ∀ (j i : Nat) (k : Cursor), s.cursors[j]? = some (i, k) → s.chunks[i]? = some k.chunk

/-- The cursors of `s'` are those of `s`, some of them moved, and new ones that keep the chunk which
`s'` has. -/
def CursorsFrom (s s' : Session) : Prop :=
  ∀ (j i : Nat) (k : Cursor), s'.cursors[j]? = some (i, k) →
    (∃ k₀ : Cursor, s.cursors[j]? = some (i, k₀) ∧ k.chunk = k₀.chunk) ∨
      s'.chunks[i]? = some k.chunk

theorem cursorsFrom_of_eq {s' : Session} (h : s'.cursors = s.cursors) : s.CursorsFrom s' :=
  fun j i k hk => .inl ⟨k, by rwa [← h], rfl⟩

theorem cursorsFrom_addCursor {s' : Session} {k : Cursor} (h : s'.cursors = s.cursors)
    (hk : s'.chunks[i]? = some k.chunk) : s.CursorsFrom (s'.addCursor i k).1 := by
  intro j i' k' hk'
  change (s'.cursors.push (i, k))[j]? = _ at hk'
  rw [Array.getElem?_push] at hk'
  split at hk'
  · cases hk'
    exact .inr hk
  · exact cursorsFrom_of_eq h j i' k' hk'

theorem cursorsFrom_onChunk (hc : s.chunks[i]? = some c) (q : ChunkRequest) :
    s.CursorsFrom (s.onChunk i c q).1 := by
  have hupdate : ∀ (reply : Chunk → Reply) (result : Except Fault Chunk),
      s.CursorsFrom (s.update i reply result).1 := by
    intro reply result
    cases result <;> exact cursorsFrom_of_eq rfl
  cases q with
  | write byte line => exact hupdate _ _
  | pushConstant v => exact hupdate _ _
  | appendOperand op operand line textLine => exact hupdate _ _
  | cursor =>
    refine cursorsFrom_addCursor rfl ?_
    rw [chunks_setChunk hc, if_pos rfl]
    rfl
  | cursorAt offset =>
    unfold onChunk
    dsimp only
    cases hk : c.cursorAt offset with
    | error f => exact cursorsFrom_of_eq rfl
    | ok k =>
      refine cursorsFrom_addCursor rfl ?_
      unfold Chunk.cursorAt at hk
      split at hk <;> cases hk
      exact hc
  | state | writeMany _ _ _ | constantAt _ | lineAt _ | byteAt _ | listing _ | entry _ | save _
  | machine _ _ => exact cursorsFrom_of_eq rfl

theorem cursorsFrom_onCursor {j : Nat} {k : Cursor} (hk : s.cursors[j]? = some (i, k))
    (q : CursorRequest) : s.CursorsFrom (s.onCursor j i k q).1 := by
  cases q with
  | advance distance =>
    intro j' i' k' hk'
    change (s.cursors.setIfInBounds j (i, k.advance distance))[j']? = _ at hk'
    rw [Array.getElem?_setIfInBounds] at hk'
    split at hk'
    · next hj =>
      subst hj
      split at hk' <;> cases hk'
      exact .inl ⟨k, hk, rfl⟩
    · exact .inl ⟨k', hk', rfl⟩
  | state | opcode | byte | line | owner => exact cursorsFrom_of_eq rfl

theorem cursorsFrom_perform (s : Session) (r : Request) : s.CursorsFrom (s.perform r).1 := by
  cases r with
  | newChunk => exact cursorsFrom_of_eq rfl
  | assemble lines | loadAssembly bytes | loadDocument bytes =>
    unfold perform
    dsimp only
    split <;> exact cursorsFrom_of_eq rfl
  | onChunk j q =>
    unfold perform
    dsimp only
    cases hc : s.chunks[j]? with
    | none => exact cursorsFrom_of_eq rfl
    | some c => exact cursorsFrom_onChunk hc q
  | onCursor j q =>
    unfold perform
    dsimp only
    cases hk : s.cursors[j]? with
    | none => exact cursorsFrom_of_eq rfl
    | some p => exact cursorsFrom_onCursor hk q
  | onMachine k q =>
    unfold perform
    dsimp only
    cases s.machines[k]? with
    | none => exact cursorsFrom_of_eq rfl
    | some p =>
      cases q with
      | advance distance =>
        unfold onMachine
        dsimp only
        split <;> exact cursorsFrom_of_eq rfl
      | state | push _ | step | run | takeEvents => exact cursorsFrom_of_eq rfl

/-- The chunk of a cursor is sealed, so no request changes it. -/
theorem CursorsBound.perform (h : s.CursorsBound) (r : Request) :
    (s.perform r).1.CursorsBound := by
  intro j i k hk
  obtain ⟨k₀, hk₀, heq⟩ | hnew := s.cursorsFrom_perform r j i k hk
  · rw [getElem?_chunks_perform (h j i k₀ hk₀), r.grows_effect.frozen k₀.isSealed, heq]
  · exact hnew

/-! ## Series of requests -/

theorem CursorsBound.performAll (h : s.CursorsBound) (rs : List Request) :
    (s.performAll rs).1.CursorsBound := by
  induction rs generalizing s with
  | nil => exact h
  | cons r rest ih => exact ih (h.perform r)

/-- **Requests, one after the other.** A chunk grows at most, and it is sealed as soon as one of
them seals it. -/
theorem exists_chunk_performAll (hc : s.chunks[i]? = some c) (rs : List Request) :
    ∃ d, (s.performAll rs).1.chunks[i]? = some d ∧ c.Grows d ∧
      (d.isSealed = true ↔ c.isSealed = true ∨ s.SealedDuring i rs) := by
  induction rs generalizing s c with
  | nil => exact ⟨c, hc, .refl c, by simp only [SealedDuring, or_false]⟩
  | cons r rest ih =>
    obtain ⟨d, hd, hgrows, hsealed⟩ := ih (getElem?_chunks_perform hc r)
    refine ⟨d, hd, r.grows_effect.trans hgrows, ?_⟩
    rw [hsealed, r.isSealed_effect, or_assoc]
    rfl

theorem cursorsBound_empty : ({} : Session).CursorsBound := fun j i k hk => by cases hk

theorem Request.effect_onMachine (s : Session) (i : Nat) (c : Chunk) (k : Nat)
    (q : MachineRequest) :
    (Request.onMachine k q).effect s i c = c ∨
      (Request.onMachine k q).effect s i c = c.toSealed := by
  unfold Request.effect
  dsimp only
  split
  · exact .inr rfl
  · exact .inl rfl

/-! ## The life of a chunk -/

/-- A request, and whatever lets the chunk grow after it. -/
theorem lifecycle_of_grows (hc : s.chunks[i]? = some c) (r : Request) {later : Session} {e : Chunk}
    (he : later.chunks[i]? = some e) (hgrows : (r.effect s i c).Grows e)
    (hbound : later.CursorsBound) : Lifecycle s i r c (r.effect s i c) later e where
  lengths := ⟨by simp, by simp⟩
  bytes b _ := b.toNat_lt
  grows := r.grows_effect
  growsOn := hgrows
  write := by
    rintro byte line rfl h
    obtain ⟨hanswer, b, hb, heffect⟩ := perform_write hc h
    exact ⟨hanswer, b, hb, (Request.effect_onChunk s i c _).trans heffect⟩
  pushConstant := by
    rintro v rfl hopen
    obtain ⟨hanswer, heffect⟩ := perform_pushConstant hc hopen v
    have heffect := (Request.effect_onChunk s i c _).trans heffect
    refine ⟨hanswer, heffect, hgrows.constantAt ?_⟩
    rw [heffect]
    exact constantAt_push c v
  breaks := by
    rintro q rfl h
    rw [perform_onChunk hc]
    exact q.onChunk_of_breaks h
  failed := fun hr ⟨f, hf⟩ => r.effect_of_error hc hr hf
  executed := by
    rintro k q rfl
    exact Request.effect_onMachine s i c k q
  sealing := r.isSealed_effect
  cursors j k hk := by
    have hchunk := hbound j i k hk
    rw [he, Option.some.injEq] at hchunk
    subst hchunk
    exact ⟨rfl, k.isSealed, fun distance => rfl⟩

/-- What holds of the chunk holds of its storage, since one tells the other. -/
theorem Lifecycle.stored {r : Request} {d : Chunk} {later : Session} {e : Chunk}
    (h : Lifecycle s i r c d later e) {first second last : Storage}
    (hintact : first.Intact ∧ second.Intact ∧ last.Intact)
    (hviews : first.view = c ∧ second.view = d ∧ last.view = e) :
    Stored s i r c d later e first second last := by
  obtain ⟨hfirst, hsecond, hlast⟩ := id hintact
  obtain ⟨rfl, rfl, rfl⟩ := id hviews
  refine ⟨hintact, hviews, ⟨hfirst.lines, hsecond.lines⟩, ?_, ?_, ?_, ⟨?_, ?_⟩,
    fun place => ?_, hlast.exec_cursorAt, ?_⟩
  · rw [← hfirst.code_view, ← hfirst.lines_view, ← hsecond.code_view, ← hsecond.lines_view]
    exact ⟨h.grows.code, h.grows.lines, h.grows.constants⟩
  · exact fun hr hf => hsecond.eq_of_view hfirst (h.failed hr hf)
  · exact fun hsealed => hlast.eq_of_view hsecond (h.growsOn.frozen hsealed)
  · rw [hlast.visibleCode_eq, hlast.code_view]
  · exact hlast.visibleConstants_eq
  · exact ⟨hlast.byteAt_eq place, hlast.lineAt_eq place, Storage.constantAt_eq last place⟩
  · intro j k hk
    obtain ⟨hchunk, hsealed, -⟩ := h.cursors j k hk
    rw [hchunk]
    refine ⟨?_, ?_, hlast.code_view, fun offset => ⟨?_, hlast.byteAt_eq offset⟩⟩
    · rw [hlast.frozenCode, if_pos (show last.isSealed = true from hsealed)]
    · rw [hlast.frozenConstants, if_pos (show last.isSealed = true from hsealed)]
    · rw [hlast.visibleCode_eq]
      rfl

end

/-- **The life of a chunk.** From `newChunk` over any requests to the session, to any chunk, cursor
or machine and answered in whatever way. -/
theorem lifecycle (before between : List Request) (r : Request) (after : List Request) :
    let s₀ := (({} : Session).performAll before).1
    let i := s₀.chunks.size
    let s₁ := (s₀.perform .newChunk).1
    let s := (s₁.performAll between).1
    let later := ((s.perform r).1.performAll after).1
    let first := s₁.storeAll i {} between
    let second := r.store s i first
    let last := (s.perform r).1.storeAll i second after
    ∃ c d e, s₁.chunks[i]? = some {} ∧ s.chunks[i]? = some c ∧
      (s.perform r).1.chunks[i]? = some d ∧ later.chunks[i]? = some e ∧
      (c.isSealed = true ↔ s₁.SealedDuring i between) ∧ Lifecycle s i r c d later e ∧
      Stored s i r c d later e first second last := by
  intro s₀ i s₁ s later first second last
  have hnew : s₁.chunks[i]? = some {} := Array.getElem?_push_size
  obtain ⟨c, hc, -, hsealed⟩ := exists_chunk_performAll hnew between
  have hd := getElem?_chunks_perform hc r
  obtain ⟨e, he, hgrows, -⟩ := exists_chunk_performAll hd after
  have hbound₁ : s₁.CursorsBound := (cursorsBound_empty.performAll before).perform .newChunk
  have hbound : later.CursorsBound := ((hbound₁.performAll between).perform r).performAll after
  have hopen : ¬ ({} : Chunk).isSealed = true := Bool.false_ne_true
  rw [or_iff_right hopen] at hsealed
  have hlife := lifecycle_of_grows hc r he hgrows hbound
  refine ⟨c, _, e, hnew, hc, hd, he, hsealed, hlife, ?_⟩
  rw [← Storage.view_empty] at hnew
  obtain ⟨hfirst, hfirstView⟩ := storeAll_spec Storage.intact_empty hnew between
  obtain rfl : first.view = c := Option.some.inj (hfirstView.symm.trans hc)
  obtain ⟨hsecond, hsecondView⟩ := r.store_spec hfirst s i
  rw [← hsecondView] at hd
  obtain ⟨hlast, hlastView⟩ := storeAll_spec hsecond hd after
  exact hlife.stored ⟨hfirst, hsecond, hlast⟩
    ⟨rfl, hsecondView, Option.some.inj (hlastView.symm.trans he)⟩

end LoxMachine.Session
