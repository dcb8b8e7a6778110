import LoxMachine.Proofs.Session.Lifecycle

/-!
# Clients of a sealed chunk

Cursors and machines are clients of a chunk. Once the chunk is sealed they do not meddle with each
other: whatever else is asked of the session in between, a client is answered as if it were alone,
and it ends in the same state.

    s.answersTo x rs             =  (t.performAll (own x y rs)).2
    (s.performAll rs).1.find? x  =  (t.performAll (own x y rs)).1.find? y      (Alike.alone)

Here `y` is a client of the session `t` that is like the client `x` of `s`, and `t` is asked for
nothing but what `x` is asked for.
-/

namespace LoxMachine.Session

/-! ## Clients -/

/-- A cursor or a machine, by its number. -/
inductive Client where
  | cursor (number : Nat)
  | machine (number : Nat)
  deriving DecidableEq

inductive ClientState where
  | cursor (k : Cursor)
  | machine (m : Machine)

/-- A client's state, with the number of its chunk. -/
def find? (s : Session) : Client → Option (Nat × ClientState)
  | .cursor n => (s.cursors[n]?).map fun p => (p.1, .cursor p.2)
  | .machine n => (s.machines[n]?).map fun p => (p.1, .machine p.2)

/-- The client that a request is made to, if it is made to one. -/
def Request.client? : Request → Option Client
  | .onCursor n _ => some (.cursor n)
  | .onMachine n _ => some (.machine n)
  | _ => none

/-- The same request, made to another client of the kind. -/
def Request.to (y : Client) (r : Request) : Request :=
  match y, r with
  | .cursor n, .onCursor _ q => .onCursor n q
  | .machine n, .onMachine _ q => .onMachine n q
  | _, _ => r

/-- The requests to the client `x` among others, in order, made to `y`. -/
def own (x y : Client) (rs : List Request) : List Request :=
  (rs.filter (·.client? = some x)).map (·.to y)

/-- What a client is answered while requests of all kinds are performed. -/
def answersTo (s : Session) (x : Client) (rs : List Request) : List Answer :=
  ((rs.zip (s.performAll rs).2).filter (·.1.client? = some x)).map (·.2)

/-- A client that a request to the chunk `c` makes, if it makes one. -/
def ChunkRequest.made? (c : Chunk) : ChunkRequest → Option ClientState
  | .cursor => some (.cursor c.cursor)
  | .cursorAt offset => (c.cursorAt offset).toOption.map .cursor
  | .machine name tracing => some (.machine { name, tracing })
  | _ => none

/-- The client that a session makes next. -/
def next (s : Session) : ClientState → Client
  | .cursor _ => .cursor s.cursors.size
  | .machine _ => .machine s.machines.size

/-- To the client `x`, requests of all kinds in `s` are as its own ones alone to `y` in `t`. -/
structure Alone (s : Session) (x : Client) (rs : List Request) (t : Session) (y : Client) :
    Prop where
  answers : s.answersTo x rs = (t.performAll (own x y rs)).2
  state : ∃ p, (s.performAll rs).1.find? x = some p ∧
    (t.performAll (own x y rs)).1.find? y = some p

/-- Clients of the same chunk in the same state. -/
structure Alike (i : Nat) (c : Chunk) (s : Session) (x : Client) (t : Session) (y : Client) :
    Prop where
  left : s.chunks[i]? = some c
  right : t.chunks[i]? = some c
  client : ∃ st, s.find? x = some (i, st) ∧ t.find? y = some (i, st)

/-! ## Requests to others -/

section
variable {s s' t : Session} {i : Nat} {c : Chunk} {x y : Client} {p : Nat × ClientState}

theorem find?_congr (hcursors : s'.cursors = s.cursors) (hmachines : s'.machines = s.machines)
    (x : Client) : s'.find? x = s.find? x := by
  cases x with
  | cursor n => simp only [find?, hcursors]
  | machine n => simp only [find?, hmachines]

theorem getElem?_set_of_some {α : Type} {a : Array α} {n : Nat} {v w : α} (h : a[n]? = some v) :
    (a.setIfInBounds n w)[n]? = some w := by
  have hlt := (Array.getElem?_eq_some_iff.mp h).1
  rw [Array.getElem?_setIfInBounds, if_pos rfl, if_pos hlt]

theorem find?_addCursor (h : s.find? x = some p) (j : Nat) (k : Cursor) :
    (s.addCursor j k).1.find? x = some p := by
  cases x with
  | machine n => exact h
  | cursor n =>
    obtain ⟨q, hq, rfl⟩ := Option.map_eq_some_iff.mp h
    exact Option.map_eq_some_iff.mpr ⟨q, getElem?_push_of_some hq, rfl⟩

theorem find?_addMachine (h : s.find? x = some p) (j : Nat) (m : Machine) :
    (s.addMachine j m).1.find? x = some p := by
  cases x with
  | cursor n => exact h
  | machine n =>
    obtain ⟨q, hq, rfl⟩ := Option.map_eq_some_iff.mp h
    exact Option.map_eq_some_iff.mpr ⟨q, getElem?_push_of_some hq, rfl⟩

theorem find?_update (x : Client) (j : Nat) (reply : Chunk → Reply) (result : Except Fault Chunk) :
    (s.update j reply result).1.find? x = s.find? x := by
  cases result <;> exact find?_congr rfl rfl x

theorem find?_onChunk (h : s.find? x = some p) (j : Nat) (c : Chunk) (q : ChunkRequest) :
    (s.onChunk j c q).1.find? x = some p := by
  cases q with
  | write _ _ | pushConstant _ | appendOperand _ _ _ _ => exact (find?_update x j _ _).trans h
  | cursor => exact find?_addCursor (find?_congr rfl rfl x ▸ h) j _
  | cursorAt offset =>
    unfold onChunk
    dsimp only
    cases c.cursorAt offset with
    | ok k => exact find?_addCursor h j k
    | error f => exact h
  | machine name tracing => exact find?_addMachine h j _
  | state | writeMany _ _ _ | constantAt _ | lineAt _ | byteAt _ | listing _ | entry _ | save _ =>
    exact (find?_congr rfl rfl x).trans h

theorem find?_onCursor {n : Nat} (hx : x ≠ .cursor n) (j : Nat) (k : Cursor) (q : CursorRequest) :
    (s.onCursor n j k q).1.find? x = s.find? x := by
  cases q with
  | advance distance =>
    cases x with
    | machine n' => rfl
    | cursor n' =>
      have hne : n ≠ n' := fun h => hx (congrArg Client.cursor h.symm)
      unfold onCursor find?
      dsimp only
      rw [Array.getElem?_setIfInBounds, if_neg hne]
  | state | opcode | byte | line | owner => rfl

theorem find?_setMachine {n : Nat} (hx : x ≠ .machine n) (j : Nat) (m : Machine) :
    (s.setMachine n j m).find? x = s.find? x := by
  cases x with
  | cursor n' => rfl
  | machine n' =>
    have hne : n ≠ n' := fun h => hx (congrArg Client.machine h.symm)
    unfold setMachine find?
    dsimp only
    rw [Array.getElem?_setIfInBounds, if_neg hne]

theorem find?_onMachine {n : Nat} (hx : x ≠ .machine n) (j : Nat) (c : Chunk) (m : Machine)
    (q : MachineRequest) : (s.onMachine n j c m q).1.find? x = s.find? x := by
  cases q with
  | state => rfl
  | push v => exact find?_setMachine hx j _
  | advance distance =>
    unfold onMachine
    cases m.ip with
    | none => rfl
    | some offset => exact find?_setMachine hx j _
  | step | run => exact (find?_setMachine hx j _).trans (find?_congr rfl rfl x)
  | takeEvents => exact find?_setMachine hx j _

/-- **Other requests.** A client is left as it is by all requests that are not made to it. -/
theorem find?_perform (h : s.find? x = some p) {r : Request} (hr : r.client? ≠ some x) :
    (s.perform r).1.find? x = some p := by
  cases r with
  | newChunk => exact (find?_congr rfl rfl x).trans h
  | assemble lines =>
    unfold perform
    dsimp only
    split <;> exact (find?_congr rfl rfl x).trans h
  | loadAssembly bytes =>
    unfold perform
    dsimp only
    split <;> exact (find?_congr rfl rfl x).trans h
  | loadDocument bytes =>
    unfold perform
    dsimp only
    split <;> exact (find?_congr rfl rfl x).trans h
  | onChunk j q =>
    unfold perform
    dsimp only
    split
    · exact find?_onChunk h j _ q
    · exact h
  | onCursor n q =>
    unfold perform
    dsimp only
    split
    · exact (find?_onCursor (fun hx => hr (congrArg some hx.symm)) _ _ q).trans h
    · exact h
  | onMachine n q =>
    unfold perform
    dsimp only
    split
    · exact (find?_onMachine (fun hx => hr (congrArg some hx.symm)) _ _ _ q).trans h
    · exact h

/-! ## Own requests -/

/-- What a cursor answers, and its state after that, are told by its own state. -/
theorem onCursor_alone (i : Nat) (k : Cursor) (q : CursorRequest) :
    ∃ k' a, ∀ (s : Session) (n : Nat), s.cursors[n]? = some (i, k) →
      (s.onCursor n i k q).2 = a ∧ (s.onCursor n i k q).1.cursors[n]? = some (i, k') := by
  cases q with
  | advance distance =>
    exact ⟨k.advance distance, _, fun s n h => ⟨rfl, getElem?_set_of_some h⟩⟩
  | state | opcode | byte | line | owner => exact ⟨k, _, fun s n h => ⟨rfl, h⟩⟩

/-- So it is with a machine, and the chunk that it executes. -/
theorem onMachine_alone (i : Nat) (c : Chunk) (m : Machine) (q : MachineRequest) :
    ∃ m' a, ∀ (s : Session) (n : Nat), s.machines[n]? = some (i, m) →
      (s.onMachine n i c m q).2 = a ∧ (s.onMachine n i c m q).1.machines[n]? = some (i, m') := by
  cases q with
  | state => exact ⟨m, _, fun s n h => ⟨rfl, h⟩⟩
  | advance distance =>
    unfold onMachine
    cases m.ip with
    | none => exact ⟨m, _, fun s n h => ⟨rfl, h⟩⟩
    | some offset => exact ⟨_, _, fun s n h => ⟨rfl, getElem?_set_of_some h⟩⟩
  | push _ | step | run | takeEvents =>
    exact ⟨_, _, fun s n h => ⟨rfl, getElem?_set_of_some h⟩⟩

theorem perform_onCursor {n : Nat} {k : Cursor} (h : s.cursors[n]? = some (i, k))
    (q : CursorRequest) : s.perform (.onCursor n q) = s.onCursor n i k q := by
  unfold perform
  dsimp only
  rw [h]

theorem perform_onMachine {n : Nat} {m : Machine} (h : s.machines[n]? = some (i, m))
    (hc : s.chunks[i]? = some c) (q : MachineRequest) :
    s.perform (.onMachine n q) = s.onMachine n i c m q := by
  unfold perform
  dsimp only
  rw [h]
  dsimp only
  rw [Array.getD_eq_getD_getElem?, hc]
  rfl

theorem chunk_perform (hc : s.chunks[i]? = some c) (hs : c.isSealed = true) (r : Request) :
    (s.perform r).1.chunks[i]? = some c := by
  rw [getElem?_chunks_perform hc, r.grows_effect.frozen hs]

theorem chunk_performAll (hc : s.chunks[i]? = some c) (hs : c.isSealed = true)
    (rs : List Request) : (s.performAll rs).1.chunks[i]? = some c := by
  obtain ⟨d, hd, hgrows, -⟩ := exists_chunk_performAll hc rs
  rw [hd, hgrows.frozen hs]

theorem find?_cursor_iff {k : Cursor} :
    s.find? x = some (i, .cursor k) ↔ ∃ n, x = .cursor n ∧ s.cursors[n]? = some (i, k) := by
  cases x with
  | cursor n => simp [find?, Prod.ext_iff]
  | machine n => simp [find?]

theorem find?_machine_iff {m : Machine} :
    s.find? x = some (i, .machine m) ↔ ∃ n, x = .machine n ∧ s.machines[n]? = some (i, m) := by
  cases x with
  | cursor n => simp [find?]
  | machine n => simp [find?, Prod.ext_iff]

/-- **Own requests.** A request to one of two like clients is answered as that to the other, and
they stay alike. -/
theorem Alike.perform (hs : c.isSealed = true) (h : Alike i c s x t y) {r : Request}
    (hr : r.client? = some x) : (s.perform r).2 = (t.perform (r.to y)).2 ∧
      Alike i c (s.perform r).1 x (t.perform (r.to y)).1 y := by
  obtain ⟨st, hx, hy⟩ := h.client
  have hleft := chunk_perform h.left hs r
  have hright := chunk_perform h.right hs (r.to y)
  cases st with
  | cursor k =>
    obtain ⟨n, rfl, hk⟩ := find?_cursor_iff.mp hx
    obtain ⟨n', rfl, hk'⟩ := find?_cursor_iff.mp hy
    cases r with
    | onCursor _ q =>
      cases hr
      obtain ⟨k', a, halone⟩ := onCursor_alone i k q
      rw [perform_onCursor hk] at hleft ⊢
      rw [Request.to, perform_onCursor hk'] at hright ⊢
      obtain ⟨ha, hnew⟩ := halone s n hk
      obtain ⟨ha', hnew'⟩ := halone t n' hk'
      exact ⟨ha.trans ha'.symm, hleft, hright, .cursor k', find?_cursor_iff.mpr ⟨n, rfl, hnew⟩,
        find?_cursor_iff.mpr ⟨n', rfl, hnew'⟩⟩
    | newChunk | assemble _ | loadAssembly _ | loadDocument _ | onChunk _ _ | onMachine _ _ =>
      cases hr
  | machine m =>
    obtain ⟨n, rfl, hm⟩ := find?_machine_iff.mp hx
    obtain ⟨n', rfl, hm'⟩ := find?_machine_iff.mp hy
    cases r with
    | onMachine _ q =>
      cases hr
      obtain ⟨m', a, halone⟩ := onMachine_alone i c m q
      rw [perform_onMachine hm h.left] at hleft ⊢
      rw [Request.to, perform_onMachine hm' h.right] at hright ⊢
      obtain ⟨ha, hnew⟩ := halone s n hm
      obtain ⟨ha', hnew'⟩ := halone t n' hm'
      exact ⟨ha.trans ha'.symm, hleft, hright, .machine m', find?_machine_iff.mpr ⟨n, rfl, hnew⟩,
        find?_machine_iff.mpr ⟨n', rfl, hnew'⟩⟩
    | newChunk | assemble _ | loadAssembly _ | loadDocument _ | onChunk _ _ | onCursor _ _ =>
      cases hr

/-! ## Series of requests -/

theorem answersTo_cons (s : Session) (x : Client) (r : Request) (rs : List Request) :
    s.answersTo x (r :: rs) = if r.client? = some x
      then (s.perform r).2 :: (s.perform r).1.answersTo x rs
      else (s.perform r).1.answersTo x rs := by
  show (((r :: rs).zip ((s.perform r).2 :: ((s.perform r).1.performAll rs).2)).filter _).map _ = _
  rw [List.zip_cons_cons, List.filter_cons]
  by_cases h : r.client? = some x
  · rw [if_pos h, if_pos (decide_eq_true h)]
    rfl
  · rw [if_neg h, if_neg (by simpa using h)]
    rfl

theorem own_cons (x y : Client) (r : Request) (rs : List Request) :
    own x y (r :: rs) = if r.client? = some x then r.to y :: own x y rs else own x y rs := by
  unfold own
  rw [List.filter_cons]
  by_cases h : r.client? = some x
  · rw [if_pos h, if_pos (decide_eq_true h)]
    rfl
  · rw [if_neg h, if_neg (by simpa using h)]

/-- **Series of requests.** Like clients are answered alike, whatever else is asked of the session
of the one while the other is alone. -/
theorem Alike.alone (hs : c.isSealed = true) (h : Alike i c s x t y) (rs : List Request) :
    s.Alone x rs t y := by
  induction rs generalizing s t with
  | nil =>
    obtain ⟨st, hx, hy⟩ := h.client
    exact ⟨rfl, _, hx, hy⟩
  | cons r rest ih =>
    by_cases hr : r.client? = some x
    · obtain ⟨ha, hnext⟩ := h.perform hs hr
      obtain ⟨hanswers, hstate⟩ := ih hnext
      refine ⟨?_, ?_⟩
      · rw [answersTo_cons, own_cons, if_pos hr, if_pos hr, ha, hanswers]
        rfl
      · rw [own_cons, if_pos hr]
        exact hstate
    · obtain ⟨st, hx, hy⟩ := h.client
      obtain ⟨hanswers, hstate⟩ :=
        ih (s := (s.perform r).1) ⟨chunk_perform h.left hs r, h.right, st, find?_perform hx hr, hy⟩
      refine ⟨?_, ?_⟩
      · rw [answersTo_cons, own_cons, if_neg hr, if_neg hr, hanswers]
      · rw [own_cons, if_neg hr]
        exact hstate

/-! ## New clients -/

theorem find?_next (hc : s.chunks[i]? = some c) {q : ChunkRequest} {st : ClientState}
    (hq : q.made? c = some st) :
    (s.perform (.onChunk i q)).1.find? (s.next st) = some (i, st) := by
  rw [perform_onChunk hc]
  cases q with
  | cursor =>
    cases hq
    exact find?_cursor_iff.mpr ⟨_, rfl, Array.getElem?_push_size⟩
  | cursorAt offset =>
    unfold onChunk
    unfold ChunkRequest.made? at hq
    dsimp only at hq ⊢
    cases hk : c.cursorAt offset with
    | error f =>
      rw [hk] at hq
      cases hq
    | ok k =>
      rw [hk] at hq
      cases hq
      exact find?_cursor_iff.mpr ⟨_, rfl, Array.getElem?_push_size⟩
  | machine name tracing =>
    cases hq
    exact find?_machine_iff.mpr ⟨_, rfl, Array.getElem?_push_size⟩
  | state | write _ _ | writeMany _ _ _ | pushConstant _ | constantAt _ | lineAt _ | byteAt _
  | appendOperand _ _ _ _ | listing _ | entry _ | save _ => cases hq

end

/-- A sealed chunk stays as it is, and its clients do not meddle with each other. -/
structure Separate (s : Session) (i : Nat) (c : Chunk) : Prop where
  /-- Clients that are there. -/
  there : ∀ (x : Client) (st : ClientState), s.find? x = some (i, st) →
    ∀ rs, s.Alone x rs s x
  /-- Clients that are made later, as if they were made first and then alone. -/
  made : ∀ (before after : List Request) (q : ChunkRequest) (st : ClientState),
    q.made? c = some st →
      let s₁ := (s.performAll before).1
      (s₁.perform (.onChunk i q)).1.find? (s₁.next st) = some (i, st) ∧
        (s₁.perform (.onChunk i q)).1.Alone (s₁.next st) after
          (s.perform (.onChunk i q)).1 (s.next st)
  chunk : ∀ before : List Request, (s.performAll before).1.chunks[i]? = some c
  refused : ∀ (before : List Request) (byte line : Int) (v : Value),
    let s₁ := (s.performAll before).1
    (s₁.perform (.onChunk i (.write byte line))).2 = refuse (.bytecode .sealedChunk) ∧
      (s₁.perform (.onChunk i (.pushConstant v))).2 = refuse (.bytecode .sealedChunk)

/-- **Clients.** So it is with any sealed chunk of any session. -/
theorem separate_of_isSealed {s : Session} {i : Nat} {c : Chunk} (hc : s.chunks[i]? = some c)
    (hs : c.isSealed = true) : s.Separate i c where
  there x st hx := Alike.alone hs ⟨hc, hc, st, hx, hx⟩
  made before after q st hq := by
    intro s₁
    have hc₁ : s₁.chunks[i]? = some c := chunk_performAll hc hs before
    have hx := find?_next hc₁ hq
    refine ⟨hx, Alike.alone hs ⟨?_, ?_, st, hx, find?_next hc hq⟩ after⟩
    · exact chunk_perform hc₁ hs _
    · exact chunk_perform hc hs _
  chunk := chunk_performAll hc hs
  refused before byte line v := by
    intro s₁
    have hc₁ : s₁.chunks[i]? = some c := chunk_performAll hc hs before
    rw [perform_onChunk hc₁, perform_onChunk hc₁]
    unfold onChunk Chunk.write Chunk.pushConstant
    dsimp only
    rw [if_pos hs, if_pos hs]
    exact ⟨rfl, rfl⟩

/-- The first cursor has sealed the chunk, and a machine has failed on it. -/
theorem separate_of_first_cursor :
    let s := (({} : Session).performAll [.newChunk, .onChunk 0 (.write 1 7), .onChunk 0 .cursor,
      .onChunk 0 (.machine "<script>" true), .onMachine 0 .run]).1
    let c : Chunk := { cells := #[⟨1, 7⟩], isSealed := true }
    s.chunks[0]? = some c ∧ c.isSealed = true ∧ s.Separate 0 c := by
  have hc : (({} : Session).performAll [.newChunk, .onChunk 0 (.write 1 7), .onChunk 0 .cursor,
      .onChunk 0 (.machine "<script>" true), .onMachine 0 .run]).1.chunks[0]? =
      some { cells := #[⟨1, 7⟩], isSealed := true } := by decide
  exact ⟨hc, rfl, separate_of_isSealed hc rfl⟩

end LoxMachine.Session
