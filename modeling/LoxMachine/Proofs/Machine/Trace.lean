import LoxMachine.Proofs.Listing.Reached
import LoxMachine.Proofs.Machine.Calls

/-!
# Traces and listings

A tracing machine and a listing decode the code each for itself. Whatever is called on the
machine, and whenever its events are taken, what it records are the entries that the listing
reaches, one after the other, each once, up to where the machine is.

    (play … calls).recorded.map Event.shown <+: (reached c).map Entry.shown      (trace_agrees)

Where it ends depends on how: with the first return, or below the offset of a failure. The entry of
the failing instruction itself is there if the failure has come with its execution.
-/

namespace LoxMachine

/-! ## What is shown -/

def Event.shown (e : Event) : Int × Str := (e.offset, e.text)

def Listing.Entry.shown (e : Listing.Entry) : Int × Str := (e.offset, e.text)

/-- An event is of the instruction that a machine is about to execute. -/
structure Event.IsOf (e : Event) (c : Chunk) (m : Machine) : Prop where
  offset : m.offset = e.offset
  line : c.lineAt e.offset = .ok e.line
  stack : e.stack = m.stack.reverse

/-- A failure comes with the execution of an instruction: the top of the stack is no number, or the
operand is cut off. Other failures come before. -/
def RuntimeFault.InExecution (e : RuntimeFault) (c : Chunk) : Prop :=
  e.cause = .notANumber ∨ e.cause = .endOfCode ∧ e.frame.offset < c.size

instance (e : RuntimeFault) (c : Chunk) : Decidable (e.InExecution c) :=
  inferInstanceAs (Decidable (_ ∨ _))

/-- An entry is below the offset of a failure, or at it if that has come with the execution. -/
def RuntimeFault.Covers (e : RuntimeFault) (c : Chunk) (x : Listing.Entry) : Prop :=
  x.offset < e.frame.offset ∨ x.offset = e.frame.offset ∧ e.InExecution c

instance (e : RuntimeFault) (c : Chunk) (x : Listing.Entry) : Decidable (e.Covers c x) :=
  inferInstanceAs (Decidable (_ ∨ _))

def RuntimeFault.entries (e : RuntimeFault) (c : Chunk) : List Listing.Entry :=
  (Listing.reached c).filter (e.Covers c ·)

theorem RuntimeFault.entries_eq {e : RuntimeFault} {c : Chunk} {done rest : List Listing.Entry}
    (h : Listing.reached c = done ++ rest) (hdone : ∀ x ∈ done, e.Covers c x)
    (hrest : ∀ x ∈ rest, ¬ e.Covers c x) : e.entries c = done := by
  rw [entries, h, List.filter_append, List.filter_eq_self.mpr, List.filter_eq_nil_iff.mpr,
    List.append_nil]
  · exact fun x hx => by simpa using hrest x hx
  · exact fun x hx => decide_eq_true (hdone x hx)

namespace Machine

/-! ## Invariant -/

/-- The events of a machine that began as `m₀` are those of the given entries. -/
structure Records (c : Chunk) (m₀ : Machine) (es : List Event) (entries : List Listing.Entry) :
    Prop where
  isPrefix : entries <+: Listing.reached c
  shown : es.map Event.shown = entries.map Listing.Entry.shown
  isOf : ∀ (i : Nat) (e : Event), es[i]? = some e → e.IsOf c (m₀.stepped c i)

/-- A machine has executed the entries in `done` and goes on at `o`. It has handed over the events
in `drained`. -/
structure Underway (c : Chunk) (m₀ : Machine) (drained : List Event) (o : Nat)
    (done : List Listing.Entry) (m : Machine) : Prop where
  offset : m.offset = o
  running : m.halted = false
  tracing : m.tracing = true
  reached : Listing.reached c = done ++ Listing.reachedFrom c o
  before : ∀ x ∈ done, x.offset < o ∧ x.body ≠ .plain .ret
  records : Records c m₀ (drained ++ m.events.toList) done
  stepped : m.withEvents #[] = (m₀.stepped c done.length).withEvents #[]

/-- A machine has executed the first return. -/
structure Returned (c : Chunk) (m₀ : Machine) (drained : List Event) (m : Machine) : Prop where
  halted : m.halted = true
  entries : ∃ done last rest, Listing.reached c = done ++ last :: rest ∧
    (∀ x ∈ done, x.body ≠ .plain .ret) ∧ last.body = .plain .ret ∧
    Records c m₀ (drained ++ m.events.toList) (done ++ [last])

/-- A machine has failed. -/
def Failed (c : Chunk) (m₀ : Machine) (drained : List Event) (m : Machine) (f : Fault) : Prop :=
  ∃ e, f = .runtime e ∧ (e.InExecution c → ∃ x ∈ Listing.reached c, x.offset = e.frame.offset) ∧
    Records c m₀ (drained ++ m.events.toList) (e.entries c)

section
variable {c : Chunk} {m₀ m : Machine} {drained : List Event} {o : Nat} {done : List Listing.Entry}

theorem Records.length_eq {es : List Event} (h : Records c m₀ es done) :
    es.length = done.length := by
  have := congrArg List.length h.shown
  simpa using this

/-- The instruction at which a machine is adds its event and its entry. -/
theorem Underway.records_traced (hp : c.LoxPool) (h : Underway c m₀ drained o done m)
    {b : Listing.Body} (hb : (c.decode o).body c.constants.size = .ok b) :
    Records c m₀ (drained ++ (m.traced c o b).events.toList)
      (done ++ [Listing.entryOf c o b]) := by
  have hlt : o < c.size := Chunk.lt_size_of_decode (by
    intro hd
    rw [hd] at hb
    cases hb)
  have hfrom := Listing.reachedFrom_eq hp o
  rw [hb] at hfrom
  have hlen := h.records.length_eq
  rw [traced_events_of_tracing _ _ _ _ h.tracing, Array.toList_push, ← List.append_assoc]
  refine ⟨?_, ?_, ?_⟩
  · refine ⟨Listing.reachedFrom c ((c.decode o).next c.size o), ?_⟩
    rw [h.reached, hfrom, List.append_assoc, List.singleton_append]
  · rw [@List.map_append _ _ _ (drained ++ m.events.toList), @List.map_append _ _ _ done,
      h.records.shown]
    rfl
  · intro i e he
    rcases Nat.lt_or_ge i (drained ++ m.events.toList).length with hi | hi
    · rw [List.getElem?_append_left hi] at he
      exact h.records.isOf i e he
    · rw [List.getElem?_append_right hi, List.getElem?_singleton] at he
      split at he
      · cases he
        have hi : i = done.length := by omega
        have hoffset := congrArg Machine.offset h.stepped
        have hstack := congrArg Machine.stack h.stepped
        subst hi
        refine ⟨?_, ?_, ?_⟩
        · exact hoffset.symm.trans h.offset
        · exact Chunk.lineAt_of_lt hlt
        · exact congrArg List.reverse hstack
      · cases he

/-! ## Steps -/

theorem Underway.next (hp : c.LoxPool) (h : Underway c m₀ drained o done m) {b : Listing.Body}
    (hb : (c.decode o).body c.constants.size = .ok b) (hret : b ≠ .plain .ret) {m' : Machine}
    (hstep : m.step c = (m', .ok .next)) (hoffset : m'.offset = (c.decode o).next c.size o)
    (hlt : o < (c.decode o).next c.size o) (hrunning : m'.halted = false)
    (htracing : m'.tracing = true) (hevents : m'.events = (m.traced c o b).events) :
    Underway c m₀ drained ((c.decode o).next c.size o) (done ++ [Listing.entryOf c o b]) m' := by
  have hfrom := Listing.reachedFrom_eq hp o
  rw [hb] at hfrom
  refine ⟨hoffset, hrunning, htracing, ?_, ?_, ?_, ?_⟩
  · rw [h.reached, hfrom, List.append_assoc, List.singleton_append]
  · intro x hx
    rcases List.mem_append.mp hx with hx | hx
    · have := (h.before x hx).1
      exact ⟨by omega, (h.before x hx).2⟩
    · rw [List.mem_singleton.mp hx]
      exact ⟨Int.ofNat_lt.mpr hlt, hret⟩
  · rw [hevents]
    exact h.records_traced hp hb
  · have hcongr := step_congr h.stepped c
    rw [hstep] at hcongr
    rw [hcongr, List.length_append]
    rfl

theorem Underway.step_next (hp : c.LoxPool) (h : Underway c m₀ drained o done m) {m' : Machine}
    (hstep : m.step c = (m', .ok .next)) : ∃ o' done', Underway c m₀ drained o' done' m' := by
  have hs := step_eq hp h.offset h.running
  rw [hstep] at hs
  cases hd : c.decode o with
  | ended | unknown _ | badIndex _ | cutOff | ret =>
    rw [hd] at hs
    cases hs
  | negate =>
    rw [hd] at hs
    dsimp only at hs
    split at hs
    · cases hs
    · cases hs
      refine ⟨_, _, h.next hp (b := .plain .negate) ?_ nofun hstep ?_ ?_ ?_ ?_ ?_⟩
      · rw [hd]
        rfl
      · rw [hd]
        rfl
      · rw [hd]
        exact Nat.lt_succ_self o
      · simpa using h.running
      · simpa using h.tracing
      · rfl
  | constant i v =>
    rw [hd] at hs
    cases hs
    refine ⟨_, _, h.next hp (b := .constant i v.shown) ?_ nofun hstep ?_ ?_ ?_ ?_ ?_⟩
    · rw [hd]
      rfl
    · rw [hd]
      rfl
    · rw [hd]
      show o < o + 2
      omega
    · simpa using h.running
    · simpa using h.tracing
    · rfl

theorem Underway.step_halt (hp : c.LoxPool) (h : Underway c m₀ drained o done m) {m' : Machine}
    (hstep : m.step c = (m', .ok .halt)) : Returned c m₀ drained m' := by
  have hs := step_eq hp h.offset h.running
  rw [hstep] at hs
  cases hd : c.decode o with
  | ended | unknown _ | badIndex _ | cutOff | constant _ _ =>
    rw [hd] at hs
    cases hs
  | negate =>
    rw [hd] at hs
    dsimp only at hs
    split at hs <;> cases hs
  | ret =>
    rw [hd] at hs
    cases hs
    have hb : (c.decode o).body c.constants.size = .ok (.plain .ret) := by
      rw [hd]
      rfl
    have hfrom := Listing.reachedFrom_eq hp o
    rw [hb] at hfrom
    refine ⟨rfl, done, Listing.entryOf c o (.plain .ret),
      Listing.reachedFrom c ((c.decode o).next c.size o), ?_, ?_, rfl, ?_⟩
    · rw [h.reached, hfrom]
    · exact fun x hx => (h.before x hx).2
    · exact h.records_traced hp hb

/-- A failure before the execution leaves the instruction out. -/
theorem Underway.failed_before (h : Underway c m₀ drained o done m) {e : RuntimeFault}
    (hframe : e.frame.offset = o) (he : ¬ e.InExecution c) {m' : Machine}
    (hevents : m'.events = m.events) : Failed c m₀ drained m' (.runtime e) := by
  refine ⟨e, rfl, fun h => absurd h he, ?_⟩
  have hentries : e.entries c = done := by
    refine RuntimeFault.entries_eq h.reached ?_ ?_
    · intro x hx
      have := (h.before x hx).1
      exact .inl (by omega)
    · rintro x hx (hlt | ⟨-, hin⟩)
      · have := Listing.le_offset_of_mem hx
        omega
      · exact he hin
  rw [hentries, hevents]
  exact h.records

/-- A failure of the execution comes after the instruction. -/
theorem Underway.failed_in (hp : c.LoxPool) (h : Underway c m₀ drained o done m) {b : Listing.Body}
    (hb : (c.decode o).body c.constants.size = .ok b) (hlt : o < (c.decode o).next c.size o)
    {e : RuntimeFault} (hframe : e.frame.offset = o) (he : e.InExecution c) {m' : Machine}
    (hevents : m'.events = (m.traced c o b).events) : Failed c m₀ drained m' (.runtime e) := by
  have hfrom := Listing.reachedFrom_eq hp o
  rw [hb] at hfrom
  have hreached : Listing.reached c = (done ++ [Listing.entryOf c o b]) ++
      Listing.reachedFrom c ((c.decode o).next c.size o) := by
    rw [h.reached, hfrom, List.append_assoc, List.singleton_append]
  refine ⟨e, rfl, fun _ => ⟨Listing.entryOf c o b, ?_, hframe.symm⟩, ?_⟩
  · rw [hreached]
    simp
  · have hentries : e.entries c = done ++ [Listing.entryOf c o b] := by
      refine RuntimeFault.entries_eq hreached ?_ ?_
      · intro x hx
        rcases List.mem_append.mp hx with hx | hx
        · have := (h.before x hx).1
          exact .inl (by omega)
        · rw [List.mem_singleton.mp hx]
          exact .inr ⟨hframe.symm, he⟩
      · intro x hx
        have := Listing.le_offset_of_mem hx
        rintro (hlt | ⟨heq, -⟩) <;> omega
    rw [hentries, hevents]
    exact h.records_traced hp hb

theorem Underway.step_error (hp : c.LoxPool) (h : Underway c m₀ drained o done m) {m' : Machine}
    {f : Fault} (hstep : m.step c = (m', .error f)) : Failed c m₀ drained m' f := by
  have hs := step_eq hp h.offset h.running
  rw [hstep] at hs
  cases hd : c.decode o with
  | ret | constant _ _ =>
    rw [hd] at hs
    cases hs
  | ended =>
    rw [hd] at hs
    cases hs
    have hsize := Chunk.decode_eq_ended_iff.mp hd
    rw [failure_eq]
    refine h.failed_before rfl ?_ rfl
    rintro (hcause | ⟨-, hlt⟩)
    · cases hcause
    · have : (o : Int) < c.size := hlt
      omega
  | unknown byte =>
    rw [hd] at hs
    cases hs
    rw [failure_eq]
    exact h.failed_before rfl (by rintro (hcause | ⟨hcause, -⟩) <;> cases hcause) rfl
  | badIndex i =>
    rw [hd] at hs
    cases hs
    rw [failure_eq]
    exact h.failed_before rfl (by rintro (hcause | ⟨hcause, -⟩) <;> cases hcause) rfl
  | cutOff =>
    rw [hd] at hs
    cases hs
    have hlt := Chunk.lt_size_of_decode (by rw [hd]; nofun)
    rw [failure_eq]
    refine h.failed_in hp (b := .illegal) ?_ ?_ rfl ?_ rfl
    · rw [hd]
      rfl
    · rw [hd]
      exact hlt
    · exact .inr ⟨rfl, Int.ofNat_lt.mpr hlt⟩
  | negate =>
    rw [hd] at hs
    dsimp only at hs
    split at hs
    · cases hs
      rw [failure_eq]
      refine h.failed_in hp (b := .plain .negate) ?_ ?_ rfl (.inl rfl) rfl
      · rw [hd]
        rfl
      · rw [hd]
        exact Nat.lt_succ_self o
    · cases hs

/-! ## Calls -/

/-- A machine that no call has failed on: it can go on, or it has returned. -/
def Sound (c : Chunk) (m₀ : Machine) (drained : List Event) (m : Machine) : Prop :=
  (∃ o done, Underway c m₀ drained o done m) ∨ Returned c m₀ drained m

theorem Returned.step (h : Returned c m₀ drained m) :
    ∃ m', m.step c = (m', .ok .halt) ∧ Returned c m₀ drained m' :=
  ⟨m.moveTo m.offset, step_of_halted h.halted, h.halted, h.entries⟩

theorem Sound.step (hp : c.LoxPool) (h : Sound c m₀ drained m) :
    match m.step c with
    | (m', .ok _) => Sound c m₀ drained m'
    | (m', .error f) => Failed c m₀ drained m' f := by
  rcases h with ⟨o, done, h⟩ | h
  · split
    · next m' k hstep =>
      cases k with
      | next => exact .inl (h.step_next hp hstep)
      | halt => exact .inr (h.step_halt hp hstep)
    · next m' f hstep => exact h.step_error hp hstep
  · obtain ⟨m', hstep, h'⟩ := h.step
    rw [hstep]
    exact .inr h'

/-- A run ends with the first return or with a failure. -/
theorem Sound.run (hp : c.LoxPool) (h : Sound c m₀ drained m) :
    match m.run c with
    | (m', .ok _) => Returned c m₀ drained m'
    | (m', .error f) => Failed c m₀ drained m' f := by
  rcases h with ⟨o, done, h⟩ | h
  · obtain ⟨m₁, ⟨o, done, h₁⟩, ⟨m', hstep, hrun⟩ | ⟨m', f, hstep, hrun⟩⟩ :=
      run_of_invariant (P := fun m => ∃ o done, Underway c m₀ drained o done m)
        (fun ⟨_, _, h⟩ hstep => h.step_next hp hstep) ⟨o, done, h⟩
    · rw [hrun]
      exact h₁.step_halt hp hstep
    · rw [hrun]
      exact h₁.step_error hp hstep
  · obtain ⟨m', hstep, h'⟩ := h.step
    rw [run_of_halt hstep]
    exact h'

theorem Returned.takeEvents (h : Returned c m₀ drained m) :
    Returned c m₀ (drained ++ m.events.toList) m.takeEvents.1 := by
  refine ⟨h.halted, ?_⟩
  show ∃ done last rest, _ ∧ _ ∧ _ ∧ Records c m₀ (drained ++ m.events.toList ++ []) _
  rw [List.append_nil]
  exact h.entries

theorem Sound.takeEvents (h : Sound c m₀ drained m) :
    Sound c m₀ (drained ++ m.events.toList) m.takeEvents.1 := by
  rcases h with ⟨o, done, h⟩ | h
  · refine .inl ⟨o, done, h.offset, h.running, h.tracing, h.reached, h.before, ?_, h.stepped⟩
    show Records c m₀ (drained ++ m.events.toList ++ []) _
    rw [List.append_nil]
    exact h.records
  · exact .inr h.takeEvents

theorem Sound.call (hp : c.LoxPool) (h : Sound c m₀ drained m) (k : Call) :
    match m.call c k with
    | (m', .ok a) => Sound c m₀ (drained ++ a.handed) m'
    | (m', .error f) => Failed c m₀ drained m' f := by
  cases k with
  | step =>
    have hstep := h.step hp
    unfold Machine.call
    rcases hr : m.step c with ⟨m', f | k⟩
    · rw [hr] at hstep
      exact hstep
    · rw [hr] at hstep
      show Sound c m₀ (drained ++ []) m'
      rw [List.append_nil]
      exact hstep
  | run =>
    have hrun := h.run hp
    unfold Machine.call
    rcases hr : m.run c with ⟨m', f | v⟩
    · rw [hr] at hrun
      exact hrun
    · rw [hr] at hrun
      show Sound c m₀ (drained ++ []) m'
      rw [List.append_nil]
      exact .inr hrun
  | takeEvents => exact h.takeEvents

/-- What a machine has recorded at the end of a playback that finds it sound. -/
def Ends (c : Chunk) (m₀ : Machine) (drained : List Event) (p : Playback) : Prop :=
  match p.failure? with
  | none => Sound c m₀ (drained ++ p.drained) p.machine
  | some f => Failed c m₀ (drained ++ p.drained) p.machine f

theorem Sound.play (hp : c.LoxPool) (h : Sound c m₀ drained m) (calls : List Call) :
    Ends c m₀ drained (m.play c calls) := by
  induction calls generalizing m drained with
  | nil =>
    show Sound c m₀ (drained ++ []) m
    rw [List.append_nil]
    exact h
  | cons k rest ih =>
    have hcall := h.call hp k
    rw [Machine.play]
    rcases hr : m.call c k with ⟨m', f | a⟩
    · rw [hr] at hcall
      show Failed c m₀ (drained ++ []) m' f
      rw [List.append_nil]
      exact hcall
    · rw [hr] at hcall
      have := ih hcall
      unfold Ends at this ⊢
      rw [List.append_assoc] at this
      exact this

theorem Returned.call (h : Returned c m₀ drained m) (k : Call) :
    ∃ m' a, m.call c k = (m', .ok a) ∧ Returned c m₀ (drained ++ a.handed) m' := by
  obtain ⟨m', hstep, h'⟩ := h.step
  cases k with
  | step =>
    refine ⟨m', .control .halt, ?_, ?_⟩
    · rw [Machine.call, hstep]
      rfl
    · show Returned c m₀ (drained ++ []) m'
      rwa [List.append_nil]
  | run =>
    refine ⟨m', .result m'.result, ?_, ?_⟩
    · rw [Machine.call, run_of_halt hstep]
      rfl
    · show Returned c m₀ (drained ++ []) m'
      rwa [List.append_nil]
  | takeEvents => exact ⟨_, _, rfl, h.takeEvents⟩

theorem Returned.play (h : Returned c m₀ drained m) (calls : List Call) :
    (m.play c calls).machine.halted = true := by
  induction calls generalizing m drained with
  | nil => exact h.halted
  | cons k rest ih =>
    obtain ⟨m', a, hcall, h'⟩ := h.call k
    rw [Machine.play, hcall]
    exact ih h'

/-- A playback with a run in it ends halted, if not in a failure. -/
theorem Sound.play_run (hp : c.LoxPool) (h : Sound c m₀ drained m) {calls : List Call}
    (hrun : .run ∈ calls) (hf : (m.play c calls).failure? = none) :
    (m.play c calls).machine.halted = true := by
  induction calls generalizing m drained with
  | nil => cases hrun
  | cons k rest ih =>
    have hcall := h.call hp k
    rw [Machine.play] at hf ⊢
    rcases hr : m.call c k with ⟨m', f | a⟩
    · rw [hr] at hf
      cases hf
    · rw [hr] at hf hcall
      rcases List.mem_cons.mp hrun with rfl | hrest
      · have hran := h.run hp
        unfold Machine.call at hr
        rcases hr' : m.run c with ⟨m'', f | v⟩
        · rw [hr'] at hr
          cases hr
        · rw [hr'] at hr hran
          cases hr
          exact hran.play rest
      · exact ih hcall hrest hf

theorem sound_fresh (c : Chunk) (name : Str) :
    Sound c { name, tracing := true } [] { name, tracing := true } := by
  refine .inl ⟨0, [], rfl, rfl, rfl, rfl, nofun, ⟨?_, rfl, nofun⟩, rfl⟩
  exact List.nil_prefix

end

/-! ## Traces -/

/-- What the events of a playback say, for a machine that began as `m₀`. -/
structure Playback.Agrees (c : Chunk) (m₀ : Machine) (p : Playback) : Prop where
  isPrefix : p.recorded.map Event.shown <+: (Listing.reached c).map Listing.Entry.shown
  isOf : ∀ (i : Nat) (e : Event), p.recorded[i]? = some e → e.IsOf c (m₀.stepped c i)
  /-- A machine that can go on has recorded the entries below its offset. -/
  underway : p.failure? = none → p.machine.halted = false → p.recorded.map Event.shown =
    ((Listing.reached c).filter (·.offset < p.machine.offset)).map Listing.Entry.shown
  /-- A machine that has halted has recorded the entries up to the first return. -/
  returned : p.failure? = none → p.machine.halted = true → ∃ done last rest,
    Listing.reached c = done ++ last :: rest ∧ (∀ x ∈ done, x.body ≠ .plain .ret) ∧
      last.body = .plain .ret ∧
      p.recorded.map Event.shown = (done ++ [last]).map Listing.Entry.shown
  /-- A failed one has recorded the entries below the failure, and the one there if it has come with
  the execution. -/
  failed : ∀ f, p.failure? = some f → ∃ e, f = .runtime e ∧
    p.recorded.map Event.shown = (e.entries c).map Listing.Entry.shown ∧
    (e.InExecution c → ∃ x ∈ Listing.reached c, x.offset = e.frame.offset)

section
variable {c : Chunk} {m₀ m : Machine}

theorem Records.isPrefix_shown {es : List Event} {entries : List Listing.Entry}
    (h : Records c m₀ es entries) :
    es.map Event.shown <+: (Listing.reached c).map Listing.Entry.shown := by
  rw [h.shown]
  exact h.isPrefix.map _

theorem Underway.filter_reached {drained : List Event} {o : Nat} {done : List Listing.Entry}
    (h : Underway c m₀ drained o done m) :
    (Listing.reached c).filter (·.offset < m.offset) = done := by
  rw [h.offset, h.reached, List.filter_append, List.filter_eq_self.mpr, List.filter_eq_nil_iff.mpr,
    List.append_nil]
  · intro x hx
    have := Listing.le_offset_of_mem hx
    rw [decide_eq_true_eq]
    omega
  · exact fun x hx => decide_eq_true (h.before x hx).1

theorem Ends.agrees {p : Playback} (h : Ends c m₀ [] p) : p.Agrees c m₀ := by
  unfold Ends at h
  rw [List.nil_append] at h
  cases hf : p.failure? with
  | some f =>
    rw [hf] at h
    obtain ⟨e, rfl, hin, hrecords⟩ := h
    refine ⟨hrecords.isPrefix_shown, hrecords.isOf, ?_, ?_, ?_⟩
    · rw [hf]
      nofun
    · rw [hf]
      nofun
    · intro f' hf'
      rw [hf] at hf'
      cases hf'
      exact ⟨e, rfl, hrecords.shown, hin⟩
  | none =>
    rw [hf] at h
    rcases h with ⟨o, done, h⟩ | h
    · refine ⟨h.records.isPrefix_shown, h.records.isOf, ?_, ?_, ?_⟩
      · intro _ _
        rw [h.filter_reached]
        exact h.records.shown
      · intro _ hh
        rw [h.running] at hh
        cases hh
      · rw [hf]
        nofun
    · obtain ⟨done, last, rest, hreached, hdone, hlast, hrecords⟩ := h.entries
      refine ⟨hrecords.isPrefix_shown, hrecords.isOf, ?_, ?_, ?_⟩
      · intro _ hh
        rw [h.halted] at hh
        cases hh
      · intro _ _
        exact ⟨done, last, rest, hreached, hdone, hlast, hrecords.shown⟩
      · rw [hf]
        nofun

end

/-- **Traces.** Whatever is called on a fresh machine that traces, up to the first failure, it
records the entries of the listing, from the first to where it is. If there is a listing, its
entries are all reached. -/
theorem trace_agrees {c : Chunk} (hp : c.LoxPool) (name : Str) (calls : List Call) :
    let m₀ : Machine := { name, tracing := true }
    let p := m₀.play c.toSealed calls
    p.Agrees c.toSealed m₀ ∧ Listing.reached c.toSealed = Listing.reached c ∧
      (∀ es, Listing.entries c = .ok es → Listing.reached c = es) ∧
      (.run ∈ calls → p.failure? = none → p.machine.halted = true) :=
  have h := sound_fresh c.toSealed name
  ⟨(h.play hp.toSealed calls).agrees, Listing.reached_toSealed c,
    fun _ => Listing.reached_of_entries, h.play_run hp.toSealed⟩

/-- A machine that fails to change the sign of nil. -/
theorem trace_agrees_nil_negated :
    let c : Chunk := { cells := #[⟨2, 7⟩, ⟨0, 7⟩, ⟨1, 8⟩, ⟨0, 8⟩], constants := #[.nil] }
    let m₀ : Machine := { name := "<script>", tracing := true }
    let p := m₀.play c.toSealed [.step, .takeEvents, .run]
    c.LoxPool ∧ p.Agrees c.toSealed m₀ ∧ Listing.reached c.toSealed = Listing.reached c ∧
      (∀ es, Listing.entries c = .ok es → Listing.reached c = es) ∧
      (.run ∈ [Call.step, .takeEvents, .run] → p.failure? = none → p.machine.halted = true) :=
  ⟨by decide, trace_agrees (by decide) _ _⟩

end Machine
end LoxMachine
