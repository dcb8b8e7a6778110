import LoxMachine.Proofs.Machine.Step

/-!
# Calls

What a client does with a machine: it has it step or run, and takes the events recorded so far. A
run is a number of steps (`run_of_invariant`), and which events are there matters to none of them
(`step_withEvents`).
-/

namespace LoxMachine

inductive Call where
  | step
  | run
  | takeEvents
  deriving DecidableEq

inductive Answer where
  | control (k : Control)
  | result (v : Value)
  | events (es : Array Event)
  deriving DecidableEq

namespace Answer

/-- The events that are handed over. -/
def handed : Answer → List Event
  | control _ | result _ => []
  | events es => es.toList

end Answer

namespace Machine

/-! ## Algorithm -/

def call (m : Machine) (c : Chunk) : Call → Machine × Except Fault Answer
  | .step => ((m.step c).1, (m.step c).2.map .control)
  | .run => ((m.run c).1, (m.run c).2.map .result)
  | .takeEvents => (m.takeEvents.1, .ok (.events m.takeEvents.2))

/-- The machine after a number of steps. -/
def stepped (m : Machine) (c : Chunk) : Nat → Machine
  | 0 => m
  | n + 1 => ((m.stepped c n).step c).1

def withEvents (m : Machine) (es : Array Event) : Machine := { m with events := es }

/-- What is seen of a machine by calls in order, up to the first that fails. -/
structure Playback where
  machine : Machine
  drained : List Event := []
  failure? : Option Fault := none

def play (m : Machine) (c : Chunk) : List Call → Playback
  | [] => { machine := m }
  | k :: rest => match m.call c k with
    | (m, .error f) => { machine := m, failure? := some f }
    | (m, .ok a) =>
      let p := m.play c rest
      { p with drained := a.handed ++ p.drained }

/-- All events of a playback: those that have been handed over, then those still there. -/
def Playback.recorded (p : Playback) : List Event := p.drained ++ p.machine.events.toList

/-! ## Runs -/

/-- A machine that is run once and asked for nothing else keeps its events. -/
theorem recorded_run (m : Machine) (c : Chunk) :
    (m.play c [.run]).recorded = (m.run c).1.events.toList := by
  rw [play, call]
  dsimp only
  cases (m.run c).2 <;> rfl

/-- **Runs.** What steps preserve holds before the step that ends a run. -/
theorem run_of_invariant {c : Chunk} {P : Machine → Prop} {m : Machine}
    (hnext : ∀ {m m'}, P m → m.step c = (m', .ok .next) → P m') (h : P m) :
    ∃ m₁, P m₁ ∧ ((∃ m', m₁.step c = (m', .ok .halt) ∧ m.run c = (m', .ok m'.result)) ∨
      ∃ m' f, m₁.step c = (m', .error f) ∧ m.run c = (m', .error f)) := by
  induction m using run.induct (c := c) with
  | case1 m m' hstep hlt ih =>
    rw [run_of_next hstep]
    exact ih (hnext h hstep)
  | case2 m m' hstep =>
    exact ⟨m, h, .inl ⟨m', hstep, run_of_halt hstep⟩⟩
  | case3 m m' f hstep =>
    exact ⟨m, h, .inr ⟨m', f, hstep, run_of_error hstep⟩⟩

/-! ## Events -/

section
variable (m : Machine) (c : Chunk) (es : Array Event)

@[simp] theorem withEvents_events : (m.withEvents es).events = es := rfl

@[simp] theorem withEvents_withEvents (es' : Array Event) :
    (m.withEvents es).withEvents es' = m.withEvents es' := rfl

theorem execute_withEvents (op : Opcode) (start : Int) :
    (m.withEvents es).execute c op start =
      (((m.execute c op start).1.withEvents es), (m.execute c op start).2) := by
  cases op with
  | ret => rfl
  | negate =>
    unfold execute negateTop
    dsimp only [withEvents]
    cases m.stack with
    | nil => rfl
    | cons v rest =>
      dsimp only
      cases v.neg? <;> rfl
  | constant =>
    unfold execute pushConstant
    dsimp only [withEvents]
    split
    · rfl
    · cases c.byteAt (start + 1) with
      | error f => rfl
      | ok index =>
        dsimp only
        cases c.constantAt index.toNat <;> rfl

end

/-- A step adds to the events, whichever there are, and takes no notice of them. -/
theorem step_withEvents (m : Machine) (c : Chunk) :
    ∃ added, ∀ es, (m.withEvents es).step c =
      ((m.step c).1.withEvents (es ++ added), (m.step c).2) := by
  unfold step
  dsimp only [withEvents, offset]
  by_cases hh : m.halted = true
  · exact ⟨#[], fun es => by rw [if_pos hh, if_pos hh, Array.append_empty]⟩
  rw [if_neg hh]
  by_cases hsize : (c.size : Int) ≤ m.ip.getD 0
  · refine ⟨#[], fun es => ?_⟩
    rw [if_neg hh, if_pos hsize, if_pos hsize, Array.append_empty]
    rfl
  rw [if_neg hsize]
  cases hop : c.opcodeAt (m.ip.getD 0) with
  | error f =>
    refine ⟨#[], fun es => ?_⟩
    rw [if_neg hh, if_neg hsize, Array.append_empty]
    cases f <;> rfl
  | ok op =>
    dsimp only
    -- what there is to record is seen in the stack alone
    have hevent (es : Array Event) :
        ({ m with ip := some (m.ip.getD 0), events := es } : Machine).event? c (m.ip.getD 0) =
          ({ m with ip := some (m.ip.getD 0) } : Machine).event? c (m.ip.getD 0) := rfl
    cases he : ({ m with ip := some (m.ip.getD 0) } : Machine).event? c (m.ip.getD 0) with
    | error f =>
      refine ⟨#[], fun es => ?_⟩
      rw [if_neg hh, if_neg hsize, hevent, he, Array.append_empty]
      cases f <;> rfl
    | ok e =>
      dsimp only
      cases e with
      | none =>
        refine ⟨#[], fun es => ?_⟩
        rw [if_neg hh, if_neg hsize, hevent, he, Array.append_empty]
        exact execute_withEvents { m with ip := some (m.ip.getD 0) } c es op _
      | some e =>
        refine ⟨#[e], fun es => ?_⟩
        rw [if_neg hh, if_neg hsize, hevent, he, ← Array.push_eq_append]
        have := execute_withEvents
          (record { m with ip := some (m.ip.getD 0) } (some e)) c (es.push e) op (m.ip.getD 0)
        exact this

/-- Machines that differ in their events alone still do so after a step. -/
theorem step_congr {m m' : Machine} (h : m.withEvents #[] = m'.withEvents #[]) (c : Chunk) :
    (m.step c).1.withEvents #[] = (m'.step c).1.withEvents #[] := by
  obtain ⟨_, hm⟩ := step_withEvents m c
  obtain ⟨_, hm'⟩ := step_withEvents m' c
  have := congrArg (fun r => r.1.withEvents #[]) (hm #[])
  rw [h, hm'] at this
  exact this.symm

section
variable {m : Machine} {c : Chunk}

/-! ## Settings -/

/-- Execution records nothing, and leaves a machine as it has been set up. -/
theorem execute_frame (op : Opcode) (start : Int) :
    (m.execute c op start).1.name = m.name ∧ (m.execute c op start).1.tracing = m.tracing ∧
      (m.execute c op start).1.events = m.events := by
  cases op with
  | ret => exact ⟨rfl, rfl, rfl⟩
  | negate =>
    unfold execute negateTop
    dsimp only
    split
    · exact ⟨rfl, rfl, rfl⟩
    · split <;> exact ⟨rfl, rfl, rfl⟩
  | constant =>
    unfold execute pushConstant
    dsimp only
    split
    · exact ⟨rfl, rfl, rfl⟩
    · split
      · exact ⟨rfl, rfl, rfl⟩
      · split <;> exact ⟨rfl, rfl, rfl⟩

/-! ## Machines that do not trace -/

theorem step_of_not_tracing (h : m.tracing = false) :
    (m.step c).1.tracing = false ∧ (m.step c).1.events = m.events := by
  have hevent : ({ m with ip := some m.offset } : Machine).event? c m.offset = .ok none := by
    unfold event?
    dsimp only
    rw [h]
    rfl
  unfold step
  dsimp only
  split
  · exact ⟨h, rfl⟩
  split
  · exact ⟨h, rfl⟩
  split
  · exact ⟨h, rfl⟩
  · rw [hevent]
    exact ⟨(execute_frame _ _).2.1.trans h, (execute_frame _ _).2.2⟩

/-- A run without tracing records nothing. -/
theorem run_of_not_tracing (h : m.tracing = false) : (m.run c).1.events = m.events := by
  have hnext {m₁ m₂ : Machine} (hm : m₁.tracing = false ∧ m₁.events = m.events)
      (hstep : m₁.step c = (m₂, .ok .next)) : m₂.tracing = false ∧ m₂.events = m.events := by
    have hm₂ := step_of_not_tracing (c := c) hm.1
    rw [hstep, hm.2] at hm₂
    exact hm₂
  obtain ⟨m₁, hm₁, ⟨m', hstep, hrun⟩ | ⟨m', f, hstep, hrun⟩⟩ := run_of_invariant hnext ⟨h, rfl⟩
  all_goals
    have hm' := (step_of_not_tracing (c := c) hm₁.1).2
    rw [hstep, hm₁.2] at hm'
    rw [hrun]
    exact hm'

end

end Machine
end LoxMachine
