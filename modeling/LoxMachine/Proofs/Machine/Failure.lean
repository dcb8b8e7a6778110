import LoxMachine.Proofs.Machine.Safety
import LoxMachine.Proofs.Machine.Tracing

/-!
# Steps that fail

A step that fails keeps the stack, the result and whether the machine has halted. Where the machine
points to depends on the cause, and `slip` says how far it has moved by then:

    cause                            slip
    the end of the code, reached     0
    a byte that is no tag            0
    an index that is not in the pool 2, or 0 if the machine traces
    an operand cut off               1
    a sign of what is no number      1

A machine that has not moved is stuck: whatever is called on it, it fails again in the same way.
One that has moved never does; it goes on behind the tag or the operand that it has passed.

    m.step c = (m', .error f) → m.FailsInto c m' f                          (step_after_error)
-/

namespace LoxMachine.Machine

/-- How far a step that fails for a cause has moved the machine. -/
def slip (m : Machine) (c : Chunk) : RuntimeCause → Nat
  | .endOfCode => if m.offset < c.size then 1 else 0
  | .notANumber => 1
  | .bytecode (.constantIndex _ _) => if m.tracing then 0 else 2
  | .bytecode _ => 0

/-- All later steps and runs fail as `f` says, and leave the machine where it is. -/
def Stuck (m : Machine) (c : Chunk) (f : Fault) : Prop :=
  ∀ calls, (m.after c calls).SameState m ∧ ((m.after c calls).step c).2 = .error f ∧
    ((m.after c calls).run c).2 = .error f

/-- No later step or run fails as `f` says. -/
def Past (m : Machine) (c : Chunk) (f : Fault) : Prop :=
  ∀ calls, ((m.after c calls).step c).2 ≠ .error f ∧ ((m.after c calls).run c).2 ≠ .error f

/-- What a step that fails leads to: the machine that it leaves, and what can be called on it. -/
inductive FailsInto (m : Machine) (c : Chunk) (m' : Machine) : Fault → Prop
  | intro {cause : RuntimeCause} (stack : m'.stack = m.stack) (halted : m'.halted = m.halted)
      (result : m'.result = m.result) (ip : m'.ip = some (m.offset + m.slip c cause))
      (stays : m.slip c cause = 0 → m'.Stuck c (m.failure c m.offset cause))
      (moves : 0 < m.slip c cause → m'.Past c (m.failure c m.offset cause)) :
      FailsInto m c m' (m.failure c m.offset cause)

section
variable {m m' : Machine} {c : Chunk} {f : Fault}

/-! ## Steps -/

theorem step_moveTo_offset (m : Machine) (c : Chunk) : (m.moveTo m.offset).step c = m.step c := rfl

/-- What a step that fails has done by then. A machine that has not moved has recorded nothing. -/
structure BrokenOff (m : Machine) (c : Chunk) (m' : Machine) (cause : RuntimeCause) : Prop where
  ip : m'.ip = some (m.offset + m.slip c cause)
  stack : m'.stack = m.stack
  halted : m'.halted = m.halted
  result : m'.result = m.result
  unmoved : m.slip c cause = 0 → m' = m.moveTo m.offset

theorem brokenOff_moveTo {cause : RuntimeCause} (h : m.slip c cause = 0) :
    m.BrokenOff c (m.moveTo m.offset) cause := by
  refine ⟨?_, rfl, rfl, rfl, fun _ => rfl⟩
  rw [h]
  exact congrArg some (Int.add_zero _).symm

theorem brokenOff_traced {cause : RuntimeCause} {o : Nat} (ho : m.offset = o)
    (h : m.slip c cause = 1) (b : Listing.Body) :
    m.BrokenOff c ((m.traced c o b).moveTo (o + 1)) cause := by
  refine ⟨?_, traced_stack .., traced_halted .., traced_result .., fun h0 => ?_⟩
  · rw [ho, h]
    rfl
  · omega

/-- **Steps.** A step that fails does so for one cause, at the offset where it began. -/
theorem InBounds.step_error (hp : c.LoxPool) (h : InBounds c m)
    (hstep : m.step c = (m', .error f)) :
    ∃ cause, f = m.failure c m.offset cause ∧ m.BrokenOff c m' cause := by
  obtain ⟨o, ho, -, -⟩ := h.offset
  cases hh : m.halted with
  | true =>
    rw [step_of_halted hh] at hstep
    cases hstep
  | false =>
    rw [step_eq hp ho hh, ← ho] at hstep
    cases hd : c.decode o with
    | ended =>
      have hsize := Chunk.decode_eq_ended_iff.mp hd
      rw [hd] at hstep
      cases hstep
      refine ⟨_, rfl, brokenOff_moveTo ?_⟩
      exact if_neg (by omega)
    | unknown byte =>
      rw [hd] at hstep
      cases hstep
      exact ⟨_, rfl, brokenOff_moveTo rfl⟩
    | badIndex i =>
      rw [hd] at hstep
      cases hstep
      refine ⟨_, rfl, ?_⟩
      cases ht : m.tracing with
      | true =>
        apply brokenOff_moveTo
        simp [slip, ht]
      | false =>
        refine ⟨?_, rfl, rfl, rfl, ?_⟩
        · show some (m.offset + 2) = _
          simp [slip, ht]
        · simp [slip, ht]
    | cutOff =>
      have hlt := Chunk.lt_size_of_decode (c := c) (o := o) (by rw [hd]; nofun)
      have hslip : m.slip c .endOfCode = 1 := if_pos (by omega)
      rw [hd] at hstep
      cases hstep
      refine ⟨_, rfl, ?_⟩
      rw [ho]
      exact brokenOff_traced ho hslip _
    | ret =>
      rw [hd] at hstep
      cases hstep
    | negate =>
      rw [hd] at hstep
      dsimp only at hstep
      cases hs : negated? m.stack with
      | none =>
        rw [hs] at hstep
        cases hstep
        refine ⟨_, rfl, ?_⟩
        rw [ho]
        exact brokenOff_traced ho rfl _
      | some s =>
        rw [hs] at hstep
        cases hstep
    | constant i v =>
      rw [hd] at hstep
      cases hstep

/-- The frame of a failed step is at the offset where the step began. -/
theorem InBounds.offset_of_step_error (hp : c.LoxPool) (h : InBounds c m) {e : RuntimeFault}
    (hstep : (m.step c).2 = .error (.runtime e)) : e.frame.offset = m.offset := by
  obtain ⟨cause, he, -⟩ := h.step_error hp (Prod.ext rfl hstep)
  cases he
  rfl

/-! ## Going forward -/

/-- No step leads back, be it that it fails. -/
theorem InBounds.offset_le_step (hp : c.LoxPool) (h : InBounds c m) :
    m.offset ≤ (m.step c).1.offset := by
  obtain ⟨o, ho, -, -⟩ := h.offset
  cases hh : m.halted with
  | true =>
    rw [step_of_halted hh]
    exact Int.le_refl _
  | false =>
    rw [step_eq hp ho hh, ho]
    cases c.decode o with
    | ended | unknown _ => exact Int.le_refl _
    | badIndex i =>
      show (o : Int) ≤ if m.tracing then (o : Int) else o + 2
      split <;> omega
    | cutOff | ret =>
      show (o : Int) ≤ o + 1
      omega
    | negate =>
      dsimp only
      cases negated? m.stack with
      | none =>
        show (o : Int) ≤ o + 1
        omega
      | some s =>
        show (o : Int) ≤ o + 1
        omega
    | constant i v =>
      show (o : Int) ≤ o + 2
      omega

/-- A run is over with a step from further on, and ends as that step. -/
theorem InBounds.exists_last_step (hp : c.LoxPool) (h : InBounds c m) :
    ∃ m₁, InBounds c m₁ ∧ m.offset ≤ m₁.offset ∧ (m.run c).1 = (m₁.step c).1 ∧
      ∀ f, (m.run c).2 = .error f → (m₁.step c).2 = .error f := by
  have hnext {m₁ m₂ : Machine} (hm : InBounds c m₁ ∧ m.offset ≤ m₁.offset)
      (hstep : m₁.step c = (m₂, .ok .next)) : InBounds c m₂ ∧ m.offset ≤ m₂.offset := by
    have hbounds := (hm.1.step hp).1
    have hle := hm.1.offset_le_step hp
    rw [hstep] at hbounds hle
    exact ⟨hbounds, Int.le_trans hm.2 hle⟩
  obtain ⟨m₁, ⟨hm₁, hle⟩, hlast⟩ := run_of_invariant hnext ⟨h, Int.le_refl _⟩
  refine ⟨m₁, hm₁, hle, ?_⟩
  rcases hlast with ⟨m', hstep, hrun⟩ | ⟨m', f, hstep, hrun⟩
  · rw [hrun, hstep]
    exact ⟨rfl, nofun⟩
  · rw [hrun, hstep]
    refine ⟨rfl, ?_⟩
    intro g hg
    cases hg
    rfl

theorem InBounds.offset_le_call (hp : c.LoxPool) (h : InBounds c m) (k : Call) :
    m.offset ≤ (m.call c k).1.offset := by
  cases k with
  | step => exact h.offset_le_step hp
  | run =>
    obtain ⟨m₁, hm₁, hle, hrun, -⟩ := h.exists_last_step hp
    show m.offset ≤ (m.run c).1.offset
    rw [hrun]
    exact Int.le_trans hle (hm₁.offset_le_step hp)
  | takeEvents => exact Int.le_refl _

theorem InBounds.offset_le_after (hp : c.LoxPool) (h : InBounds c m) (calls : List Call) :
    m.offset ≤ (m.after c calls).offset := by
  induction calls generalizing m with
  | nil => exact Int.le_refl _
  | cons k rest ih => exact Int.le_trans (h.offset_le_call hp k) (ih (h.call hp k).1)

/-- A machine behind the frame of a failure does not fail there again. -/
theorem InBounds.past (hp : c.LoxPool) (h : InBounds c m) {e : RuntimeFault}
    (he : e.frame.offset < m.offset) : m.Past c (.runtime e) := by
  intro calls
  have hafter := h.after hp calls
  have hle := h.offset_le_after hp calls
  constructor
  · intro hstep
    have := hafter.offset_of_step_error hp hstep
    omega
  · intro hrun
    obtain ⟨m₁, hm₁, hle₁, -, hlast⟩ := hafter.exists_last_step hp
    have := hm₁.offset_of_step_error hp (hlast _ hrun)
    omega

/-! ## Staying -/

/-- Which events there are matters to no step, so the machine stays whatever has been handed
over. -/
theorem step_withEvents_of_fixed (h : m.step c = (m, .error f)) (es : Array Event) :
    (m.withEvents es).step c = (m.withEvents es, .error f) := by
  obtain ⟨added, hadded⟩ := step_withEvents m c
  have hself := hadded m.events
  rw [h] at hself
  have hevents : m.events ++ added = m.events := by
    have := congrArg (·.1.events) hself
    rw [show (m.withEvents m.events).step c = (m, .error f) from h] at this
    exact this.symm
  have hnone : added = #[] := by
    simpa using hevents
  rw [hadded es, h, hnone, Array.append_empty]

theorem after_of_fixed (h : m.step c = (m, .error f)) (calls : List Call) (es : Array Event) :
    ∃ es', (m.withEvents es).after c calls = m.withEvents es' := by
  induction calls generalizing es with
  | nil => exact ⟨es, rfl⟩
  | cons k rest ih =>
    have hstep := step_withEvents_of_fixed h es
    have hcall : ∃ es', ((m.withEvents es).call c k).1 = m.withEvents es' := by
      cases k with
      | step =>
        refine ⟨es, ?_⟩
        show ((m.withEvents es).step c).1 = _
        rw [hstep]
      | run =>
        refine ⟨es, ?_⟩
        show ((m.withEvents es).run c).1 = _
        rw [run_of_error hstep]
      | takeEvents => exact ⟨#[], rfl⟩
    obtain ⟨es', hes'⟩ := hcall
    show ∃ es', ((m.withEvents es).call c k).1.after c rest = m.withEvents es'
    rw [hes']
    exact ih es'

/-- A machine that a failed step leaves as it has been is stuck. -/
theorem stuck_of_fixed (h : m.step c = (m, .error f)) : m.Stuck c f := by
  intro calls
  obtain ⟨es, hes⟩ := after_of_fixed h calls m.events
  have hstep := step_withEvents_of_fixed h es
  rw [show m.after c calls = m.withEvents es from hes, hstep, run_of_error hstep]
  exact ⟨⟨rfl, rfl, rfl, rfl⟩, rfl, rfl⟩

end

/-- **Failures.** Whatever has been called on a fresh machine before, a step that fails changes
where the machine points to and nothing else. If it has not moved it fails in this way for good,
and if it has, never again. -/
theorem step_after_error {c : Chunk} (hp : c.LoxPool) (name : Str) (tracing : Bool)
    (calls : List Call) {m' : Machine} {f : Fault}
    (h : (({ name, tracing } : Machine).after c.toSealed calls).step c.toSealed = (m', .error f)) :
    (({ name, tracing } : Machine).after c.toSealed calls).FailsInto c.toSealed m' f := by
  have hbounds := (inBounds_fresh c.toSealed name tracing).after hp.toSealed calls
  obtain ⟨cause, rfl, hbroken⟩ := hbounds.step_error hp.toSealed h
  refine .intro hbroken.stack hbroken.halted hbroken.result hbroken.ip ?_ ?_
  · intro h0
    have hm' := hbroken.unmoved h0
    subst hm'
    apply stuck_of_fixed
    rw [step_moveTo_offset, h]
  · intro hpos
    have hbounds' := (hbounds.step hp.toSealed).1
    rw [h] at hbounds'
    apply hbounds'.past hp.toSealed
    show _ < m'.offset
    rw [Machine.offset.eq_def m', hbroken.ip]
    exact Int.lt_add_of_pos_right _ (by omega)

/-- The sign of nil is changed in vain, and the machine goes on to the return behind it. -/
theorem step_after_error_nil_negated :
    let c : Chunk := { cells := #[⟨2, 7⟩, ⟨0, 7⟩, ⟨1, 8⟩, ⟨0, 9⟩], constants := #[.nil] }
    let m := ({ name := "<script>" } : Machine).after c.toSealed [.step]
    let f := m.failure c.toSealed 2 .notANumber
    (c.LoxPool ∧ m.step c.toSealed = (m.moveTo 3, .error f)) ∧
      m.FailsInto c.toSealed (m.moveTo 3) f := by
  have hp : ({ cells := #[⟨2, 7⟩, ⟨0, 7⟩, ⟨1, 8⟩, ⟨0, 9⟩],
               constants := #[.nil] } : Chunk).LoxPool := by
    decide
  refine ⟨⟨hp, by decide⟩, ?_⟩
  exact step_after_error hp "<script>" false [.step] (by decide)

/-- A machine that has failed for an index and returns all the same. -/
theorem returns_after_index_nine :
    let c : Chunk := { cells := #[⟨2, 1⟩, ⟨9, 1⟩, ⟨0, 1⟩] }
    let m : Machine := {}
    c.LoxPool ∧ ∃ m' f, m.step c.toSealed = (m', .error f) ∧ m'.offset ≠ m.offset ∧
      (m'.run c.toSealed).2 = .ok .nil := by
  refine ⟨by decide, _, _, rfl, by decide, ?_⟩
  rw [run_of_halt rfl]
  rfl

end LoxMachine.Machine
