import LoxMachine.Proofs.Machine.Calls

/-!
# What a machine holds

A machine takes constants from the pool, changes the sign of numbers, and yields nil from an empty
stack. So what nil and all constants are and a change of sign keeps, is all that there is on its
stack, in the events that it records, and what it returns. If the constants are values that programs
compute with, all its failures are faults of the run.

    Value.Kept P → (∀ v ∈ c.constants.toList, P v) → m.Running P → (m.run c).1.Holds P ∧ …
                                                                               (Running.run)
-/

namespace LoxMachine

/-- A property that nil has and a change of sign keeps. -/
structure Value.Kept (P : Value → Prop) : Prop where
  nil : P .nil
  neg : ∀ {v w : Value}, P v → v.neg? = some w → P w

theorem Value.isLox_of_neg? {v w : Value} (h : v.IsLox) (hw : v.neg? = some w) : w.IsLox := by
  cases v with
  | num x =>
    cases hw
    trivial
  | nil | bool _ | str _ => cases hw
  | int _ | list _ | dict _ => exact h.elim

theorem Value.kept_isLox : Kept IsLox := ⟨trivial, isLox_of_neg?⟩

namespace Machine

/-- All values of a machine have a property. -/
structure Holds (P : Value → Prop) (m : Machine) : Prop where
  stack : ∀ v ∈ m.stack, P v
  events : ∀ e ∈ m.events.toList, ∀ v ∈ e.stack, P v

/-- A machine that goes on, with only such values. -/
structure Running (P : Value → Prop) (m : Machine) : Prop where
  offset : ∃ o : Nat, m.offset = o
  halted : m.halted = false
  holds : m.Holds P

/-- What a step of such a machine leads to. -/
def Proceeds (P : Value → Prop) (m : Machine) : Except Fault Control → Prop
  | .ok .next => m.Running P
  | .ok .halt => m.Holds P ∧ P m.result
  | .error f => m.Holds P ∧ ∃ e, f = .runtime e

section
variable {P : Value → Prop} {m : Machine} {c : Chunk} {s : List Value}

theorem running_fresh (P : Value → Prop) (name : Str) (tracing : Bool) :
    ({ name, tracing } : Machine).Running P :=
  ⟨⟨0, rfl⟩, rfl, nofun, nofun⟩

/-! ## Parts of a step -/

theorem Holds.moveTo (h : m.Holds P) (i : Int) : (m.moveTo i).Holds P := ⟨h.stack, h.events⟩

theorem Holds.withStack (h : m.Holds P) (hs : ∀ v ∈ s, P v) : (m.withStack s).Holds P :=
  ⟨hs, h.events⟩

theorem Holds.traced (h : m.Holds P) (c : Chunk) (o : Nat) (b : Listing.Body) :
    (m.traced c o b).Holds P := by
  refine ⟨by simpa using h.stack, ?_⟩
  cases ht : m.tracing with
  | false =>
    rw [traced_of_not_tracing _ _ _ _ ht]
    exact h.events
  | true =>
    rw [traced_events_of_tracing _ _ _ _ ht, Array.toList_push]
    intro e he
    rcases List.mem_append.mp he with he | he
    · exact h.events e he
    · rw [List.mem_singleton.mp he]
      exact fun v hv => h.stack v (List.mem_reverse.mp hv)

/-- A stack with the other sign on its top is as high as before, and keeps the property. -/
theorem forall_of_negated? {s' : List Value} (hneg : ∀ {v w}, P v → v.neg? = some w → P w)
    (h : ∀ v ∈ s, P v) (hs : negated? s = some s') :
    s'.length = s.length ∧ ∀ v ∈ s', P v := by
  obtain ⟨v, w, rest, rfl, hw, rfl⟩ := negated?_eq_some_iff.mp hs
  obtain ⟨hv, hrest⟩ := List.forall_mem_cons.mp h
  exact ⟨rfl, List.forall_mem_cons.mpr ⟨hneg hv hw, hrest⟩⟩

theorem of_headD (hP : Value.Kept P) (h : ∀ v ∈ s, P v) : P (s.headD .nil) := by
  cases s with
  | nil => exact hP.nil
  | cons v rest => exact h v List.mem_cons_self

/-! ## Steps and runs -/

variable (hp : c.LoxPool) (hP : Value.Kept P) (hc : ∀ v ∈ c.constants.toList, P v)
include hp hP hc

/-- Whatever a step decodes, the machine holds only values with the property after it. -/
theorem Running.step (h : m.Running P) : (m.step c).1.Proceeds P (m.step c).2 := by
  obtain ⟨o, ho⟩ := h.offset
  rw [step_eq hp ho h.halted]
  cases hd : c.decode o with
  | ended | unknown _ | badIndex _ => exact ⟨h.holds.moveTo _, _, rfl⟩
  | cutOff => exact ⟨(h.holds.traced c o _).moveTo _, _, rfl⟩
  | ret =>
    have htail : ∀ v ∈ m.stack.tail, P v :=
      fun v hv => h.holds.stack v (List.mem_of_mem_tail hv)
    have hrest := ((h.holds.traced c o (.plain .ret)).moveTo (o + 1)).withStack htail
    exact ⟨⟨hrest.stack, hrest.events⟩, of_headD hP h.holds.stack⟩
  | negate =>
    have hmoved := (h.holds.traced c o (.plain .negate)).moveTo (o + 1)
    dsimp only
    cases hs : negated? m.stack with
    | none => exact ⟨hmoved, _, rfl⟩
    | some s =>
      exact ⟨⟨o + 1, rfl⟩, by simpa using h.halted,
        hmoved.withStack (forall_of_negated? hP.neg h.holds.stack hs).2⟩
  | constant i v =>
    have hpushed : ∀ w ∈ v :: m.stack, P w := by
      intro w hw
      rcases List.mem_cons.mp hw with rfl | hw
      · exact hc w (Chunk.mem_constants_of_decode hd)
      · exact h.holds.stack w hw
    exact ⟨⟨o + 2, rfl⟩, by simpa using h.halted,
      ((h.holds.traced c o _).moveTo (o + 2)).withStack hpushed⟩

/-- **What a run holds.** A run ends with values that have the property, or by a fault of its own.
-/
theorem Running.run (h : m.Running P) :
    (m.run c).1.Holds P ∧ (∀ v, (m.run c).2 = .ok v → P v) ∧
      ∀ f, (m.run c).2 = .error f → ∃ e, f = .runtime e := by
  have hnext {m m' : Machine} (hm : m.Running P) (hstep : m.step c = (m', .ok .next)) :
      m'.Running P := by
    have := hm.step hp hP hc
    rwa [hstep] at this
  obtain ⟨m₁, hm₁, ⟨m', hstep, hrun⟩ | ⟨m', f, hstep, hrun⟩⟩ := run_of_invariant hnext h
  · have hlast := hm₁.step hp hP hc
    rw [hstep] at hlast
    rw [hrun]
    refine ⟨hlast.1, ?_, nofun⟩
    intro v hv
    cases hv
    exact hlast.2
  · have hlast := hm₁.step hp hP hc
    rw [hstep] at hlast
    rw [hrun]
    refine ⟨hlast.1, nofun, ?_⟩
    intro f' hf
    cases hf
    exact hlast.2

end

end Machine
end LoxMachine
