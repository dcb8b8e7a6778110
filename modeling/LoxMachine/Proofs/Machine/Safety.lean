import LoxMachine.Proofs.Machine.Values
import LoxMachine.Proofs.Traversal

/-!
# Safety of machines

Code of any bytes is executed safely: whatever is called on a machine, also after calls that fail,
it stays inside of the code, holds nothing but constants of the pool and their negations, and fails
with faults of the run alone. A run ends, and the code that is left bounds its steps.

    c.LoxPool → ({ name, tracing }.after c calls).Safe c                      (safe_after)

Each instruction that pushes a value takes two bytes, so the stack is at most half as high as the
offset.
-/

namespace LoxMachine

/-- A value is a constant of the pool, or a number of the pool with the other sign. -/
def Chunk.Provides (c : Chunk) (v : Value) : Prop :=
  v ∈ c.constants.toList ∨ ∃ w ∈ c.constants.toList, w.neg? = some v

theorem Chunk.Provides.neg {c : Chunk} {v w : Value} (h : c.Provides v) (hw : v.neg? = some w) :
    c.Provides w := by
  rcases h with h | ⟨u, hu, hv⟩
  · exact .inr ⟨v, h, hw⟩
  · have hback := Value.neg?_of_neg? hv
    rw [hw, Option.some.injEq] at hback
    subst hback
    exact .inl hu

namespace Machine

/-! ## Algorithm -/

/-- The machine after calls in order, of which some may fail. -/
def after (m : Machine) (c : Chunk) (calls : List Call) : Machine :=
  calls.foldl (fun m k => (m.call c k).1) m

/-- Steps until a machine halts or fails, with their number and what a run of them yields. -/
inductive RunsIn (c : Chunk) : Machine → Nat → Machine × Except Fault Value → Prop
  | halt {m m' : Machine} (h : m.step c = (m', .ok .halt)) : RunsIn c m 1 (m', .ok m'.result)
  | error {m m' : Machine} {f : Fault} (h : m.step c = (m', .error f)) :
      RunsIn c m 1 (m', .error f)
  | next {m m' : Machine} {n : Nat} {r : Machine × Except Fault Value}
      (h : m.step c = (m', .ok .next)) (rest : RunsIn c m' n r) : RunsIn c m (n + 1) r

/-- What can be relied on whenever a machine executes a chunk. -/
structure Safe (c : Chunk) (m : Machine) : Prop where
  bounds : ∀ o, m.ip = some o → 0 ≤ o ∧ o ≤ c.size ∧ 2 * (m.stack.length : Int) ≤ o
  values : ∀ v ∈ m.stack, c.Provides v
  faults : ∀ k f, (m.call c k).2 = .error f → ∃ e, f = .runtime e
  /-- A step that does not end the execution goes past one instruction. -/
  next : ∀ m', m.step c = (m', .ok .next) →
    ∃ op, c.opcodeAt m.offset = .ok op ∧ m'.offset = m.offset + op.width
  failed : ∀ m' f, m.step c = (m', .error f) →
    m'.stack = m.stack ∧ m'.halted = m.halted ∧ m'.result = m.result
  halted : m.halted = true → m.step c = (m, .ok .halt) ∧ m.run c = (m, .ok m.result)
  run : ∃ n : Nat, (n : Int) ≤ c.size - m.offset + 1 ∧ RunsIn c m n (m.run c)

/-! ## Invariant -/

/-- What calls preserve. -/
structure InBounds (c : Chunk) (m : Machine) : Prop where
  offset : ∃ o : Nat, m.offset = o ∧ o ≤ c.size ∧ 2 * m.stack.length ≤ o
  values : ∀ v ∈ m.stack, c.Provides v
  started : m.halted = true → m.ip = some m.offset

theorem inBounds_fresh (c : Chunk) (name : Str) (tracing : Bool) :
    InBounds c { name, tracing } :=
  ⟨⟨0, rfl, Nat.zero_le _, Nat.le_refl 0⟩, nofun, nofun⟩

/-- What a step leads to, besides what it preserves. -/
def StepsTo (c : Chunk) (m m' : Machine) : Except Fault Control → Prop
  | .ok .next => ∃ op, c.opcodeAt m.offset = .ok op ∧ m'.offset = m.offset + op.width
  | .ok .halt => True
  | .error f => (∃ e, f = .runtime e) ∧
      m'.stack = m.stack ∧ m'.halted = m.halted ∧ m'.result = m.result

section
variable {c : Chunk} {m : Machine}

theorem moveTo_eq_self (h : m.ip = some m.offset) : m.moveTo m.offset = m := by
  unfold moveTo
  rw [← h]

/-- A machine stays in bounds if it goes forward and keeps its stack. -/
theorem InBounds.moveTo (h : InBounds c m) {o : Nat} (hge : m.offset ≤ o) (hle : o ≤ c.size)
    {m' : Machine} (hstack : m'.stack = m.stack) : InBounds c (m'.moveTo o) := by
  obtain ⟨o₀, ho₀, -, hheight⟩ := h.offset
  refine ⟨⟨o, rfl, hle, ?_⟩, ?_, fun _ => rfl⟩
  · rw [moveTo_stack, hstack]
    omega
  · rw [moveTo_stack, hstack]
    exact h.values

theorem stepsTo_failure {m' : Machine} (o : Nat) (cause : RuntimeCause)
    (hstack : m'.stack = m.stack) (hhalted : m'.halted = m.halted)
    (hresult : m'.result = m.result) :
    StepsTo c m m' (.error (m.failure c o cause)) :=
  ⟨⟨_, rfl⟩, hstack, hhalted, hresult⟩

/-- **Steps.** Whatever stands at its offset, a machine stays in bounds. -/
theorem InBounds.step (hp : c.LoxPool) (h : InBounds c m) :
    InBounds c (m.step c).1 ∧ StepsTo c m (m.step c).1 (m.step c).2 := by
  obtain ⟨o, ho, hsize, hheight⟩ := h.offset
  cases hh : m.halted with
  | true =>
    rw [step_of_halted hh, moveTo_eq_self (h.started hh)]
    exact ⟨h, trivial⟩
  | false =>
    have hge : m.offset ≤ (o : Int) := Int.le_of_eq ho
    have hnext := Chunk.next_le_size hsize
    rw [step_eq hp ho hh]
    cases hd : c.decode o with
    | ended | unknown _ =>
      exact ⟨h.moveTo hge hsize rfl, stepsTo_failure o _ rfl rfl rfl⟩
    | badIndex i =>
      rw [hd] at hnext
      refine ⟨?_, stepsTo_failure o _ rfl rfl rfl⟩
      dsimp only
      split
      · exact h.moveTo hge hsize rfl
      · exact h.moveTo (o := o + 2) (by omega) hnext rfl
    | cutOff =>
      have hlt := Chunk.lt_size_of_decode (c := c) (o := o) (by rw [hd]; nofun)
      exact ⟨h.moveTo (o := o + 1) (by omega) hlt (by simp),
        stepsTo_failure o _ (by simp) (by simp) (by simp)⟩
    | ret =>
      rw [hd] at hnext
      refine ⟨⟨⟨o + 1, rfl, hnext, ?_⟩, ?_, fun _ => rfl⟩, trivial⟩
      · show 2 * m.stack.tail.length ≤ o + 1
        rw [List.length_tail]
        omega
      · exact fun v hv => h.values v (List.mem_of_mem_tail hv)
    | negate =>
      rw [hd] at hnext
      dsimp only
      cases hs : negated? m.stack with
      | none =>
        exact ⟨h.moveTo (o := o + 1) (by omega) hnext (by simp),
          stepsTo_failure o _ (by simp) (by simp) (by simp)⟩
      | some s =>
        obtain ⟨hlength, hvalues⟩ := forall_of_negated? Chunk.Provides.neg h.values hs
        refine ⟨⟨⟨o + 1, rfl, hnext, ?_⟩, hvalues, fun _ => rfl⟩, .negate, ?_, ?_⟩
        · show 2 * s.length ≤ o + 1
          omega
        · rw [ho]
          exact Chunk.opcodeAt_of_decode (by rw [hd]; rfl)
        · rw [ho]
          rfl
    | constant i v =>
      rw [hd] at hnext
      have hv := Chunk.mem_constants_of_decode hd
      refine ⟨⟨⟨o + 2, rfl, hnext, ?_⟩, ?_, fun _ => rfl⟩, .constant, ?_, ?_⟩
      · show 2 * (m.stack.length + 1) ≤ o + 2
        omega
      · exact List.forall_mem_cons.mpr ⟨.inl hv, h.values⟩
      · rw [ho]
        exact Chunk.opcodeAt_of_decode (by rw [hd]; rfl)
      · rw [ho]
        rfl

/-! ## Runs and calls -/

/-- **Runs.** The steps of a run are bounded by the code that is left, and one more. -/
theorem InBounds.runsIn (hp : c.LoxPool) (h : InBounds c m) :
    ∃ n : Nat, (n : Int) ≤ c.size - m.offset + 1 ∧ RunsIn c m n (m.run c) := by
  have hlast : ((1 : Nat) : Int) ≤ c.size - m.offset + 1 := by
    obtain ⟨o, ho, hsize, -⟩ := h.offset
    omega
  induction m using run.induct (c := c) with
  | case1 m m' hstep hlt ih =>
    have hm' : InBounds c m' := by
      have := (h.step hp).1
      rwa [hstep] at this
    obtain ⟨o, ho, hsize, -⟩ := hm'.offset
    obtain ⟨n, hn, hrun⟩ := ih hm' (by omega)
    rw [run_of_next hstep]
    exact ⟨n + 1, by omega, .next hstep hrun⟩
  | case2 m m' hstep =>
    rw [run_of_halt hstep]
    exact ⟨1, hlast, .halt hstep⟩
  | case3 m m' f hstep =>
    rw [run_of_error hstep]
    exact ⟨1, hlast, .error hstep⟩

theorem InBounds.run (hp : c.LoxPool) (h : InBounds c m) :
    InBounds c (m.run c).1 ∧ ∀ f, (m.run c).2 = .error f → ∃ e, f = .runtime e := by
  have hnext {m m' : Machine} (hm : InBounds c m) (hstep : m.step c = (m', .ok .next)) :
      InBounds c m' := by
    have := (hm.step hp).1
    rwa [hstep] at this
  obtain ⟨m₁, hm₁, ⟨m', hstep, hrun⟩ | ⟨m', f, hstep, hrun⟩⟩ := run_of_invariant hnext h
  · have hlast := hm₁.step hp
    rw [hstep] at hlast
    rw [hrun]
    exact ⟨hlast.1, nofun⟩
  · have hlast := hm₁.step hp
    rw [hstep] at hlast
    rw [hrun]
    refine ⟨hlast.1, fun g hg => ?_⟩
    cases hg
    exact hlast.2.1

theorem InBounds.call (hp : c.LoxPool) (h : InBounds c m) (k : Call) :
    InBounds c (m.call c k).1 ∧ ∀ f, (m.call c k).2 = .error f → ∃ e, f = .runtime e := by
  cases k with
  | step =>
    obtain ⟨hm', hto⟩ := h.step hp
    refine ⟨hm', fun f hf => ?_⟩
    rw [map_eq_error_iff.mp hf] at hto
    exact hto.1
  | run =>
    obtain ⟨hm', hfaults⟩ := h.run hp
    exact ⟨hm', fun f hf => hfaults f (map_eq_error_iff.mp hf)⟩
  | takeEvents => exact ⟨⟨h.offset, h.values, h.started⟩, nofun⟩

theorem InBounds.after (hp : c.LoxPool) (h : InBounds c m) (calls : List Call) :
    InBounds c (m.after c calls) := by
  induction calls generalizing m with
  | nil => exact h
  | cons k rest ih => exact ih (h.call hp k).1

theorem InBounds.safe (hp : c.LoxPool) (h : InBounds c m) : Safe c m where
  bounds o hip := by
    obtain ⟨o', ho', hsize, hheight⟩ := h.offset
    have : m.offset = o := by
      rw [Machine.offset, hip]
      rfl
    omega
  values := h.values
  faults k := (h.call hp k).2
  next m' hstep := by
    have := (h.step hp).2
    rwa [hstep] at this
  failed m' f hstep := by
    have := (h.step hp).2
    rw [hstep] at this
    exact this.2
  halted hh := by
    have hstep := step_of_halted (c := c) hh
    rw [moveTo_eq_self (h.started hh)] at hstep
    exact ⟨hstep, run_of_halt hstep⟩
  run := h.runsIn hp

end

/-- **Safety.** Whatever bytes there are and whatever has been called on a fresh machine before, be
it tracing or not, it can be relied on. -/
theorem safe_after {c : Chunk} (hp : c.LoxPool) (name : Str) (tracing : Bool)
    (calls : List Call) :
    (({ name, tracing } : Machine).after c.toSealed calls).Safe c.toSealed :=
  ((inBounds_fresh c.toSealed name tracing).after hp.toSealed calls).safe hp.toSealed

/-- After an index that is not in the pool, a machine that does not trace goes on with nil, whose
sign it fails to change, and with a byte that is no tag. -/
theorem safe_after_three_failures :
    let c : Chunk := {
      cells := #[⟨2, 1⟩, ⟨9, 1⟩, ⟨2, 2⟩, ⟨0, 2⟩, ⟨1, 3⟩, ⟨7, 4⟩]
      constants := #[.nil] }
    c.LoxPool ∧
      (({ name := "<script>" } : Machine).after c.toSealed [.step, .run, .step]).Safe c.toSealed :=
  ⟨by decide, safe_after (by decide) "<script>" false [.step, .run, .step]⟩

end Machine
end LoxMachine
