import LoxMachine.Proofs.Machine.Safety

/-!
# Tracebacks

By the time a step fails the machine has moved by none, one or two bytes. The frame of the fault is
at the offset where the step began all the same, and so are the details of the cause: an unknown
byte is the one that stands there, an index the one behind it.

    c.FailsFor o cause → PointsAt c name o ⟨cause, …⟩                     (pointsAt_of_failsFor)

Behind the end of the code there is no line; there the frame has that of the last byte.
-/

namespace LoxMachine

/-- What a step can fail for, by what stands at its offset. -/
inductive Chunk.FailsFor (c : Chunk) (o : Nat) : RuntimeCause → Prop
  | ended (h : c.decode o = .ended) : FailsFor c o .endOfCode
  | cutOff (h : c.decode o = .cutOff) : FailsFor c o .endOfCode
  | negate (h : c.decode o = .negate) : FailsFor c o .notANumber
  | unknown {byte : UInt8} (h : c.decode o = .unknown byte) :
      FailsFor c o (.bytecode (.unknownOpcode (.int byte.toNat) (some o)))
  | badIndex {i : UInt8} (h : c.decode o = .badIndex i) :
      FailsFor c o (.bytecode (.constantIndex i.toNat c.constants.size))

namespace Machine

/-- A fault in the function of the given name that shows the instruction at `o`. -/
structure PointsAt (c : Chunk) (name : Str) (o : Nat) (e : RuntimeFault) : Prop where
  bound : o ≤ c.size
  function : e.frame.function = name
  offset : e.frame.offset = o
  line : o < c.size → c.lines[o]? = some e.frame.line
  line_end : o = c.size → 0 < c.size → c.lines[c.size - 1]? = some e.frame.line
  line_empty : c.size = 0 → e.frame.line = 0
  unknown : ∀ byte offset, e.cause = .bytecode (.unknownOpcode byte offset) →
    offset = some (o : Int) ∧ ∃ b, c.code[o]? = some b ∧ byte = .int b.toNat
  index : ∀ index size, e.cause = .bytecode (.constantIndex index size) →
    size = c.constants.size ∧ ∃ b, c.code[o + 1]? = some b ∧ index = b.toNat

/-! ## Names -/

section
variable (m : Machine) (c : Chunk)

theorem step_name : (m.step c).1.name = m.name := by
  unfold step
  dsimp only
  split
  · rfl
  split
  · rfl
  split
  · rfl
  · split
    · rfl
    · rw [(execute_frame _ _).1, record_name]

theorem run_name : (m.run c).1.name = m.name := by
  have hnext {m₁ m₂ : Machine} (hm : m₁.name = m.name) (hstep : m₁.step c = (m₂, .ok .next)) :
      m₂.name = m.name := by
    rw [← hm, ← step_name m₁ c, hstep]
  obtain ⟨m₁, hm₁, ⟨m', hstep, hrun⟩ | ⟨m', f, hstep, hrun⟩⟩ := run_of_invariant hnext rfl
  · rw [hrun, ← hm₁, ← step_name m₁ c, hstep]
  · rw [hrun, ← hm₁, ← step_name m₁ c, hstep]

/-- No call changes the name that tracebacks show. -/
theorem after_name (calls : List Call) : (m.after c calls).name = m.name := by
  induction calls generalizing m with
  | nil => rfl
  | cons k rest ih =>
    have hcall : (m.call c k).1.name = m.name := by
      cases k with
      | step => exact step_name m c
      | run => exact run_name m c
      | takeEvents => rfl
    exact (ih (m.call c k).1).trans hcall

end

/-! ## Causes -/

section
variable {m m' : Machine} {c : Chunk} {o : Nat} {cause : RuntimeCause} {f : Fault}

/-- **Steps.** A step that fails does so at its offset, for what stands there. -/
theorem exists_failsFor (hp : c.LoxPool) (ho : m.offset = o) (h : m.step c = (m', .error f)) :
    ∃ cause, c.FailsFor o cause ∧ f = m.failure c o cause := by
  cases hh : m.halted with
  | true =>
    rw [step_of_halted hh] at h
    cases h
  | false =>
    rw [step_eq hp ho hh] at h
    cases hd : c.decode o with
    | ended =>
      rw [hd] at h
      cases h
      exact ⟨_, .ended hd, rfl⟩
    | unknown byte =>
      rw [hd] at h
      cases h
      exact ⟨_, .unknown hd, rfl⟩
    | badIndex i =>
      rw [hd] at h
      cases h
      exact ⟨_, .badIndex hd, rfl⟩
    | cutOff =>
      rw [hd] at h
      cases h
      exact ⟨_, .cutOff hd, rfl⟩
    | ret | constant _ _ =>
      rw [hd] at h
      cases h
    | negate =>
      rw [hd] at h
      dsimp only at h
      cases hs : negated? m.stack with
      | none =>
        rw [hs] at h
        cases h
        exact ⟨_, .negate hd, rfl⟩
      | some s =>
        rw [hs] at h
        cases h

/-- **Frames.** The fault of a step shows the instruction where the step began. -/
theorem pointsAt_of_failsFor (name : Str) (ho : o ≤ c.size) (h : c.FailsFor o cause) :
    PointsAt c name o ⟨cause, ⟨name, o, c.lineOf (min o (c.size - 1))⟩⟩ where
  bound := ho
  function := rfl
  offset := rfl
  line hlt := by
    rw [Nat.min_eq_left (by omega)]
    exact Chunk.lines_of_lt hlt
  line_end hend hpos := by
    rw [Nat.min_eq_right (by omega)]
    exact Chunk.lines_of_lt (by omega)
  line_empty hempty := by
    have hnone : c.cells[min o (c.size - 1)]? = none :=
      Array.getElem?_eq_none (Nat.le_trans (Nat.le_of_eq hempty) (Nat.zero_le _))
    show c.lineOf (min o (c.size - 1)) = 0
    rw [Chunk.lineOf, hnone]
    rfl
  unknown byte offset hcause := by
    cases h with
    | ended _ | cutOff _ | negate _ | badIndex _ => cases hcause
    | unknown hd =>
      cases hcause
      exact ⟨rfl, _, Chunk.code_of_cell (Chunk.cell_of_unknown hd), rfl⟩
  index index size hcause := by
    cases h with
    | ended _ | cutOff _ | negate _ | unknown _ => cases hcause
    | badIndex hd =>
      cases hcause
      exact ⟨rfl, _, Chunk.code_of_cell (Chunk.operand_of_decode (by rw [hd]; rfl)), rfl⟩

end

/-- **Tracebacks.** Whatever has been called on a fresh machine before, a step that fails shows the
instruction at which it began. -/
theorem pointsAt_of_step_error {c : Chunk} (hp : c.LoxPool) (name : Str) (tracing : Bool)
    (calls : List Call) {m' : Machine} {f : Fault}
    (h : (({ name, tracing } : Machine).after c.toSealed calls).step c.toSealed = (m', .error f)) :
    ∃ (o : Nat) (e : RuntimeFault), f = .runtime e ∧
      (({ name, tracing } : Machine).after c.toSealed calls).offset = o ∧
        PointsAt c.toSealed name o e := by
  have hbounds := (inBounds_fresh c.toSealed name tracing).after hp.toSealed calls
  obtain ⟨o, ho, hsize, -⟩ := hbounds.offset
  obtain ⟨cause, hcause, rfl⟩ := exists_failsFor hp.toSealed ho h
  refine ⟨o, _, failure_eq .., ho, ?_⟩
  rw [after_name]
  exact pointsAt_of_failsFor name hsize hcause

/-- After an index that is not in the pool, a sign of nothing and a constant instruction that is cut
off, the code is over, which is shown on its last line. -/
theorem pointsAt_after_three_failures :
    let c : Chunk := { cells := #[⟨2, 7⟩, ⟨9, 7⟩, ⟨1, 8⟩, ⟨2, 9⟩] }
    let m := ({ name := "<script>" } : Machine).after c.toSealed [.step, .step, .step]
    let f : Fault := .runtime ⟨.endOfCode, ⟨"<script>", 4, 9⟩⟩
    (c.LoxPool ∧ m.step c.toSealed = (m.moveTo 4, .error f)) ∧
      ∃ (o : Nat) (e : RuntimeFault), f = .runtime e ∧ m.offset = o ∧
        PointsAt c.toSealed "<script>" o e := by
  intro c m f
  have hp : c.LoxPool := by decide
  have hstep : m.step c.toSealed = (m.moveTo 4, .error f) := by decide
  exact ⟨⟨hp, hstep⟩, pointsAt_of_step_error hp "<script>" false [.step, .step, .step] hstep⟩

end Machine
end LoxMachine
