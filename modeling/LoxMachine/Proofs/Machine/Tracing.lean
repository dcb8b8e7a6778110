import LoxMachine.Proofs.Machine.Calls

/-!
# Tracing machines and others

A machine that traces and one that does not step and run over one chunk side by side, call by
call, also after calls that fail. They stay in the same state and all their calls have the same
outcome, up to the first failure for an index that is not in the pool.

    observe traced c calls  agrees with  observe plain c calls  ↔
      no call fails for an index                                       (observe_tracing)

That failure itself is the same for both, but it leaves them at different offsets: the machine
that traces looks the index up before it moves, the other one after it has gone past the operand.
-/

namespace LoxMachine

/-- The execution has met an index that is not in the pool. -/
def RuntimeFault.IsBadIndex (e : RuntimeFault) : Prop :=
  ∃ i n, e.cause = .bytecode (.constantIndex i n)

def FailsForIndex {α : Type} (r : Except Fault α) : Prop :=
  ∃ e : RuntimeFault, r = .error (.runtime e) ∧ e.IsBadIndex

/-- What a call yields, and the machine after it. -/
structure Seen where
  outcome : Except Fault Answer
  machine : Machine

namespace Machine

/-- Calls in order; one that fails does not stop the rest. -/
def observe (m : Machine) (c : Chunk) : List Call → List Seen
  | [] => []
  | k :: rest => ⟨(m.call c k).2, (m.call c k).1⟩ :: observe (m.call c k).1 c rest

/-! ## Machines side by side -/

/-- The same offset, stack and result, and both have halted or neither has. -/
structure SameState (t u : Machine) : Prop where
  ip : t.ip = u.ip
  stack : t.stack = u.stack
  halted : t.halted = u.halted
  result : t.result = u.result

/-- The same state but for the offset: the first machine is at `o`, the second one past the constant
instruction there. -/
structure PartedAt (t u : Machine) (o : Int) : Prop where
  left : t.ip = some o
  right : u.ip = some (o + 2)
  stack : t.stack = u.stack
  halted : t.halted = u.halted
  result : t.result = u.result

theorem PartedAt.not_sameState {t u : Machine} {o : Int} (h : t.PartedAt u o) :
    ¬ t.SameState u := by
  intro hs
  have hip := hs.ip
  rw [h.left, h.right, Option.some.injEq] at hip
  omega

/-- A machine that traces, and one that does not, in the same state. -/
structure Matched (t u : Machine) : Prop where
  state : t.SameState u
  name : t.name = u.name
  tracing : t.tracing = true
  plain : u.tracing = false
  offset : ∃ o : Nat, u.offset = o

theorem matched_fresh (name : Str) : Matched { name, tracing := true } { name } :=
  ⟨⟨rfl, rfl, rfl, rfl⟩, rfl, rfl, rfl, 0, rfl⟩

/-- How two such machines may stand to each other after both have yielded `r`. -/
inductive Stand {α : Type} (t u : Machine) (r : Except Fault α) : Prop
  | matched (h : Matched t u) (hr : ¬ FailsForIndex r)
  | parted (e : RuntimeFault) (hr : r = .error (.runtime e)) (he : e.IsBadIndex)
      (h : t.PartedAt u e.frame.offset)

section
variable {c : Chunk} {t u : Machine} {o : Nat}

theorem Matched.offset_eq (h : Matched t u) : t.offset = u.offset := by
  unfold Machine.offset
  rw [h.state.ip]

theorem Matched.failure_eq (h : Matched t u) (cause : RuntimeCause) :
    t.failure c o cause = u.failure c o cause :=
  failure_congr u h.name c o cause

theorem Matched.moveTo (h : Matched t u) (o : Nat) : Matched (t.moveTo o) (u.moveTo o) :=
  ⟨⟨rfl, h.state.stack, h.state.halted, h.state.result⟩, h.name, h.tracing, h.plain, o, rfl⟩

theorem Matched.withStack (h : Matched t u) (s : List Value) :
    Matched (t.withStack s) (u.withStack s) :=
  ⟨⟨h.state.ip, rfl, h.state.halted, h.state.result⟩, h.name, h.tracing, h.plain, h.offset⟩

theorem Matched.haltedWith (h : Matched t u) (v : Value) :
    Matched (t.haltedWith v) (u.haltedWith v) :=
  ⟨⟨h.state.ip, h.state.stack, rfl, rfl⟩, h.name, h.tracing, h.plain, h.offset⟩

/-- What only one of them records is not part of their state. -/
theorem Matched.traced (h : Matched t u) (b : Listing.Body) :
    Matched (t.traced c o b) (u.traced c o b) := by
  rw [traced_of_not_tracing u c o b h.plain, Machine.traced, h.tracing]
  exact ⟨⟨h.state.ip, h.state.stack, h.state.halted, h.state.result⟩, h.name, h.tracing, h.plain,
    h.offset⟩

theorem not_failsForIndex_ok {α : Type} {a : α} : ¬ FailsForIndex (.ok a : Except Fault α) := by
  rintro ⟨e, h, -⟩
  cases h

theorem not_failsForIndex_failure {α : Type} {m : Machine} {cause : RuntimeCause}
    (h : ∀ i n, cause ≠ .bytecode (.constantIndex i n)) :
    ¬ FailsForIndex (.error (m.failure c o cause) : Except Fault α) := by
  rintro ⟨e, he, i, n, hcause⟩
  cases he
  exact h i n hcause

/-! ## Steps -/

/-- **Steps.** Both machines decode the same, so the one step that tells them apart is that for an
index which is not in the pool. -/
theorem Matched.step (hp : c.LoxPool) (h : Matched t u) :
    (t.step c).2 = (u.step c).2 ∧ Stand (t.step c).1 (u.step c).1 (u.step c).2 := by
  obtain ⟨o, ho⟩ := h.offset
  have hot : t.offset = o := h.offset_eq.trans ho
  cases hh : u.halted with
  | true =>
    rw [step_of_halted hh, step_of_halted (h.state.halted.trans hh), ho, hot]
    exact ⟨rfl, .matched (h.moveTo o) not_failsForIndex_ok⟩
  | false =>
    rw [step_eq hp ho hh, step_eq hp hot (h.state.halted.trans hh)]
    cases hd : c.decode o with
    | ended | unknown _ =>
      exact ⟨congrArg Except.error (h.failure_eq _),
        .matched (h.moveTo o) (not_failsForIndex_failure nofun)⟩
    | cutOff =>
      exact ⟨congrArg Except.error (h.failure_eq _),
        .matched ((h.traced _).moveTo (o + 1)) (not_failsForIndex_failure nofun)⟩
    | badIndex i =>
      refine ⟨congrArg Except.error (h.failure_eq _), .parted _ rfl ⟨_, _, rfl⟩ ?_⟩
      rw [h.tracing, h.plain]
      exact ⟨rfl, rfl, h.state.stack, h.state.halted, h.state.result⟩
    | ret =>
      dsimp only
      rw [h.state.stack]
      exact ⟨rfl, .matched ((((h.traced _).moveTo (o + 1)).withStack _).haltedWith _)
        not_failsForIndex_ok⟩
    | negate =>
      dsimp only
      rw [h.state.stack]
      cases negated? u.stack with
      | none =>
        exact ⟨congrArg Except.error (h.failure_eq _),
          .matched ((h.traced _).moveTo (o + 1)) (not_failsForIndex_failure nofun)⟩
      | some s =>
        exact ⟨rfl, .matched (((h.traced _).moveTo (o + 1)).withStack s) not_failsForIndex_ok⟩
    | constant i v =>
      dsimp only
      rw [h.state.stack]
      exact ⟨rfl, .matched (((h.traced _).moveTo (o + 2)).withStack _) not_failsForIndex_ok⟩

theorem Matched.of_stand {α : Type} {a : α} (h : Stand t u (.ok a : Except Fault α)) :
    Matched t u := by
  cases h with
  | matched h _ => exact h
  | parted e hr _ _ => cases hr

/-! ## Runs and calls -/

/-- What steps keep, a run keeps up to its last step. -/
theorem Matched.run (hp : c.LoxPool) (h : Matched t u) :
    (t.run c).2 = (u.run c).2 ∧ Stand (t.run c).1 (u.run c).1 (u.run c).2 := by
  induction u using run.induct (c := c) generalizing t with
  | case1 u u' hu _ ih =>
    obtain ⟨hout, hstand⟩ := h.step hp
    rw [hu] at hout hstand
    rw [run_of_next hu, run_of_next (Prod.ext rfl hout)]
    exact ih (.of_stand hstand)
  | case2 u u' hu =>
    obtain ⟨hout, hstand⟩ := h.step hp
    rw [hu] at hout hstand
    have hm := Matched.of_stand hstand
    rw [run_of_halt hu, run_of_halt (Prod.ext rfl hout)]
    exact ⟨congrArg Except.ok hm.state.result, .matched hm not_failsForIndex_ok⟩
  | case3 u u' f hu =>
    obtain ⟨hout, hstand⟩ := h.step hp
    rw [hu] at hout hstand
    rw [run_of_error hu, run_of_error (Prod.ext rfl hout)]
    refine ⟨rfl, ?_⟩
    cases hstand with
    | matched hm hr =>
      refine .matched hm ?_
      rintro ⟨e, he, hbad⟩
      cases he
      exact hr ⟨e, rfl, hbad⟩
    | parted e hr he hm =>
      cases hr
      exact .parted e rfl he hm

theorem Stand.map {α β : Type} {r : Except Fault α} (g : α → β) (h : Stand t u r) :
    Stand t u (r.map g) := by
  cases h with
  | matched h hr =>
    refine .matched h ?_
    rintro ⟨e, he, hbad⟩
    cases r with
    | error f =>
      cases he
      exact hr ⟨e, rfl, hbad⟩
    | ok a => cases he
  | parted e hr he h =>
    subst hr
    exact .parted e rfl he h

theorem Matched.call (hp : c.LoxPool) (h : Matched t u) {k : Call} (hk : k ≠ .takeEvents) :
    (t.call c k).2 = (u.call c k).2 ∧ Stand (t.call c k).1 (u.call c k).1 (u.call c k).2 := by
  cases k with
  | step => exact ⟨congrArg (Except.map Answer.control) (h.step hp).1, (h.step hp).2.map _⟩
  | run => exact ⟨congrArg (Except.map Answer.result) (h.run hp).1, (h.run hp).2.map _⟩
  | takeEvents => exact absurd rfl hk

end

end Machine

/-! ## Sequences of calls -/

structure Seen.Agrees (t u : Seen) : Prop where
  outcome : t.outcome = u.outcome
  state : t.machine.SameState u.machine

/-- Both have failed for the same index, at offset `o`, and stand apart. -/
structure Seen.Parts (t u : Seen) : Prop where
  outcome : t.outcome = u.outcome
  parted : ∃ e, u.outcome = .error (.runtime e) ∧ e.IsBadIndex ∧
    t.machine.PartedAt u.machine e.frame.offset

theorem Seen.Parts.not_agrees {t u : Seen} (h : t.Parts u) : ¬ t.Agrees u := by
  obtain ⟨e, -, -, hp⟩ := h.parted
  exact fun ha => hp.not_sameState ha.state

/-- What is seen of two machines agrees until they part. -/
inductive Lockstep : List Seen → List Seen → Prop
  | nil : Lockstep [] []
  | cons {t u : Seen} {ts us : List Seen} (h : t.Agrees u) (hu : ¬ FailsForIndex u.outcome)
      (rest : Lockstep ts us) : Lockstep (t :: ts) (u :: us)
  | parted {t u : Seen} {ts us : List Seen} (h : t.Parts u) : Lockstep (t :: ts) (u :: us)

namespace Lockstep

variable {ts us : List Seen}

/-- The calls before the first failure for an index agree, and at that failure the machines part. -/
theorem at_index (h : Lockstep ts us) {i : Nat} {t u : Seen} (ht : ts[i]? = some t)
    (hu : us[i]? = some u)
    (hbefore : ∀ j < i, ∀ v : Seen, us[j]? = some v → ¬ FailsForIndex v.outcome) :
    (t.Agrees u ∧ ¬ FailsForIndex u.outcome) ∨ t.Parts u := by
  induction h generalizing i with
  | nil => cases ht
  | cons ha hr _ ih =>
    cases i with
    | zero =>
      cases ht
      cases hu
      exact .inl ⟨ha, hr⟩
    | succ i => exact ih ht hu fun j hj v hv => hbefore (j + 1) (Nat.succ_lt_succ hj) v hv
  | parted hp =>
    cases i with
    | zero =>
      cases ht
      cases hu
      exact .inr hp
    | succ i =>
      obtain ⟨e, he, hbad, -⟩ := hp.parted
      exact absurd ⟨e, he, hbad⟩ (hbefore 0 (Nat.succ_pos i) _ rfl)

theorem agrees_iff (h : Lockstep ts us) :
    (∀ (i : Nat) (t u : Seen), ts[i]? = some t → us[i]? = some u → t.Agrees u) ↔
      ∀ u ∈ us, ¬ FailsForIndex u.outcome := by
  induction h with
  | nil => simp
  | cons ha hr _ ih =>
    rw [List.forall_mem_cons, ← ih]
    constructor
    · exact fun hall => ⟨hr, fun i t u => hall (i + 1) t u⟩
    · rintro ⟨-, hrest⟩ i t u ht hu
      cases i with
      | zero =>
        cases ht
        cases hu
        exact ha
      | succ i => exact hrest i t u ht hu
  | parted hp =>
    obtain ⟨e, he, hbad, -⟩ := id hp.parted
    constructor
    · exact fun hall => absurd (hall 0 _ _ rfl rfl) hp.not_agrees
    · exact fun hnone => absurd ⟨e, he, hbad⟩ (hnone _ List.mem_cons_self)

end Lockstep

namespace Machine

theorem Matched.observe {c : Chunk} {t u : Machine} (hp : c.LoxPool) (h : Matched t u)
    {calls : List Call} (hcalls : .takeEvents ∉ calls) :
    Lockstep (t.observe c calls) (u.observe c calls) := by
  induction calls generalizing t u with
  | nil => exact .nil
  | cons k rest ih =>
    rw [List.mem_cons, not_or] at hcalls
    obtain ⟨hout, hstand⟩ := h.call hp (Ne.symm hcalls.1)
    cases hstand with
    | matched hm hr => exact .cons ⟨hout, hm.state⟩ hr (ih hm hcalls.2)
    | parted e hr he hm => exact .parted ⟨hout, e, hr, he, hm⟩

/-- **Tracing.** Two fresh machines, of which one traces, step and run side by side. All that is
seen of them agrees if no call fails for an index that is not in the pool, and only then; the calls
before the first such failure agree in any case, and it parts the machines by their offsets
alone. -/
theorem observe_tracing {c : Chunk} (hp : c.LoxPool) (name : Str) {calls : List Call}
    (hcalls : .takeEvents ∉ calls) :
    let ts := observe { name, tracing := true } c.toSealed calls
    let us := observe { name } c.toSealed calls
    ((∀ (i : Nat) (t u : Seen), ts[i]? = some t → us[i]? = some u → t.Agrees u) ↔
        ∀ u ∈ us, ¬ FailsForIndex u.outcome) ∧
      ∀ (i : Nat) (t u : Seen), ts[i]? = some t → us[i]? = some u →
        (∀ j < i, ∀ v : Seen, us[j]? = some v → ¬ FailsForIndex v.outcome) →
        (t.Agrees u ∧ ¬ FailsForIndex u.outcome) ∨ t.Parts u :=
  have h := (matched_fresh name).observe hp.toSealed hcalls
  ⟨h.agrees_iff, fun _ _ _ => h.at_index⟩

/-- The sign of nil is changed in vain, and the code ends: all calls fail, and all agree. -/
theorem observe_tracing_nil_negated :
    let c : Chunk := { cells := #[⟨2, 7⟩, ⟨0, 7⟩, ⟨1, 8⟩], constants := #[.nil] }
    let calls : List Call := [.step, .step, .run, .step]
    let ts := observe { name := "<script>", tracing := true } c.toSealed calls
    let us := observe { name := "<script>" } c.toSealed calls
    c.LoxPool ∧ .takeEvents ∉ calls ∧
      ((∀ (i : Nat) (t u : Seen), ts[i]? = some t → us[i]? = some u → t.Agrees u) ↔
          ∀ u ∈ us, ¬ FailsForIndex u.outcome) ∧
        ∀ (i : Nat) (t u : Seen), ts[i]? = some t → us[i]? = some u →
          (∀ j < i, ∀ v : Seen, us[j]? = some v → ¬ FailsForIndex v.outcome) →
          (t.Agrees u ∧ ¬ FailsForIndex u.outcome) ∨ t.Parts u :=
  ⟨by decide, by decide, observe_tracing (by decide) _ (by decide)⟩

/-- Machines that part: the one that traces fails again, the other one goes on to the return. -/
theorem observe_index_nine :
    let c : Chunk := { cells := #[⟨2, 4⟩, ⟨9, 4⟩, ⟨0, 4⟩] }
    let ts := observe { tracing := true } c.toSealed [.step, .step]
    let us := observe {} c.toSealed [.step, .step]
    c.LoxPool ∧ ts.map (·.machine.ip) = [some 0, some 0] ∧
      us.map (·.machine.ip) = [some 2, some 3] ∧
      (us.map (·.outcome))[1]? = some (.ok (.control .halt)) ∧
      ¬ ∀ (i : Nat) (t u : Seen), ts[i]? = some t → us[i]? = some u → t.Agrees u := by
  refine ⟨by decide, by decide, by decide, by decide, fun h => ?_⟩
  have hip := (h 0 _ _ rfl rfl).state.ip
  exact absurd hip (by decide)

end Machine
end LoxMachine
