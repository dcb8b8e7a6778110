import LoxMachine.Proofs.Machine.Step

/-!
# Runs in closed form

What a run yields can be told from the code alone. The code is read from its start, constants and
changes of sign, up to what the machine does not go past. Each constant is a slot of the stack, and
has the other sign if the number of changes after it, up to the next constant, is odd.

    c.LoxPool → c.reading.Describes c name (({ name } : Machine).run c)           (run_reading)

Reading keeps no stack: of what it has read it looks at the last constant only.
-/

namespace LoxMachine

/-! ## Reading -/

/-- An instruction that a machine goes past. -/
inductive Passed where
  | constant (v : Value)
  | negate
  deriving DecidableEq

/-- What a machine does not go past. -/
inductive Barrier where
  | ret
  | unknown (byte : UInt8)
  /-- A constant instruction whose operand the end of the code cuts off. -/
  | cutOff
  | badIndex (index : UInt8)
  /-- A change of sign without a constant before, or with one that is no number. -/
  | notANumber
  | ended
  deriving DecidableEq

structure Reading where
  passed : List Passed
  /-- The offset of the barrier. -/
  offset : Nat
  barrier : Barrier
  deriving DecidableEq

def Reading.past (i : Passed) (r : Reading) : Reading := { r with passed := i :: r.passed }

/-- Reads code from offset `o` on; `last` is the last constant before. -/
def readCode (pool : Array Value) (last : Option Value) (o : Nat) : List Cell → Reading
  | [] => ⟨[], o, .ended⟩
  | tag :: rest => match Opcode.ofByte? tag.byte with
    | none => ⟨[], o, .unknown tag.byte⟩
    | some .ret => ⟨[], o, .ret⟩
    | some .negate =>
      if last.any Value.isNumber then (readCode pool last (o + 1) rest).past .negate
      else ⟨[], o, .notANumber⟩
    | some .constant => match rest with
      | [] => ⟨[], o, .cutOff⟩
      | operand :: rest => match pool[operand.byte.toNat]? with
        | none => ⟨[], o, .badIndex operand.byte⟩
        | some v => (readCode pool (some v) (o + 2) rest).past (.constant v)

def Chunk.reading (c : Chunk) : Reading := readCode c.constants none 0 c.cells.toList

/-! ## Slots -/

/-- Each constant, and how often the sign is changed before the next one. -/
def slots : List Passed → List (Value × Nat)
  | [] => []
  | .negate :: is => slots is
  | .constant v :: is => (v, (is.takeWhile (· = .negate)).length) :: slots is

/-- A value whose sign is changed `n` times. -/
def Value.signed (n : Nat) (v : Value) : Value := if n % 2 = 1 then v.neg?.getD v else v

/-- The values of the slots, from the bottom of the stack to its top. -/
def slotValues (is : List Passed) : List Value := (slots is).map fun (v, n) => v.signed n

/-! ## Descriptions -/

/-- A run fails at the instruction at `o`, with the given values on its stack. -/
def FailsAt (c : Chunk) (name : Str) (o : Nat) (values : List Value) (cause : RuntimeCause)
    (message : String) (r : Machine × Except Fault Value) : Prop :=
  ∃ e : RuntimeFault, r.2 = .error (.runtime e) ∧ e.cause = cause ∧ e.message = message ∧
    e.frame = ⟨name, o, c.lineOf (min o (c.size - 1))⟩ ∧ r.1.stack.reverse = values

/-- What a run of a machine of the given name yields if it meets the barrier at `o`. A run that
returns takes the last value off the stack. -/
def Barrier.Describes (c : Chunk) (name : Str) (o : Nat) (values : List Value)
    (r : Machine × Except Fault Value) : Barrier → Prop
  | ret => r.2 = .ok (values.getLast?.getD .nil) ∧ r.1.stack.reverse = values.dropLast
  | unknown byte =>
    let fault : BytecodeFault := .unknownOpcode (.int byte.toNat) (some o)
    FailsAt c name o values (.bytecode fault) fault.message r
  | badIndex index =>
    let fault : BytecodeFault := .constantIndex index.toNat c.constants.size
    FailsAt c name o values (.bytecode fault) fault.message r
  | notANumber => FailsAt c name o values .notANumber "Operand must be a number." r
  | cutOff | ended => FailsAt c name o values .endOfCode "Unexpected end of bytecode" r

def Reading.Describes (c : Chunk) (name : Str) (r : Machine × Except Fault Value)
    (reading : Reading) : Prop :=
  reading.barrier.Describes c name reading.offset (slotValues reading.passed) r

/-! ## Lemmas -/

/-- **Reading.** What stands at an offset is read as it is decoded there. -/
theorem readCode_drop (c : Chunk) (last : Option Value) (o : Nat) :
    readCode c.constants last o (c.cells.toList.drop o) = match c.decode o with
      | .ended => ⟨[], o, .ended⟩
      | .unknown byte => ⟨[], o, .unknown byte⟩
      | .badIndex i => ⟨[], o, .badIndex i⟩
      | .cutOff => ⟨[], o, .cutOff⟩
      | .ret => ⟨[], o, .ret⟩
      | .negate =>
        if last.any Value.isNumber then
          (readCode c.constants last (o + 1) (c.cells.toList.drop (o + 1))).past .negate
        else ⟨[], o, .notANumber⟩
      | .constant _ v =>
        (readCode c.constants (some v) (o + 2) (c.cells.toList.drop (o + 2))).past
          (.constant v) := by
  cases hcells : c.cells.toList.drop o with
  | nil =>
    have hend : c.decode o = .ended :=
      Chunk.decode_eq_ended_iff.mpr (by simpa [Chunk.size] using hcells)
    rw [hend]
    rfl
  | cons tag rest =>
    obtain ⟨hc, hrest⟩ := Chunk.cell_of_drop hcells
    rw [readCode.eq_def]
    cases hop : Opcode.ofByte? tag.byte with
    | none => simp only [Chunk.decode, hc, hop]
    | some op =>
      cases op with
      | ret | negate => simp only [Chunk.decode, hc, hop, hrest]
      | constant =>
        cases rest with
        | nil =>
          have hcut : c.cells[o + 1]? = none :=
            Array.getElem?_eq_none (by simpa using List.drop_eq_nil_iff.mp hrest)
          simp only [Chunk.decode, hc, hop, hcut]
        | cons operand rest =>
          obtain ⟨hcell, hrest⟩ := Chunk.cell_of_drop hrest
          cases hv : c.constants[operand.byte.toNat]? with
          | none => simp only [Chunk.decode, hc, hop, hcell, hv]
          | some v => simp only [Chunk.decode, hc, hop, hcell, hv, hrest]

theorem Value.isNumber_of_neg? {v w : Value} (h : v.neg? = some w) :
    v.isNumber = true ∧ w.isNumber = true := by
  rw [← v.neg?_isSome, ← w.neg?_isSome, h, Value.neg?_of_neg? h]
  exact ⟨rfl, rfl⟩

theorem Value.signed_succ {v w : Value} (h : v.neg? = some w) (n : Nat) :
    v.signed (n + 1) = w.signed n := by
  unfold Value.signed
  rw [h, Value.neg?_of_neg? h]
  rcases Nat.mod_two_eq_zero_or_one n with hn | hn
  · rw [if_pos (by omega), if_neg (by omega)]
    rfl
  · rw [if_neg (by omega), if_pos hn]
    rfl

theorem slotValues_constant (v : Value) (is : List Passed) :
    slotValues (.constant v :: is) =
      v.signed (is.takeWhile (· = .negate)).length :: slotValues is := rfl

/-- Signs are changed up to the next constant, whatever comes after it. -/
theorem takeWhile_constant (is : List Passed) (v : Value) (js : List Passed) :
    (is ++ .constant v :: js).takeWhile (· = .negate) = is.takeWhile (· = .negate) := by
  induction is with
  | nil => rfl
  | cons i is ih =>
    rw [List.cons_append, List.takeWhile_cons, List.takeWhile_cons, ih]

/-- What comes before a constant does not depend on it. -/
theorem slotValues_append (is : List Passed) (v : Value) (js : List Passed) :
    slotValues (is ++ .constant v :: js) = slotValues is ++ slotValues (.constant v :: js) := by
  induction is with
  | nil => rfl
  | cons i is ih =>
    cases i with
    | negate => exact ih
    | constant u =>
      rw [List.cons_append, slotValues_constant, slotValues_constant, takeWhile_constant, ih]
      rfl

/-- A change of sign belongs to the constant before it. -/
theorem slotValues_negate (is : List Passed) {v w : Value} (h : v.neg? = some w)
    (js : List Passed) :
    slotValues (is ++ .constant v :: .negate :: js) = slotValues (is ++ .constant w :: js) := by
  rw [slotValues_append, slotValues_append, slotValues_constant, slotValues_constant,
    List.takeWhile_cons]
  exact congrArg (fun x => slotValues is ++ x :: slotValues js) (Value.signed_succ h _)

theorem slotValues_constants (vs : List Value) : slotValues (vs.map .constant) = vs := by
  induction vs with
  | nil => rfl
  | cons v vs ih =>
    rw [List.map_cons, slotValues_constant, ih]
    cases vs <;> rfl

namespace Machine

/-! ## Runs -/

/-- The values of a stack, as if constants had just been read for all of them. -/
def pushed (s : List Value) : List Passed := s.reverse.map .constant

theorem pushed_cons (v : Value) (s : List Value) (is : List Passed) :
    pushed (v :: s) ++ is = pushed s ++ .constant v :: is := by
  simp [pushed]

section
variable {c : Chunk} {m : Machine} {o : Nat}

theorem failsAt_of_step {cause : RuntimeCause} {m' : Machine}
    (hstep : m.step c = (m', .error (m.failure c o cause))) (hstack : m'.stack = m.stack) :
    FailsAt c m.name o (slotValues (pushed m.stack ++ [])) cause cause.message (m.run c) := by
  rw [run_of_error hstep, failure_eq, List.append_nil, pushed, slotValues_constants]
  exact ⟨_, rfl, rfl, rfl, rfl, congrArg List.reverse hstack⟩

theorem describes_ret {m' : Machine} {v : Value}
    (hstep : m.step c = ((m'.withStack m.stack.tail).haltedWith v, .ok .halt))
    (hv : v = m.stack.headD .nil) :
    Barrier.Describes c m.name o (slotValues (pushed m.stack ++ [])) (m.run c) .ret := by
  rw [run_of_halt hstep, hv, List.append_nil, pushed, slotValues_constants]
  refine ⟨?_, ?_⟩
  · rw [List.getLast?_reverse]
    cases m.stack <;> rfl
  · rw [List.dropLast_reverse]
    rfl

/-- **Runs.** A machine that goes on at `o` with some stack yields what a reading from there tells,
with a slot for each value that has been there before. -/
theorem describes_readCode (hp : c.LoxPool) {last : Option Value} (ho : m.offset = o)
    (hh : m.halted = false)
    (hlast : m.stack.head?.any Value.isNumber = last.any Value.isNumber) :
    let r := readCode c.constants last o (c.cells.toList.drop o)
    r.barrier.Describes c m.name r.offset (slotValues (pushed m.stack ++ r.passed)) (m.run c) := by
  -- by the code that is left
  induction hn : c.size - o using Nat.strongRecOn generalizing o m last with
  | ind n ih =>
    have hstep := step_eq hp ho hh
    rw [readCode_drop]
    cases hd : c.decode o with
    | ended | unknown _ | badIndex _ =>
      rw [hd] at hstep
      exact failsAt_of_step hstep rfl
    | cutOff =>
      rw [hd] at hstep
      exact failsAt_of_step hstep (traced_stack ..)
    | ret =>
      rw [hd] at hstep
      exact describes_ret hstep rfl
    | negate =>
      have hlt := Chunk.lt_size_of_decode (c := c) (o := o) (by rw [hd]; nofun)
      rw [hd] at hstep
      rw [← hlast, ← negated?_isSome]
      cases hneg : negated? m.stack with
      | none =>
        simp only [hneg] at hstep
        exact failsAt_of_step hstep (traced_stack ..)
      | some s =>
        simp only [hneg] at hstep
        obtain ⟨v, w, below, hs, hw, rfl⟩ := negated?_eq_some_iff.mp hneg
        have htop : (w :: below).head?.any Value.isNumber = last.any Value.isNumber := by
          rw [← hlast, hs]
          exact (Value.isNumber_of_neg? hw).2.trans (Value.isNumber_of_neg? hw).1.symm
        have hrest := @ih (c.size - (o + 1)) (by omega)
          (((m.traced c o (.plain .negate)).moveTo (o + 1)).withStack (w :: below)) (o + 1) last
          rfl (by simpa using hh) htop rfl
        simp only [withStack_name, moveTo_name, traced_name, withStack_stack, pushed_cons] at hrest
        simp only [Option.isSome_some, if_true, Reading.past]
        -- as if the value on top had been read with the other sign
        rw [run_of_next hstep, hs, pushed_cons, slotValues_negate _ hw]
        exact hrest
    | constant i v =>
      have hlt := Chunk.lt_size_of_decode (c := c) (o := o) (by rw [hd]; nofun)
      rw [hd] at hstep
      have hrest := @ih (c.size - (o + 2)) (by omega)
        (((m.traced c o (.constant i v.shown)).moveTo (o + 2)).withStack (v :: m.stack)) (o + 2)
        (some v) rfl (by simpa using hh) rfl rfl
      simp only [withStack_name, moveTo_name, traced_name, withStack_stack, pushed_cons] at hrest
      rw [run_of_next hstep]
      exact hrest

end

/-- Only a run that meets a return instruction returns. -/
theorem returns_iff_of_describes {c : Chunk} {name : Str} {o : Nat} {values : List Value}
    {r : Machine × Except Fault Value} {b : Barrier} (h : b.Describes c name o values r) :
    (∃ v, r.2 = .ok v) ↔ b = .ret := by
  cases b with
  | ret => exact ⟨fun _ => rfl, fun _ => ⟨_, h.1⟩⟩
  | unknown _ | cutOff | badIndex _ | notANumber | ended =>
    obtain ⟨e, he, -⟩ := h
    refine ⟨fun ⟨v, hv⟩ => ?_, nofun⟩
    rw [he] at hv
    cases hv

/-- **Closed form.** A fresh machine returns if reading ends at a return instruction, and fails
at what it ends at otherwise. The values are those of the slots. -/
theorem run_reading {c : Chunk} (hp : c.LoxPool) (name : Str) :
    let r := ({ name } : Machine).run c
    ((∃ v, r.2 = .ok v) ↔ c.reading.barrier = .ret) ∧ c.reading.Describes c name r := by
  have hlast : ({ name } : Machine).stack.head?.any Value.isNumber =
      (none : Option Value).any Value.isNumber := rfl
  have h : c.reading.Describes c name (({ name } : Machine).run c) :=
    describes_readCode hp rfl rfl hlast
  exact ⟨returns_iff_of_describes h, h⟩

/-- Code whose slots have one and two changes of sign. -/
theorem run_reading_two_slots :
    let c : Chunk := {
      cells := #[⟨2, 1⟩, ⟨1, 1⟩, ⟨1, 1⟩, ⟨2, 2⟩, ⟨0, 2⟩, ⟨1, 2⟩, ⟨1, 3⟩, ⟨0, 3⟩, ⟨7, 4⟩]
      constants := #[.num .nan, .num (.infinite false)] }
    let r := ({ name := "<script>" } : Machine).run c.toSealed
    c.toSealed.LoxPool ∧
      ((∃ v, r.2 = .ok v) ↔ c.toSealed.reading.barrier = .ret) ∧
      c.toSealed.reading.Describes c.toSealed "<script>" r :=
  ⟨by decide, run_reading (by decide) "<script>"⟩

/-- A sign is not changed past a string, whatever comes after it. -/
example : Chunk.reading {
    cells := #[⟨2, 1⟩, ⟨0, 1⟩, ⟨1, 1⟩, ⟨2, 1⟩, ⟨1, 1⟩, ⟨1, 2⟩, ⟨0, 2⟩]
    constants := #[.num .nan, .str "a"] } =
    ⟨[.constant (.num .nan), .negate, .constant (.str "a")], 5, .notANumber⟩ := by
  decide

end Machine
end LoxMachine
