import LoxMachine.Machine
import LoxMachine.Proofs.Decoding

/-!
# Steps by what they decode

A step of a machine inside of the code is told by what stands at its offset, the top of the stack
and whether it is tracing. `step_eq` says all that a step can do; what the machine has recorded by
then is in `traced`, where it points to in `moveTo`.

    m.offset = o → m.halted = false → m.step c = match c.decode o with …       (step_eq)
-/

namespace LoxMachine.Machine

/-- The same machine at another offset. -/
def moveTo (m : Machine) (o : Int) : Machine := { m with ip := some o }

def withStack (m : Machine) (s : List Value) : Machine := { m with stack := s }

def haltedWith (m : Machine) (v : Value) : Machine := { m with result := v, halted := true }

/-- A stack with the other sign of the number on its top, if that is a number. -/
def negated? : List Value → Option (List Value)
  | [] => none
  | v :: rest => v.neg?.map (· :: rest)

/-- The event of an instruction that a listing shows by the given body. -/
def eventOf (m : Machine) (c : Chunk) (o : Nat) (b : Listing.Body) : Event where
  offset := o
  line := c.lineOf o
  text := (Listing.Entry.mk o (c.shownLine o) b ((c.decode o).next c.size o)).text
  stack := m.stack.reverse

/-- The machine after it has recorded an instruction, if it does. -/
def traced (m : Machine) (c : Chunk) (o : Nat) (b : Listing.Body) : Machine :=
  m.record (if m.tracing then some (m.eventOf c o b) else none)

/-! ## Fields -/

section
variable (m : Machine) (c : Chunk) (o : Nat) (i : Int) (b : Listing.Body) (v : Value)
  (s : List Value)

@[simp] theorem moveTo_name : (m.moveTo i).name = m.name := rfl
@[simp] theorem moveTo_tracing : (m.moveTo i).tracing = m.tracing := rfl
@[simp] theorem moveTo_offset : (m.moveTo i).offset = i := rfl
@[simp] theorem moveTo_stack : (m.moveTo i).stack = m.stack := rfl
@[simp] theorem moveTo_halted : (m.moveTo i).halted = m.halted := rfl
@[simp] theorem moveTo_result : (m.moveTo i).result = m.result := rfl
@[simp] theorem moveTo_events : (m.moveTo i).events = m.events := rfl

@[simp] theorem withStack_name : (m.withStack s).name = m.name := rfl
@[simp] theorem withStack_tracing : (m.withStack s).tracing = m.tracing := rfl
@[simp] theorem withStack_offset : (m.withStack s).offset = m.offset := rfl
@[simp] theorem withStack_stack : (m.withStack s).stack = s := rfl
@[simp] theorem withStack_halted : (m.withStack s).halted = m.halted := rfl
@[simp] theorem withStack_result : (m.withStack s).result = m.result := rfl
@[simp] theorem withStack_events : (m.withStack s).events = m.events := rfl

@[simp] theorem haltedWith_name : (m.haltedWith v).name = m.name := rfl
@[simp] theorem haltedWith_tracing : (m.haltedWith v).tracing = m.tracing := rfl
@[simp] theorem haltedWith_offset : (m.haltedWith v).offset = m.offset := rfl
@[simp] theorem haltedWith_stack : (m.haltedWith v).stack = m.stack := rfl
@[simp] theorem haltedWith_halted : (m.haltedWith v).halted = true := rfl
@[simp] theorem haltedWith_result : (m.haltedWith v).result = v := rfl
@[simp] theorem haltedWith_events : (m.haltedWith v).events = m.events := rfl

@[simp] theorem record_name (e : Option Event) : (m.record e).name = m.name := by cases e <;> rfl
@[simp] theorem record_tracing (e : Option Event) : (m.record e).tracing = m.tracing := by
  cases e <;> rfl
@[simp] theorem record_stack (e : Option Event) : (m.record e).stack = m.stack := by cases e <;> rfl
@[simp] theorem record_halted (e : Option Event) : (m.record e).halted = m.halted := by
  cases e <;> rfl
@[simp] theorem record_result (e : Option Event) : (m.record e).result = m.result := by
  cases e <;> rfl

@[simp] theorem traced_name : (m.traced c o b).name = m.name := record_name ..
@[simp] theorem traced_tracing : (m.traced c o b).tracing = m.tracing := record_tracing ..
@[simp] theorem traced_stack : (m.traced c o b).stack = m.stack := record_stack ..
@[simp] theorem traced_halted : (m.traced c o b).halted = m.halted := record_halted ..
@[simp] theorem traced_result : (m.traced c o b).result = m.result := record_result ..

@[simp] theorem moveTo_moveTo (j : Int) : (m.moveTo i).moveTo j = m.moveTo j := rfl

theorem traced_of_not_tracing (h : m.tracing = false) : m.traced c o b = m := by
  rw [traced, h]
  rfl

theorem traced_moveTo : (m.moveTo i).traced c o b = (m.traced c o b).moveTo i := by
  unfold traced
  rw [moveTo_tracing]
  cases m.tracing <;> rfl

theorem traced_events_of_tracing (h : m.tracing = true) :
    (m.traced c o b).events = m.events.push (m.eventOf c o b) := by
  rw [traced, h]
  rfl

end

/-! ## Signs -/

theorem negated?_eq_some_iff {s s' : List Value} :
    negated? s = some s' ↔ ∃ v w rest, s = v :: rest ∧ v.neg? = some w ∧ s' = w :: rest := by
  cases s with
  | nil => simp [negated?]
  | cons v rest =>
    rw [negated?, Option.map_eq_some_iff]
    constructor
    · rintro ⟨w, hw, rfl⟩
      exact ⟨v, w, rest, rfl, hw, rfl⟩
    · rintro ⟨v', w, rest', hs, hw, rfl⟩
      cases hs
      exact ⟨w, hw, rfl⟩

/-- A sign is changed if the value on top is a number. -/
theorem negated?_isSome (s : List Value) :
    (negated? s).isSome = s.head?.any Value.isNumber := by
  cases s with
  | nil => rfl
  | cons v rest =>
    rw [negated?, Option.isSome_map, v.neg?_isSome]
    rfl

/-! ## Frames -/

/-- The frame of an offset counts lines by the code; past its end they are that of the last byte. -/
theorem frame_ofNat (m : Machine) (c : Chunk) (o : Nat) :
    m.frame c o = ⟨m.name, o, c.lineOf (min o (c.size - 1))⟩ := by
  unfold frame Chunk.lineOf
  by_cases h : c.size = 0
  · have hc : c.cells[min o (c.size - 1)]? = none := Array.getElem?_eq_none (by
      show c.size ≤ _
      omega)
    rw [hc]
    simp only [h]
    rw [if_pos (by omega)]
    rfl
  · have hm : min (o : Int) ((c.size : Int) - 1) = (min o (c.size - 1) : Nat) := by omega
    simp only [hm]
    rw [if_neg (by omega), Int.toNat_natCast]

theorem failure_eq (m : Machine) (c : Chunk) (o : Nat) (cause : RuntimeCause) :
    m.failure c o cause = .runtime ⟨cause, ⟨m.name, o, c.lineOf (min o (c.size - 1))⟩⟩ := by
  rw [failure, frame_ofNat]

/-- Which frame a failure has depends on the machine's name alone. -/
theorem failure_congr (m' : Machine) {m : Machine} (h : m.name = m'.name) (c : Chunk) (o : Nat)
    (cause : RuntimeCause) : m.failure c o cause = m'.failure c o cause := by
  rw [failure_eq, failure_eq, h]

/-! ## Execution -/

section
variable (m : Machine) {c : Chunk} {o : Nat}

theorem execute_ret : m.execute c .ret o =
    (((m.moveTo (o + 1)).withStack m.stack.tail).haltedWith (m.stack.headD .nil), .ok .halt) :=
  rfl

theorem execute_negate : m.execute c .negate o = match negated? m.stack with
    | none => (m.moveTo (o + 1), .error (m.failure c o .notANumber))
    | some s => ((m.moveTo (o + 1)).withStack s, .ok .next) := by
  show (m.moveTo (o + 1)).negateTop c o = _
  unfold negateTop
  rw [moveTo_stack]
  cases m.stack with
  | nil => rfl
  | cons v rest =>
    simp only [negated?]
    cases v.neg? <;> rfl

theorem execute_constant_of_size_le (h : c.size ≤ o + 1) :
    m.execute c .constant o = (m.moveTo (o + 1), .error (m.failure c o .endOfCode)) := by
  show (m.moveTo (o + 1)).pushConstant c o = _
  unfold pushConstant
  rw [if_pos (by omega)]
  rfl

theorem execute_constant_of_cell {operand : Cell} (h : c.cells[o + 1]? = some operand) :
    m.execute c .constant o = match c.constants[operand.byte.toNat]? with
      | none => (m.moveTo (o + 2), .error (m.failure c o
          (.bytecode (.constantIndex operand.byte.toNat c.constants.size))))
      | some v => ((m.moveTo (o + 2)).withStack (v :: m.stack), .ok .next) := by
  have hlt := Chunk.lt_size h
  show (m.moveTo (o + 1)).pushConstant c o = _
  unfold pushConstant
  rw [if_neg (by omega), show (o : Int) + 1 = (o + 1 : Nat) by omega, Chunk.byteAt_of_cell h]
  dsimp only
  rw [Chunk.constantAt_ofNat]
  cases c.constants[operand.byte.toNat]? <;> rfl

end

/-! ## Steps -/

section
variable {m : Machine} {c : Chunk} {o : Nat}

theorem eventAt_eq (hp : c.LoxPool) (ho : o < c.size) :
    m.eventAt c o = ((c.decode o).body c.constants.size).map (m.eventOf c o) := by
  unfold eventAt
  rw [Listing.entry_eq hp, Chunk.lineAt_of_lt ho]
  cases (c.decode o).body c.constants.size <;> rfl

theorem event?_eq (hp : c.LoxPool) {b : Listing.Body}
    (hb : (c.decode o).body c.constants.size = .ok b) (ho : o < c.size) :
    m.event? c o = .ok (if m.tracing then some (m.eventOf c o b) else none) := by
  unfold event?
  rw [eventAt_eq hp ho, hb]
  cases m.tracing <;> rfl

theorem step_of_running (ho : m.offset = o) (hh : m.halted = false) :
    m.step c = if (c.size : Int) ≤ o then (m.moveTo o, .error (m.failure c o .endOfCode))
      else match c.opcodeAt o with
        | .error f => (m.moveTo o, .error (m.wrap c o f))
        | .ok op => match (m.moveTo o).event? c o with
          | .error f => (m.moveTo o, .error (m.wrap c o f))
          | .ok e => ((m.moveTo o).record e).execute c op o := by
  unfold step
  rw [ho, if_neg (by rw [hh]; exact Bool.false_ne_true)]
  rfl

/-- A halted machine stays as it is. -/
theorem step_of_halted (hh : m.halted = true) : m.step c = (m.moveTo m.offset, .ok .halt) := by
  unfold step
  rw [if_pos (by exact hh)]
  rfl

theorem step_of_size_le (ho : m.offset = o) (hh : m.halted = false) (h : c.size ≤ o) :
    m.step c = (m.moveTo o, .error (m.failure c o .endOfCode)) := by
  rw [step_of_running ho hh, if_pos (by omega)]

theorem step_of_unknown (ho : m.offset = o) (hh : m.halted = false) {cell : Cell}
    (hc : c.cells[o]? = some cell) (hop : Opcode.ofByte? cell.byte = none) :
    m.step c = (m.moveTo o,
      .error (m.failure c o (.bytecode (.unknownOpcode (.int cell.byte.toNat) (some o))))) := by
  have hlt := Chunk.lt_size hc
  rw [step_of_running ho hh, if_neg (by omega), Chunk.opcodeAt_of_cell hc, hop]
  rfl

theorem step_of_opcode (ho : m.offset = o) (hh : m.halted = false) {cell : Cell} {op : Opcode}
    (hc : c.cells[o]? = some cell) (hop : Opcode.ofByte? cell.byte = some op) :
    m.step c = match (m.moveTo o).event? c o with
      | .error f => (m.moveTo o, .error (m.wrap c o f))
      | .ok e => ((m.moveTo o).record e).execute c op o := by
  have hlt := Chunk.lt_size hc
  rw [step_of_running ho hh, if_neg (by omega), Chunk.opcodeAt_of_cell hc, hop]

/-- An instruction that can be listed is recorded and executed. -/
theorem step_of_body (hp : c.LoxPool) (ho : m.offset = o) (hh : m.halted = false) {cell : Cell}
    {op : Opcode} (hc : c.cells[o]? = some cell) (hop : Opcode.ofByte? cell.byte = some op)
    {b : Listing.Body} (hb : (c.decode o).body c.constants.size = .ok b) :
    m.step c = ((m.traced c o b).moveTo o).execute c op o := by
  rw [step_of_opcode ho hh hc hop, event?_eq hp hb (Chunk.lt_size hc), ← traced_moveTo]
  rfl

/-- The index is looked up before the machine moves on if it records what it executes. -/
theorem step_of_badIndex (hp : c.LoxPool) (ho : m.offset = o) (hh : m.halted = false)
    {cell operand : Cell} (hc : c.cells[o]? = some cell)
    (hop : Opcode.ofByte? cell.byte = some .constant) (hcell : c.cells[o + 1]? = some operand)
    (hv : c.constants[operand.byte.toNat]? = none) :
    m.step c = (m.moveTo (if m.tracing then o else o + 2), .error (m.failure c o
      (.bytecode (.constantIndex operand.byte.toNat c.constants.size)))) := by
  have hd : c.decode o = .badIndex operand.byte := by
    simp only [Chunk.decode, hc, hop, hcell, hv]
  rw [step_of_opcode ho hh hc hop]
  unfold event?
  rw [moveTo_tracing]
  cases m.tracing with
  | true =>
    rw [if_pos rfl, eventAt_eq hp (Chunk.lt_size hc), hd]
    rfl
  | false =>
    show (m.moveTo o).execute c .constant o = _
    rw [execute_constant_of_cell _ hcell, hv]
    rfl

/-- **Steps.** All that a step can do that begins at `o`. -/
theorem step_eq (hp : c.LoxPool) (ho : m.offset = o) (hh : m.halted = false) :
    m.step c = match c.decode o with
      | .ended => (m.moveTo o, .error (m.failure c o .endOfCode))
      | .unknown byte => (m.moveTo o,
          .error (m.failure c o (.bytecode (.unknownOpcode (.int byte.toNat) (some o)))))
      | .badIndex i => (m.moveTo (if m.tracing then o else o + 2),
          .error (m.failure c o (.bytecode (.constantIndex i.toNat c.constants.size))))
      | .cutOff => ((m.traced c o .illegal).moveTo (o + 1), .error (m.failure c o .endOfCode))
      | .ret => ((((m.traced c o (.plain .ret)).moveTo (o + 1)).withStack m.stack.tail).haltedWith
          (m.stack.headD .nil), .ok .halt)
      | .negate => match negated? m.stack with
        | none => ((m.traced c o (.plain .negate)).moveTo (o + 1),
            .error (m.failure c o .notANumber))
        | some s => (((m.traced c o (.plain .negate)).moveTo (o + 1)).withStack s, .ok .next)
      | .constant i v => (((m.traced c o (.constant i v.shown)).moveTo (o + 2)).withStack
          (v :: m.stack), .ok .next) := by
  cases hc : c.cells[o]? with
  | none =>
    have hsize := Chunk.size_le hc
    rw [step_of_size_le ho hh hsize, Chunk.decode_eq_ended_iff.mpr hsize]
  | some cell =>
    cases hop : Opcode.ofByte? cell.byte with
    | none =>
      have hd : c.decode o = .unknown cell.byte := by simp only [Chunk.decode, hc, hop]
      rw [step_of_unknown ho hh hc hop, hd]
    | some op =>
      cases op with
      | ret =>
        have hd : c.decode o = .ret := by simp only [Chunk.decode, hc, hop]
        rw [step_of_body hp ho hh hc hop (by rw [hd]; rfl), hd, execute_ret, moveTo_stack,
          traced_stack, moveTo_moveTo]
      | negate =>
        have hd : c.decode o = .negate := by simp only [Chunk.decode, hc, hop]
        rw [step_of_body hp ho hh hc hop (by rw [hd]; rfl), hd, execute_negate, moveTo_stack,
          traced_stack, moveTo_moveTo, failure_congr m (by simp)]
      | constant =>
        cases hcell : c.cells[o + 1]? with
        | none =>
          have hd : c.decode o = .cutOff := by simp only [Chunk.decode, hc, hop, hcell]
          rw [step_of_body hp ho hh hc hop (by rw [hd]; rfl), hd,
            execute_constant_of_size_le _ (Chunk.size_le hcell), moveTo_moveTo,
            failure_congr m (by simp)]
        | some operand =>
          cases hv : c.constants[operand.byte.toNat]? with
          | some v =>
            have hd : c.decode o = .constant operand.byte v := by
              simp only [Chunk.decode, hc, hop, hcell, hv]
            rw [step_of_body hp ho hh hc hop (by rw [hd]; rfl), hd,
              execute_constant_of_cell _ hcell, hv, moveTo_stack, traced_stack, moveTo_moveTo]
          | none =>
            have hd : c.decode o = .badIndex operand.byte := by
              simp only [Chunk.decode, hc, hop, hcell, hv]
            rw [step_of_badIndex hp ho hh hc hop hcell hv, hd]

end

/-! ## Runs -/

section
variable {m m' : Machine} {c : Chunk}

theorem run_of_next (h : m.step c = (m', .ok .next)) : m.run c = m'.run c := by
  rw [run]
  split
  · next h' =>
    rw [h] at h'
    cases h'
    rfl
  · next h' =>
    rw [h] at h'
    cases h'
  · next h' =>
    rw [h] at h'
    cases h'

theorem run_of_halt (h : m.step c = (m', .ok .halt)) : m.run c = (m', .ok m'.result) := by
  rw [run]
  split
  · next h' =>
    rw [h] at h'
    cases h'
  · next h' =>
    rw [h] at h'
    cases h'
    rfl
  · next h' =>
    rw [h] at h'
    cases h'

theorem run_of_error {f : Fault} (h : m.step c = (m', .error f)) : m.run c = (m', .error f) := by
  rw [run]
  split
  · next h' =>
    rw [h] at h'
    cases h'
  · next h' =>
    rw [h] at h'
    cases h'
  · next h' =>
    rw [h] at h'
    cases h'
    rfl

end

end LoxMachine.Machine
