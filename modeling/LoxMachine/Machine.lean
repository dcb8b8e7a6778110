import LoxMachine.Listing

/-!
# The machine

The machine executes the instructions of a chunk one after the other, on a stack of values. It
starts at offset 0 with its first step, which seals the chunk. A step that fails tells where it
was and why. What it has moved by then stays moved: past the tag if the operand is missing,
past the operand if the constant is.

A tracing machine records each instruction before it executes it.

## Steps

    step    look at the opcode, record it if tracing, go past the tag, execute
    run     step until the machine halts or a step fails
-/

namespace LoxMachine

/-! ## State -/

/-- A recorded instruction: its entry in the listing, its line and the stack it found. -/
structure Event where
  offset : Int
  line : Int
  text : Str
  /-- From the bottom to the top. -/
  stack : List Value
  deriving DecidableEq

structure Machine where
  /-- The name of the function that tracebacks show. -/
  name : Str := "<script>"
  tracing : Bool := false
  /-- The offset of the next instruction, once the machine has started. -/
  ip : Option Int := none
  /-- The top comes first. -/
  stack : List Value := []
  halted : Bool := false
  result : Value := .nil
  events : Array Event := #[]
  deriving DecidableEq, Inhabited

inductive Control where
  | next
  | halt
  deriving DecidableEq

namespace Machine

/-- Where the next step begins. -/
def offset (m : Machine) : Int := m.ip.getD 0

/-- The frame of an offset; past the end of the code its line is that of the last byte, and
empty code has line 0. -/
def frame (m : Machine) (c : Chunk) (offset : Int) : Frame :=
  let last := min offset (c.size - 1)
  let line := if last < 0 then 0 else (c.cells[last.toNat]?).elim 0 (·.line)
  ⟨m.name, offset, line⟩

def failure (m : Machine) (c : Chunk) (offset : Int) (cause : RuntimeCause) : Fault :=
  .runtime ⟨cause, m.frame c offset⟩

/-- Defects of the bytecode are met as runtime faults, at the instruction's offset. -/
def wrap (m : Machine) (c : Chunk) (offset : Int) : Fault → Fault
  | .bytecode cause => m.failure c offset (.bytecode cause)
  | f => f

/-! ## Tracing -/

/-- The record of the instruction that is about to be executed. -/
def eventAt (m : Machine) (c : Chunk) (offset : Int) : Except Fault Event := do
  let e ← Listing.entry c offset
  return ⟨offset, ← c.lineAt offset, e.text, m.stack.reverse⟩

/-- What there is to record before an instruction is executed. -/
def event? (m : Machine) (c : Chunk) (offset : Int) : Except Fault (Option Event) :=
  if m.tracing then return some (← m.eventAt c offset) else .ok none

def record (m : Machine) : Option Event → Machine
  | some e => { m with events := m.events.push e }
  | none => m

/-- Hands over the events recorded so far. -/
def takeEvents (m : Machine) : Machine × Array Event := ({ m with events := #[] }, m.events)

/-! ## Execution -/

/-- Executes a constant instruction at `start`, whose tag the machine has passed. -/
def pushConstant (m : Machine) (c : Chunk) (start : Int) : Machine × Except Fault Control :=
  if c.size ≤ start + 1 then (m, .error (m.failure c start .endOfCode))
  else match c.byteAt (start + 1) with
    | .error f => (m, .error (m.wrap c start f))
    | .ok index =>
      let m := { m with ip := some (start + 2) }
      match c.constantAt index.toNat with
      | .error f => (m, .error (m.wrap c start f))
      | .ok v => ({ m with stack := v :: m.stack }, .ok .next)

/-- Flips the sign of the number on top of the stack. -/
def negateTop (m : Machine) (c : Chunk) (start : Int) : Machine × Except Fault Control :=
  match m.stack with
  | [] => (m, .error (m.failure c start .notANumber))
  | v :: rest => match v.neg? with
    | none => (m, .error (m.failure c start .notANumber))
    | some w => ({ m with stack := w :: rest }, .ok .next)

/-- Halts with the top of the stack, or nil. -/
def halt (m : Machine) : Machine × Except Fault Control :=
  ({ m with result := m.stack.headD .nil, stack := m.stack.tail, halted := true }, .ok .halt)

def execute (m : Machine) (c : Chunk) (op : Opcode) (start : Int) :
    Machine × Except Fault Control :=
  let m := { m with ip := some (start + 1) }
  match op with
  | .constant => m.pushConstant c start
  | .negate => m.negateTop c start
  | .ret => m.halt

/-- Executes one instruction. A halted machine stays as it is. -/
def step (m : Machine) (c : Chunk) : Machine × Except Fault Control :=
  let start := m.offset
  let m := { m with ip := some start }
  if m.halted then (m, .ok .halt)
  else if c.size ≤ start then (m, .error (m.failure c start .endOfCode))
  else match c.opcodeAt start with
    | .error f => (m, .error (m.wrap c start f))
    | .ok op => match m.event? c start with
      | .error f => (m, .error (m.wrap c start f))
      | .ok e => (m.record e).execute c op start

/-- A step after which the machine goes on was taken inside of the code and leads forward. -/
theorem step_next {m m' : Machine} {c : Chunk} (h : m.step c = (m', .ok .next)) :
    m.offset < c.size ∧ m.offset < m'.offset := by
  simp only [step] at h
  split at h
  · simp at h
  split at h
  · simp at h
  split at h
  · simp at h
  split at h
  · simp at h
  next hsize _ op _ _ e _ =>
  refine ⟨by omega, ?_⟩
  cases op
  · simp [execute, halt] at h
  · simp only [execute, negateTop] at h
    split at h
    · simp at h
    split at h
    · simp at h
    · simp only [Prod.mk.injEq, and_true] at h
      subst h
      simp only [offset, Option.getD_some]
      omega
  · simp only [execute, pushConstant] at h
    split at h
    · simp at h
    split at h
    · simp at h
    split at h
    · simp at h
    · simp only [Prod.mk.injEq, and_true] at h
      subst h
      simp only [offset, Option.getD_some]
      omega

/-- Executes instructions until the machine halts. -/
def run (m : Machine) (c : Chunk) : Machine × Except Fault Value :=
  match h : m.step c with
  | (m', .ok .next) =>
    have := step_next h
    run m' c
  | (m', .ok .halt) => (m', .ok m'.result)
  | (m', .error f) => (m', .error f)
termination_by (c.size - m.offset).toNat

end Machine

/-- An event as traces show it: the stack on a line of its own, then the listing's entry. -/
def renderTrace (text : Str) (stack : List Value) : Except Fault Str := do
  let shown ← stack.mapM Value.display
  let line : Str := shown.flatMap fun s => "[ " ++ s ++ " ]"
  return "          " ++ line ++ "\n" ++ text

def Event.render (e : Event) : Except Fault Str := renderTrace e.text e.stack

end LoxMachine
