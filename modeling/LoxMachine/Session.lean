import LoxMachine.Assembly
import LoxMachine.Document
import LoxMachine.Session.Request

/-!
# Sessions

A session keeps chunks, the cursors taken from them and the machines that execute them. Cursors
and machines belong to a chunk; a machine's first step seals its chunk. A request that fails
leaves the session as it was, up to what a failed step moves and what a failed series of writes
has written.
-/

namespace LoxMachine

structure Session where
  chunks : Array Chunk := #[]
  /-- Each with the number of its chunk. -/
  cursors : Array (Nat × Cursor) := #[]
  machines : Array (Nat × Machine) := #[]
  deriving Inhabited

namespace Session

abbrev Answer := Except Refusal Reply

def refuse (f : Fault) : Answer := .error (.fault f)

def answer {α : Type} (reply : α → Reply) : Except Fault α → Answer
  | .ok a => .ok (reply a)
  | .error f => refuse f

/-! ## Chunks -/

/-- Writes bytes until one cannot be written. -/
def writeAll (c : Chunk) (line : Int) : List Int → Chunk × Except Fault Unit
  | [] => (c, .ok ())
  | byte :: rest => match c.write byte line with
    | .ok c => writeAll c line rest
    | .error f => (c, .error f)

def addChunk (s : Session) (name : Option Str) (c : Chunk) : Session × Answer :=
  ({ s with chunks := s.chunks.push c }, .ok (.newChunk s.chunks.size c name))

def addCursor (s : Session) (chunk : Nat) (k : Cursor) : Session × Answer :=
  ({ s with cursors := s.cursors.push (chunk, k) }, .ok (.newCursor s.cursors.size k))

def addMachine (s : Session) (chunk : Nat) (m : Machine) : Session × Answer :=
  ({ s with machines := s.machines.push (chunk, m) }, .ok (.newMachine s.machines.size m))

def setChunk (s : Session) (chunk : Nat) (c : Chunk) : Session :=
  { s with chunks := s.chunks.setIfInBounds chunk c }

/-- Keeps a changed chunk and replies, or keeps all as it is. -/
def update (s : Session) (chunk : Nat) (reply : Chunk → Reply) :
    Except Fault Chunk → Session × Answer
  | .ok c => (s.setChunk chunk c, .ok (reply c))
  | .error f => (s, refuse f)

def onChunk (s : Session) (chunk : Nat) (c : Chunk) : ChunkRequest → Session × Answer
  | .state => (s, .ok (.chunk c))
  | .write byte line => s.update chunk (fun c => .count c.size) (c.write byte line)
  | .writeMany bytes line times =>
    let (c, outcome) := writeAll c line (List.replicate times bytes).flatten
    (s.setChunk chunk c, answer (fun _ => .count c.size) outcome)
  | .pushConstant v => s.update chunk (fun _ => .count c.constants.size) (c.pushConstant v)
  | .constantAt index => (s, answer .value (c.constantAt index))
  | .lineAt offset => (s, answer .line (c.lineAt offset))
  | .byteAt offset => (s, answer .byte (c.byteAt offset))
  | .appendOperand op operand line textLine =>
    s.update chunk .chunk
      ((Assembly.appendOperand c op operand.toList line).mapError (·.atLine textLine))
  | .listing name => (s, answer .text (c.listing name))
  | .entry offset => (s, answer .entry (Listing.entry c offset))
  | .save name => (s, .ok (.text (Document.text ⟨name, c⟩)))
  | .cursor => (s.setChunk chunk c.toSealed).addCursor chunk c.cursor
  | .cursorAt offset => match c.cursorAt offset with
    | .ok k => s.addCursor chunk k
    | .error f => (s, refuse f)
  | .machine name tracing => s.addMachine chunk { name, tracing }

/-! ## Cursors -/

def onCursor (s : Session) (cursor chunk : Nat) (k : Cursor) : CursorRequest → Session × Answer
  | .state => (s, .ok (.cursor k))
  | .opcode => (s, answer .opcode k.opcode)
  | .byte => (s, answer .byte k.byte)
  | .line => (s, answer .line k.line)
  | .advance distance =>
    let k := k.advance distance
    ({ s with cursors := s.cursors.setIfInBounds cursor (chunk, k) }, .ok (.cursor k))
  | .owner => (s, .ok (.count chunk))

/-! ## Machines -/

def setMachine (s : Session) (machine chunk : Nat) (m : Machine) : Session :=
  { s with machines := s.machines.setIfInBounds machine (chunk, m) }

/-- The reply to a step or a run that leaves the machine so. -/
def outcome {α : Type} (m : Machine) (reply : α → Machine → Reply) : Except Fault α → Answer
  | .ok a => .ok (reply a m)
  | .error f => .error (.stopped f m)

def onMachine (s : Session) (machine chunk : Nat) (c : Chunk) (m : Machine) :
    MachineRequest → Session × Answer
  | .state => (s, .ok (.machine m))
  | .push v =>
    let m := { m with stack := v :: m.stack }
    (s.setMachine machine chunk m, .ok (.machine m))
  | .advance distance => match m.ip with
    | none => (s, refuse .unbound)
    | some offset =>
      let m := { m with ip := some (offset + distance) }
      (s.setMachine machine chunk m, .ok (.machine m))
  | .step =>
    let c := c.toSealed
    let (m, result) := m.step c
    ((s.setChunk chunk c).setMachine machine chunk m, outcome m .control result)
  | .run =>
    let c := c.toSealed
    let (m, result) := m.run c
    ((s.setChunk chunk c).setMachine machine chunk m, outcome m .result result)
  | .takeEvents =>
    let (m, events) := m.takeEvents
    (s.setMachine machine chunk m,
      answer .events (events.toList.mapM fun e => return (e, ← e.render)))

/-! ## Requests -/

def perform (s : Session) : Request → Session × Answer
  | .newChunk => s.addChunk none {}
  | .assemble lines => match Assembly.assemble (lines.map String.toList) with
    | .ok c => s.addChunk none c
    | .error f => (s, refuse f)
  | .loadAssembly bytes => match Assembly.ofBytes bytes with
    | .ok c => s.addChunk none c
    | .error f => (s, refuse f)
  | .loadDocument bytes => match Document.ofBytes bytes with
    | .ok d => s.addChunk (some d.name) d.chunk
    | .error f => (s, refuse f)
  | .onChunk chunk r => match s.chunks[chunk]? with
    | some c => s.onChunk chunk c r
    | none => (s, .error .noSuchHandle)
  | .onCursor cursor r => match s.cursors[cursor]? with
    | some (chunk, k) => s.onCursor cursor chunk k r
    | none => (s, .error .noSuchHandle)
  | .onMachine machine r => match s.machines[machine]? with
    | some (chunk, m) => s.onMachine machine chunk (s.chunks.getD chunk {}) m r
    | none => (s, .error .noSuchHandle)

/-- Performs requests in order; one that fails does not stop the rest. -/
def performAll (s : Session) : List Request → Session × List Answer
  | [] => (s, [])
  | r :: rest =>
    let (s, a) := s.perform r
    let (s, as) := s.performAll rest
    (s, a :: as)

end Session
end LoxMachine
