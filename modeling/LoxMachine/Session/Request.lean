import LoxMachine.Cursor
import LoxMachine.Machine

/-!
# Requests and replies

What a session can be asked for, and what it answers. Chunks, cursors and machines go by the
numbers that they got when they were made.
-/

namespace LoxMachine.Session

/-! ## Requests -/

inductive ChunkRequest where
  | state
  | write (byte line : Int)
  /-- Writes all bytes, over and over. -/
  | writeMany (bytes : List Int) (line : Int) (times : Nat)
  | pushConstant (v : Value)
  | constantAt (index : Int)
  | lineAt (offset : Int)
  | byteAt (offset : Int)
  /-- Assembles one instruction as if it stood in the given line of a text. -/
  | appendOperand (op : Opcode) (operand : String) (line textLine : Int)
  | listing (name : Str)
  | entry (offset : Int)
  | save (name : Str)
  | cursor
  | cursorAt (offset : Int)
  | machine (name : Str) (tracing : Bool)

inductive CursorRequest where
  | state
  | opcode
  | byte
  | line
  | advance (distance : Int)
  /-- The number of the cursor's chunk. -/
  | owner

inductive MachineRequest where
  | state
  | push (v : Value)
  /-- Moves the machine's own cursor. -/
  | advance (distance : Int)
  | step
  | run
  | takeEvents

inductive Request where
  | newChunk
  | assemble (lines : List String)
  | loadAssembly (bytes : ByteArray)
  | loadDocument (bytes : ByteArray)
  | onChunk (chunk : Nat) (r : ChunkRequest)
  | onCursor (cursor : Nat) (r : CursorRequest)
  | onMachine (machine : Nat) (r : MachineRequest)

/-! ## Replies -/

/-- A string for readers that know characters only: surrogates are replaced. -/
def told (s : Str) : String :=
  String.ofList <| s.map fun
    | .char c => c
    | .surrogate _ => '\ufffd'

instance : Coe Str String := ⟨told⟩

inductive Reply where
  | newChunk (number : Nat) (c : Chunk) (name : Option Str)
  | newCursor (number : Nat) (k : Cursor)
  | newMachine (number : Nat) (m : Machine)
  | chunk (c : Chunk)
  | cursor (k : Cursor)
  | machine (m : Machine)
  /-- A size, an index or a number. -/
  | count (n : Nat)
  | line (l : Int)
  | byte (b : UInt8)
  | opcode (op : Opcode)
  | value (v : Value)
  | text (s : Str)
  | entry (e : Listing.Entry)
  | control (t : Control) (m : Machine)
  | result (v : Value) (m : Machine)
  /-- The events with their formatted text. -/
  | events (es : List (Event × Str))

inductive Refusal where
  /-- Nothing in the session goes by that number. -/
  | noSuchHandle
  | fault (f : Fault)
  /-- A machine's step or run failed, and left the machine so. -/
  | stopped (f : Fault) (m : Machine)

end LoxMachine.Session
