import LoxMachine.Chunk

/-!
# Cursors

A cursor is an offset into a sealed chunk. It may be moved anywhere; only a look at what stands
there fails outside of the code.
-/

namespace LoxMachine

structure Cursor where
  chunk : Chunk
  isSealed : chunk.isSealed = true
  offset : Int

/-- A cursor at the start of the chunk, which it seals. -/
def Chunk.cursor (c : Chunk) : Cursor := ⟨c.toSealed, rfl, 0⟩

/-- A cursor at any offset of a chunk that is sealed already. -/
def Chunk.cursorAt (c : Chunk) (offset : Int) : Except Fault Cursor :=
  if h : c.isSealed = true then .ok ⟨c, h, offset⟩ else .error (.argument .openChunk)

namespace Cursor

def atEnd (k : Cursor) : Bool := k.chunk.size ≤ k.offset

def line (k : Cursor) : Except Fault Int := k.chunk.lineAt k.offset

def opcode (k : Cursor) : Except Fault Opcode := k.chunk.opcodeAt k.offset

def byte (k : Cursor) : Except Fault UInt8 := k.chunk.byteAt k.offset

def advance (k : Cursor) (distance : Int) : Cursor := { k with offset := k.offset + distance }

def summary (k : Cursor) : String :=
  "BoundCursor(offset=" ++ String.ofList (Numeral.ofInt k.offset) ++ ")"

end Cursor

/-- A cursor that points nowhere, the state of a machine that has not started. -/
structure UnboundCursor where
  deriving DecidableEq

namespace UnboundCursor

def isBound (_ : UnboundCursor) : Bool := false

/-- Looks up a member by its name. There is none besides whether the cursor is bound. -/
def member (k : UnboundCursor) (name : String) : Except Fault Bool :=
  if name = "is_bound" then .ok k.isBound else .error .unbound

def summary (_ : UnboundCursor) : String := "UnboundCursor()"

end UnboundCursor
end LoxMachine
