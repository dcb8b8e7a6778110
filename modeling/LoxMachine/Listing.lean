import LoxMachine.Chunk
import LoxMachine.Value.Constant

/-!
# Listings

A listing shows one entry per instruction: its offset, its line, and the mnemonic with, for a
constant, the index and the constant's displayed text.

    == name ==
    0000    1 OP_CONSTANT      0000 1
    0002    | OP_NEGATE
    0003    2 OP_RETURN

A line number that the byte before has too is shown by a bar. A byte that is no tag, and an
instruction cut short by the end of the code, are illegal; their entry covers the rest.

Lines of more than `Numeral.maxDigits` digits are written out like all others. No file gives them
to a chunk, and that the conversion of such a number is refused is not modelled.
-/

namespace LoxMachine.Listing

/-! ## Entries -/

inductive Body where
  | illegal
  | plain (op : Opcode)
  | constant (index : UInt8) (text : Str)
  deriving DecidableEq

structure Entry where
  offset : Int
  /-- The source line, unless it is that of the byte before. -/
  line : Option Int
  body : Body
  /-- The offset of the next instruction. -/
  next : Int
  deriving DecidableEq

/-- The line to show at an offset. The first byte has none before it. -/
def shownLine (c : Chunk) (offset : Int) : Except Fault (Option Int) := do
  let line ← c.lineAt offset
  if 0 < offset then
    let previous ← c.lineAt (offset - 1)
    return if line = previous then none else some line
  else return some line

def constantBody (c : Chunk) (offset : Int) : Except Fault Body := do
  let index ← c.byteAt (offset + 1)
  return .constant index (← (← c.constantAt index.toNat).display)

/-- The entry of the instruction at an offset. -/
def entry (c : Chunk) (offset : Int) : Except Fault Entry := do
  let line ← shownLine c offset
  let byte ← c.byteAt offset
  match Opcode.ofByte? byte with
  | none => return ⟨offset, line, .illegal, c.size⟩
  | some op =>
    if offset + op.width > c.size then return ⟨offset, line, .illegal, c.size⟩
    else if op = .constant then return ⟨offset, line, ← constantBody c offset, offset + op.width⟩
    else return ⟨offset, line, .plain op, offset + op.width⟩

/-! ## Text -/

def lineColumn : Option Int → String
  | none => "   |"
  | some line => String.ofList ((Numeral.ofInt line).leftpad 4 ' ')

def Body.text : Body → Str
  | illegal => "Illegal Instruction"
  | plain op => op.mnemonic
  | constant index text =>
    let operation := String.ofList (Opcode.constant.mnemonic.toList.rightpad 16 ' ') ++ " " ++
      writtenOffset index.toNat ++ " "
    operation ++ text

def Entry.text (e : Entry) : Str :=
  let place := writtenOffset e.offset ++ " " ++ lineColumn e.line ++ " "
  place ++ e.body.text

/-! ## Whole chunks -/

/-- What an entry shows, and where it leads: an illegal one to the end of the code. -/
theorem entry_cases {c : Chunk} {offset : Int} {e : Entry} (h : entry c offset = .ok e) :
    e.offset = offset ∧ (e.body = .illegal ∧ e.next = c.size ∨ ∃ op, e.next = offset + op.width ∧
      (e.body = .plain op ∨ constantBody c offset = .ok e.body)) := by
  simp only [entry, bind, Except.bind, pure, Except.pure] at h
  split at h <;> try contradiction
  split at h <;> try contradiction
  split at h
  · cases h
    exact ⟨rfl, .inl ⟨rfl, rfl⟩⟩
  · next op _ =>
    split at h
    · cases h
      exact ⟨rfl, .inl ⟨rfl, rfl⟩⟩
    · split at h
      · split at h <;> try contradiction
        next hbody =>
        cases h
        exact ⟨rfl, .inr ⟨op, rfl, .inr hbody⟩⟩
      · cases h
        exact ⟨rfl, .inr ⟨op, rfl, .inl rfl⟩⟩

/-- Each entry leads on. -/
theorem lt_next {c : Chunk} {offset : Int} {e : Entry} (h : entry c offset = .ok e)
    (hlt : offset < c.size) : offset < e.next := by
  obtain ⟨-, ⟨-, hnext⟩ | ⟨op, hnext, -⟩⟩ := entry_cases h
  · rwa [hnext]
  · have := op.width_pos
    omega

/-- The entries from an offset to the end of the code. -/
def entriesFrom (c : Chunk) (offset : Int) : Except Fault (List Entry) :=
  if hlt : offset < c.size then
    match h : entry c offset with
    | .error f => .error f
    | .ok e =>
      have := lt_next h hlt
      return e :: (← entriesFrom c e.next)
  else .ok []
termination_by (c.size - offset).toNat

def entries (c : Chunk) : Except Fault (List Entry) := entriesFrom c 0

/-- The text of some entries under a header. -/
def render (name : Str) (es : List Entry) : Str :=
  "== " ++ name ++ " ==\n" ++ (es.flatMap fun e => e.text ++ [.char '\n'] : Str)

end LoxMachine.Listing

namespace LoxMachine

/-- The listing of a chunk. -/
def Chunk.listing (c : Chunk) (name : Str) : Except Fault Str :=
  return Listing.render name (← Listing.entries c)

end LoxMachine
