/-!
# UTF-8

A character takes one to four bytes. The first one tells how many follow and gives the highest
bits, each later one has six bits more. The bounds of the second byte see to it that no character
has a longer form than it needs and that none lies above U+10FFFF:

    first      second     then
    00 - 7f
    c2 - df    80 - bf
    e0         a0 - bf    one more
    e1 - ef    80 - bf    one more
    f0         90 - bf    two more
    f1 - f3    80 - bf    two more
    f4         80 - 8f    two more

Every byte after the second is one of 80 - bf. The code points of surrogates are no characters;
one of them is refused when its last byte is there. Bytes are taken one by one, so that the first
one that does not fit is known (`fitting`); all bytes before it can be decoded.
-/

namespace LoxMachine.Text

/-- Where a decoding stands. -/
inductive Utf8 where
  | between
  /-- Inside a character: its bits so far, the bounds of the next byte, and the number of bytes
  after that one. -/
  | inside (bits low high more : Nat)
  deriving DecidableEq

namespace Utf8

/-- Takes the first byte of a character. -/
def first (b : Nat) : Option (Utf8 × List Char) :=
  if b < 0x80 then some (between, [Char.ofNat b])
  else if b < 0xc2 then none
  else if b < 0xe0 then some (inside (b - 0xc0) 0x80 0xbf 0, [])
  else if b = 0xe0 then some (inside 0 0xa0 0xbf 1, [])
  else if b < 0xf0 then some (inside (b - 0xe0) 0x80 0xbf 1, [])
  else if b = 0xf0 then some (inside 0 0x90 0xbf 2, [])
  else if b < 0xf4 then some (inside (b - 0xf0) 0x80 0xbf 2, [])
  else if b = 0xf4 then some (inside 4 0x80 0x8f 2, [])
  else none

/-- Takes a byte, if it fits: where the decoding stands then, and the character that is over. -/
def next : Utf8 → UInt8 → Option (Utf8 × List Char)
  | between, b => first b.toNat
  | inside bits low high more, b =>
    if low ≤ b.toNat ∧ b.toNat ≤ high then
      let bits := 64 * bits + (b.toNat - 0x80)
      match more with
      | 0 => if bits.isValidChar then some (between, [Char.ofNat bits]) else none
      | more + 1 => some (inside bits 0x80 0xbf more, [])
    else none

/-- Takes bytes, if they all fit: where the decoding stands then, and the characters that are
over. -/
def run (s : Utf8) : List UInt8 → Option (Utf8 × List Char)
  | [] => some (s, [])
  | b :: rest => match s.next b with
    | none => none
    | some (s, text) => (s.run rest).map fun (s, more) => (s, text ++ more)

/-- How many bytes fit, from the first one on. -/
def fitting (s : Utf8) : List UInt8 → Nat
  | [] => 0
  | b :: rest => match s.next b with
    | none => 0
    | some (s, _) => s.fitting rest + 1

end Utf8

end LoxMachine.Text
