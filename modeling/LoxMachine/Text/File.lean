import LoxMachine.Text.Utf8

/-!
# Text files

A file's bytes are UTF-8, without exceptions. Each carriage return, with the line feed that
follows it if there is one, is read as a line feed, and only line feeds end lines.

Bytes are read in blocks. The first byte that does not fit spoils its block, and a file that ends
inside a character is read up to there; whoever reads line by line has the lines that are over by
then.
-/

namespace LoxMachine.Text

/-! ## Lines -/

/-- Reads `\r\n` and `\r` as `\n`. -/
def unifyLineEnds : List Char → List Char
  | '\r' :: '\n' :: r => '\n' :: unifyLineEnds r
  | '\r' :: r => '\n' :: unifyLineEnds r
  | c :: r => c :: unifyLineEnds r
  | [] => []

/-- The lines of a text without their line feeds. A line feed at the end of the text ends its
last line and starts no other. -/
def lines : List Char → List (List Char)
  | [] => []
  | '\n' :: r => [] :: lines r
  | c :: r => match lines r with
    | [] => [[c]]
    | l :: ls => (c :: l) :: ls

/-- The lines that a line feed ends. -/
def endedLines : List Char → List (List Char)
  | [] => []
  | '\n' :: r => [] :: endedLines r
  | c :: r => match endedLines r with
    | [] => []
    | l :: ls => (c :: l) :: ls

/-- The lines that are over before a text breaks off. A carriage return at its end may still have
its line feed to come and ends none. -/
def linesBeforeBreak (text : List Char) : List (List Char) :=
  endedLines (unifyLineEnds (if text.getLast? = some '\r' then text.dropLast else text))

/-! ## Files -/

/-- What the content of a file says. -/
inductive Content where
  | text (whole : List Char)
  /-- Content that is not UTF-8: the text of the blocks before that shows. -/
  | broken (before : List Char)
  deriving DecidableEq

/-- The number of bytes read at once. -/
def blockSize : Nat := 8192

/-- The first byte that does not fit lies in a block; the blocks before that one are decoded. -/
def Content.ofBytes (bytes : ByteArray) : Content :=
  let bytes := bytes.data.toList
  match Utf8.between.run bytes with
  | some (.between, whole) => .text (unifyLineEnds whole)
  | some (.inside .., before) => .broken before
  | none =>
    let blocks := Utf8.between.fitting bytes / blockSize
    match Utf8.between.run (bytes.take (blocks * blockSize)) with
    | some (_, before) => .broken before
    | none => .broken []

end LoxMachine.Text
