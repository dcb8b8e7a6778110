/-!
# Blanks

The characters that separate words: tabs, line ends and the four information separators, and
the spaces and line separators of Unicode. The zero-width characters U+200B and U+FEFF are none.
-/

namespace LoxMachine.Text

def isBlank (c : Char) : Bool :=
  let n := c.toNat
  (9 ≤ n && n ≤ 13) || (28 ≤ n && n ≤ 32) || n == 0x85 || n == 0xa0 || n == 0x1680 ||
    (0x2000 ≤ n && n ≤ 0x200a) || n == 0x2028 || n == 0x2029 || n == 0x202f || n == 0x205f ||
    n == 0x3000

def skipBlanks (s : List Char) : List Char := s.dropWhile isBlank

/-- Drops the blanks at both ends. -/
def strip (s : List Char) : List Char := (skipBlanks (skipBlanks s).reverse).reverse

/-- Splits at the first blank. -/
def spanWord (s : List Char) : List Char × List Char :=
  (s.takeWhile (!isBlank ·), s.dropWhile (!isBlank ·))

/-! ## Lemmas -/

theorem spanWord_append (s : List Char) : (spanWord s).1 ++ (spanWord s).2 = s :=
  List.takeWhile_append_dropWhile

end LoxMachine.Text
