/-!
# Upper case

Characters whose upper case is ASCII: the letters `a` to `z`, and a few letters and ligatures
outside of ASCII that some of them come from. All others are kept, so a word is an ASCII word
in capitals after `toUpper` only if its full upper case is.
-/

namespace LoxMachine.Text

/-- The letters outside of ASCII whose upper case is ASCII. -/
def upperSpecials : List (Nat × List Char) :=
  [(0xdf, ['S', 'S']), (0x131, ['I']), (0x17f, ['S']), (0xfb00, ['F', 'F']), (0xfb01, ['F', 'I']),
   (0xfb02, ['F', 'L']), (0xfb03, ['F', 'F', 'I']), (0xfb04, ['F', 'F', 'L']),
   (0xfb05, ['S', 'T']), (0xfb06, ['S', 'T'])]

def upperChar (c : Char) : List Char :=
  if c.toNat < 128 then [c.toUpper] else (upperSpecials.lookup c.toNat).getD [c]

def toUpper (s : List Char) : List Char := s.flatMap upperChar

end LoxMachine.Text
