import LoxMachine.Number.Numeral
import LoxMachine.Number.Shortest

/-!
# The written form of a number

The shortest digits are set out positionally while the leading digit's exponent is from -4 to
15, with `.0` after a whole number; outside of that range scientifically, with a signed exponent
of at least two digits: `100.0`, `0.0001`, `1e-05`, `1.5e+16`. Any decimal text is read.
-/

namespace LoxMachine

/-- The words for what has no digits. -/
structure Binary64.Words where
  nan : List Char
  infinity : List Char

namespace Decimal

/-- The exponent of the leading digit. -/
def leading (d : Decimal) : Int := (Numeral.ofNat d.digits).length - 1 + d.exponent

def positional (d : Decimal) : List Char :=
  let digits := Numeral.ofNat d.digits
  if 0 ≤ d.exponent then digits ++ List.replicate d.exponent.toNat '0' ++ ['.', '0']
  else if 0 ≤ d.leading then
    let whole := digits.length - (-d.exponent).toNat
    digits.take whole ++ '.' :: digits.drop whole
  else '0' :: '.' :: List.replicate (-d.leading - 1).toNat '0' ++ digits

def scientific (d : Decimal) : List Char :=
  let mantissa := match Numeral.ofNat d.digits with
    | [] => []
    | [c] => [c]
    | c :: cs => c :: '.' :: cs
  let sign := if d.leading < 0 then '-' else '+'
  mantissa ++ 'e' :: sign :: Numeral.padded 2 d.leading.natAbs

def written (d : Decimal) : List Char :=
  if -4 ≤ d.leading ∧ d.leading < 16 then d.positional else d.scientific

end Decimal

namespace Binary64

/-- The words of the display form. -/
def displayWords : Words := ⟨['n', 'a', 'n'], ['i', 'n', 'f']⟩

/-- The written form: a sign, if negative, and the shortest digits or a word. -/
def written (words : Words) : Binary64 → List Char
  | .finite negative rank =>
    (if negative then ['-'] else []) ++ (Shortest.shortest rank).written
  | .infinite negative => (if negative then ['-'] else []) ++ words.infinity
  | .nan => words.nan

end Binary64

/-! ## Reading -/

/-- Takes a sign off the start of a text; true stands for minus. -/
def takeSign : List Char → Bool × List Char
  | '-' :: r => (true, r)
  | '+' :: r => (false, r)
  | s => (false, s)

/-- A signed exponent, which takes up the whole text. -/
def readExponent? (s : List Char) : Option Int :=
  let (negative, digits) := takeSign s
  if digits = [] ∨ !digits.all Numeral.isDigit then none
  else some (if negative then -(Numeral.toNat digits : Int) else Numeral.toNat digits)

/-- Reads digits with at most one point among them, and an exponent if there is one. -/
def Decimal.read? (s : List Char) : Option Decimal := do
  let (whole, rest) := Numeral.spanDigits s
  let (fraction, rest) := match rest with
    | '.' :: r => Numeral.spanDigits r
    | r => ([], r)
  let exponent ← match rest with
    | [] => some 0
    | c :: r => if c = 'e' ∨ c = 'E' then readExponent? r else none
  if whole = [] ∧ fraction = [] then none
  else some ⟨Numeral.toNat (whole ++ fraction), exponent - fraction.length⟩

/-- Reads a number in any notation. -/
def Binary64.read? (words : Binary64.Words) (s : List Char) : Option Binary64 :=
  let (negative, r) := takeSign s
  if r = words.infinity then some (.infinite negative)
  else if r = words.nan then some .nan
  else (Decimal.read? r).map fun d => d.toBinary64 negative

end LoxMachine
