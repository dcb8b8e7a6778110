import LoxMachine.Text.DecimalDigit

/-!
# Decimal numerals

Integers are written with the digits of `Nat.toDigits 10`, after a minus sign when negative.
`padded` puts zeros between sign and digits; the sign counts towards the width. `read?` is more
generous: it takes a sign, the digits of any script, and single underscores between digits.
-/

namespace LoxMachine.Numeral

/-- The most digits that a text read as an integer may have; longer ones are refused. -/
def maxDigits : Nat := 4300

/-! ## Writing -/

def ofNat (n : Nat) : List Char := Nat.toDigits 10 n

def ofInt (i : Int) : List Char :=
  if i < 0 then '-' :: ofNat i.natAbs else ofNat i.natAbs

/-- At least `width` characters: zeros fill the place between the sign and the digits. -/
def padded (width : Nat) (i : Int) : List Char :=
  if i < 0 then '-' :: (ofNat i.natAbs).leftpad (width - 1) '0'
  else (ofNat i.natAbs).leftpad width '0'

/-! ## Reading -/

def isDigit (c : Char) : Bool := '0' ≤ c && c ≤ '9'

/-- The number that a run of ASCII digits stands for. -/
def toNat (digits : List Char) : Nat := Nat.ofDigitChars 10 digits 0

/-- Splits off the longest run of ASCII digits. -/
def spanDigits (s : List Char) : List Char × List Char := (s.takeWhile isDigit, s.dropWhile isDigit)

/-- The values of a run of digits of any script, single underscores between them left out. -/
def scriptDigits? : List Char → Option (List Nat)
  | [] => none
  | c :: r => do
    let d ← Text.digitValue? c
    match r with
    | [] => return [d]
    | '_' :: r => return d :: (← scriptDigits? r)
    | r => return d :: (← scriptDigits? r)

def unsigned? (s : List Char) : Option Nat := do
  let digits ← scriptDigits? s
  if maxDigits < digits.length then none
  else return digits.foldl (fun n d => 10 * n + d) 0

/-- Reads an integer. -/
def read? : List Char → Option Int
  | '-' :: r => (unsigned? r).map fun n => -(n : Int)
  | '+' :: r => (unsigned? r).map fun n => (n : Int)
  | s => (unsigned? s).map fun n => (n : Int)

/-! ## Lemmas -/

theorem toNat_ofNat (n : Nat) : toNat (ofNat n) = n := by
  simp [toNat, ofNat, Nat.ofDigitChars_toDigits]

theorem ofNat_ne_nil (n : Nat) : ofNat n ≠ [] := by
  simp [ofNat]

end LoxMachine.Numeral
