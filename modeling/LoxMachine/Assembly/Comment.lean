/-!
# Comments

A comment runs from the first `#` outside of quotes to the end of the line. Single and double
quotes open a quotation that the same character closes; inside of one, a backslash takes the
next character with it.
-/

namespace LoxMachine.Assembly

/-- Where a scan stands. -/
inductive Scan where
  | outside
  | inside (quote : Char)
  | escaped (quote : Char)
  deriving DecidableEq

namespace Scan

/-- Where the scan stands after one more character. -/
def next : Scan → Char → Scan
  | outside, c => if c = '"' ∨ c = '\'' then inside c else outside
  | inside quote, c =>
    if c = '\\' then escaped quote else if c = quote then outside else inside quote
  | escaped quote, _ => inside quote

/-- Where the scan of a text ends. -/
def run (s : Scan) (text : List Char) : Scan := text.foldl next s

end Scan

/-- What comes before the comment, for a scan that stands at `s`. -/
def beforeCommentFrom (s : Scan) : List Char → List Char
  | [] => []
  | c :: r => if s = .outside ∧ c = '#' then [] else c :: beforeCommentFrom (s.next c) r

def beforeComment (text : List Char) : List Char := beforeCommentFrom .outside text

/-! ## Lemmas -/

theorem beforeCommentFrom_isPrefix (s : Scan) (text : List Char) :
    ∃ rest, text = beforeCommentFrom s text ++ rest := by
  induction text generalizing s with
  | nil => exact ⟨[], rfl⟩
  | cons c r ih =>
    unfold beforeCommentFrom
    split
    · exact ⟨c :: r, rfl⟩
    · obtain ⟨rest, h⟩ := ih (s.next c)
      exact ⟨rest, congrArg (c :: ·) h⟩

end LoxMachine.Assembly
