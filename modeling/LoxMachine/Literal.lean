import LoxMachine.Json.Reader
import LoxMachine.Text.Blank
import LoxMachine.Value.Constant

/-!
# Literals

A literal is `nil`, a JSON value that is a constant, or a string between single quotes in which
only `\'` is an escape. Whole numbers become binary64 numbers.
-/

namespace LoxMachine

namespace Literal

/-- Reads each `\'` as a quote, from left to right. -/
def unescape : List Char → List Char
  | '\\' :: '\'' :: r => '\'' :: unescape r
  | c :: r => c :: unescape r
  | [] => []

/-- The text between two single quotes at the ends of a token. -/
def betweenQuotes? : List Char → Option (List Char)
  | '\'' :: r => if r.getLast? = some '\'' then some r.dropLast else none
  | _ => none

/-- Reads a token without blanks at its ends. -/
def ofToken (token : List Char) : Except Fault Value :=
  if token = [] then .error (.argument .emptyLiteral)
  else if token = ['n', 'i', 'l'] then .ok .nil
  else match betweenQuotes? token with
    | some s => .ok (.str (.ofChars (unescape s)))
    | none => match Json.read token with
      | .ok v => v.toConstant
      | .error (.badSyntax _) => .error (.argument (.notLiteral (String.ofList token)))
      | .error (.tooManyDigits count) => .error (.argument (.tooManyDigits count))

def read (text : List Char) : Except Fault Value := ofToken (Text.strip text)

end Literal
end LoxMachine
