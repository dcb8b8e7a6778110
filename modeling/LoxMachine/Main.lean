import LoxMachine.CommandLine

/-!
# The program

Reads the arguments, the file that they name, and prints what the command line answers.
-/

namespace LoxMachine.CommandLine

/-- What the system says about a file that it cannot open. Its numbers may come negated. -/
def systemError (number : UInt32) (text : String) : OpenError :=
  match number.toInt32.toInt.natAbs with
  | 2 => .missing
  | 20 => .notDirectory
  | 21 => .isDirectory
  | n => ⟨n, text⟩

def openError : IO.Error → OpenError
  | .noFileOrDirectory .. => .missing
  | .inappropriateType _ number text | .permissionDenied _ number text => systemError number text
  | e => ⟨5, toString e⟩

def readFile (path : String) : BaseIO (Except OpenError ByteArray) := do
  match ← (IO.FS.readBinFile path).toBaseIO with
  | .ok content => return .ok content
  | .error e => return .error (openError e)

/-- Prints an outcome and returns its exit status. -/
def deliver (o : Outcome) : IO UInt32 := do
  (← IO.getStdout).putStr o.stdout
  (← IO.getStderr).putStr o.stderr
  match o.status with
  | .exit code => return UInt32.ofNat code
  | .raised f =>
    IO.eprintln (f.message?.getD "the file cannot be handled")
    return 1

end LoxMachine.CommandLine

open LoxMachine.CommandLine in
def main (args : List String) : IO UInt32 := do
  match readArguments args with
  | .error s => deliver s.outcome
  | .ok c => deliver (c.perform (← readFile (String.ofList c.path.toChars)))
