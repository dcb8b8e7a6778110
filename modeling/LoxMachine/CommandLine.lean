import LoxMachine.Assembly
import LoxMachine.CommandLine.Arguments
import LoxMachine.CommandLine.FileTree
import LoxMachine.Document
import LoxMachine.Machine

/-!
# The command line

`disasm` prints the listing of a file's chunk, `run` executes it and prints the result. A file
whose name ends in `.json` is a document, any other an assembly text. All that a command does
after its file has been read is a function of the file's content, `Command.perform`.

    status 0    the listing or the result is printed
    status 1    the file cannot be loaded, or its bytecode listed or executed
    status 2    the arguments are wrong

The output is UTF-8. A string that has a surrogate is refused there, which no command answers for;
on the error stream surrogates are escaped. Arguments and the names of files have characters only.
-/

namespace LoxMachine.CommandLine

/-! ## Outcomes -/

inductive Status where
  | exit (code : Nat)
  /-- A fault that no command answers for. -/
  | raised (f : Fault)
  deriving DecidableEq

structure Outcome where
  status : Status
  stdout : String := ""
  stderr : String := ""
  deriving DecidableEq

def Stop.outcome : Stop → Outcome
  | help l => { status := .exit 0, stdout := l.help }
  | wrong l e =>
    { status := .exit 2, stderr := l.usage ++ l.program ++ ": error: " ++ e.message ++ "\n" }

/-! ## Output -/

/-- What the output takes of some strings, and the first that it does not take. -/
def write : List Str → String × Option Str
  | [] => ("", none)
  | s :: rest => match s.chars? with
    | none => ("", some s)
    | some cs =>
      let (out, refused) := write rest
      (String.ofList cs ++ out, refused)

/-- The strings that a command writes, one after the other, and how it ends if all of them are
taken. -/
structure Script where
  texts : List Str := []
  status : Status
  stderr : String := ""
  deriving DecidableEq

/-- A string that is not taken is a fault, and nothing comes after it. -/
def Script.play (s : Script) : Outcome :=
  match write s.texts with
  | (out, none) => { status := s.status, stdout := out, stderr := s.stderr }
  | (out, some refused) => { status := .raised (.argument (.unencodable refused)), stdout := out }

/-- A line is written without its line feed first. -/
def line (s : Str) : List Str := [s, "\n"]

namespace Command

/-! ## Loading -/

def path (c : Command) : Path := .ofChars c.file.toList

/-- The chunk of a file and the name that it goes by. -/
def load (p : Path) (content : ByteArray) : Except Fault (Str × Chunk) :=
  if p.suffix = ".json".toList then do
    let d ← Document.ofBytes content
    return (d.name, d.chunk)
  else return (.ofChars p.stem, ← Assembly.ofBytes content)

/-- A failure to load, list or execute, after some strings have been written: faults of the bytecode
are reported, others raised. -/
def report (c : Command) (what : String) (texts : List Str) : Fault → Script
  | .bytecode cause =>
    { texts, status := .exit 1, stderr := what ++ " " ++ c.file ++ ": " ++ cause.message ++ "\n" }
  | .runtime e =>
    { texts
      status := .exit 1
      stderr := s!"[line {e.frame.line}] in " ++ Text.unquoted e.frame.function ++ "\n" ++
        s!"Runtime error: {e.message}\n" }
  | f => { texts, status := .raised f }

/-! ## Performing -/

/-- The name in listings and tracebacks; an empty one is none. -/
def nameOr (c : Command) (stored : Str) : Str :=
  match c.name with
  | some name => if name = "" then stored else name
  | none => stored

/-- The lines of a trace, up to an event that cannot be shown. -/
def trace : List Event → List Str × Except Fault Unit
  | [] => ([], .ok ())
  | e :: rest => match e.render with
    | .error f => ([], .error f)
    | .ok text =>
      let (texts, outcome) := trace rest
      (line text ++ texts, outcome)

/-- Executes a chunk; `texts` have been written before. -/
def runChunk (c : Command) (name : Str) (chunk : Chunk) (tracing : Bool) (texts : List Str) :
    Script :=
  let (m, result) := ({ name, tracing } : Machine).run chunk.toSealed
  let (traced, outcome) := trace m.events.toList
  let texts := texts ++ traced
  match outcome.bind fun _ => result.bind Value.display with
  | .error f => c.report "Malformed bytecode in" texts f
  | .ok text => { texts := texts ++ line text, status := .exit 0 }

def performOn (c : Command) (name : Str) (chunk : Chunk) : Script :=
  match c.action with
  | .disasm => match chunk.listing name with
    | .ok text => { texts := [text], status := .exit 0 }
    | .error f => c.report "Malformed bytecode in" [] f
  | .run tracing false => c.runChunk name chunk tracing []
  | .run tracing true => match chunk.listing name with
    | .ok text => c.runChunk name chunk tracing [text]
    | .error f => c.report "Malformed bytecode in" [] f

/-- Performs a command on the content of its file. -/
def perform (c : Command) (content : Except OpenError ByteArray) : Outcome :=
  if c.file.toList.contains '\x00' then { status := .raised (.argument .nullInPath) }
  else match content with
    | .error e =>
      let shown := Text.quoted (.ofChars c.path.toChars)
      { status := .exit 1
        stderr := s!"Failed to load {c.file}: [Errno {e.number}] {e.text}: " ++ shown ++ "\n" }
    | .ok bytes => match load c.path bytes with
      | .error f => (c.report "Failed to load" [] f).play
      | .ok (name, chunk) => (c.performOn (c.nameOr name) chunk).play

end Command

/-- What the program does in a file tree. -/
def respond (files : FileTree) (args : List String) : Outcome :=
  match readArguments args with
  | .error s => s.outcome
  | .ok c => c.perform (files.read c.path)

end LoxMachine.CommandLine
