import LoxMachine.CommandLine.Help
import LoxMachine.Text.DecimalDigit
import LoxMachine.Text.Quoted

/-!
# Arguments

Words that begin with a dash are options, except a lone dash, negative numbers and unknown
words with a space. A long option may be shortened as long as it is told apart, and takes a
value after `=` or from the next word. `--` ends the options.

The words before the command belong to the program, all after it to the command. Each level
knows its words first and then goes through them from left to right; the first fault or call for
help ends the reading. Words that nobody has asked for are reported last.
-/

namespace LoxMachine.CommandLine

/-! ## Requests -/

/-- What a command is to do. -/
inductive Action where
  | disasm
  | run (trace disassemble : Bool)
  deriving DecidableEq

structure Command where
  action : Action
  file : String
  name : Option String
  deriving DecidableEq

inductive ArgumentError where
  | required (what : String)
  | invalidCommand (word : String)
  | ambiguous (word : String) (choices : List Flag)
  | missingValue (f : Flag)
  | needlessValue (f : Flag) (value : String)
  | unrecognized (words : List String)
  deriving DecidableEq

def ArgumentError.message : ArgumentError → String
  | required what => "the following arguments are required: " ++ what
  | invalidCommand word =>
    "argument command: invalid choice: " ++ Text.quoted word ++ " (choose from 'disasm', 'run')"
  | ambiguous word choices =>
    "ambiguous option: " ++ word ++ " could match " ++ ", ".intercalate (choices.map Flag.long)
  | missingValue f => "argument " ++ f.title ++ ": expected one argument"
  | needlessValue f value =>
    "argument " ++ f.title ++ ": ignored explicit argument " ++ Text.quoted value
  | unrecognized words => "unrecognized arguments: " ++ " ".intercalate words

/-- Why there is no command to perform. -/
inductive Stop where
  | help (l : Level)
  | wrong (l : Level) (e : ArgumentError)
  deriving DecidableEq

/-! ## Words -/

inductive Word where
  | plain (s : String)
  /-- The end of the options. -/
  | dashes
  | flag (f : Flag) (value : Option String)
  /-- `-h` with text after it, either directly or behind a `=`. -/
  | shortHelp (text : List Char)
  | unknown (s : String)
  deriving DecidableEq

/-- A dash and a number, with digits after its point if it has one. A line feed at the very end
does not count. -/
def isNegativeNumber : List Char → Bool
  | '-' :: r =>
    let r := if r.getLast? = some '\n' then r.dropLast else r
    let rest := r.dropWhile Text.isDecimalDigit
    match rest with
    | [] => !r.isEmpty
    | '.' :: fraction => !fraction.isEmpty && fraction.all Text.isDecimalDigit
    | _ => false
  | _ => false

/-- The part before the first `=`, and the part after it if there is one. -/
def splitValue (s : List Char) : List Char × Option String :=
  match s.dropWhile (· ≠ '=') with
  | [] => (s, none)
  | _ :: value => (s.takeWhile (· ≠ '='), some (String.ofList value))

/-- The options that a name may stand for: the one that it spells out, or all that it begins. -/
def candidates (flags : List Flag) (name : List Char) : List Flag :=
  match flags.filter (·.long.toList = name) with
  | [] => flags.filter fun f => name.isPrefixOf f.long.toList
  | found => found

def unmatched (s : List Char) : Word :=
  if isNegativeNumber s || s.contains ' ' then .plain (String.ofList s)
  else .unknown (String.ofList s)

/-- What a word other than `--` is to a level. -/
def classify (l : Level) (word : String) : Except Stop Word :=
  match word.toList with
  | '-' :: '-' :: r =>
    let (name, value) := splitValue ('-' :: '-' :: r)
    match candidates l.flags name with
    | [] => .ok (unmatched word.toList)
    | [f] => .ok (.flag f value)
    | fs => .error (.wrong l (.ambiguous word fs))
  | ['-', 'h'] => .ok (.flag .help none)
  | ['-', 'h', '='] => .ok (.flag .help (some ""))
  | '-' :: 'h' :: '=' :: text => .ok (.shortHelp text)
  | '-' :: 'h' :: text => .ok (.shortHelp text)
  | '-' :: c :: r => .ok (unmatched ('-' :: c :: r))
  | _ => .ok (.plain word)

/-- After `--` every word is plain. -/
def classifyAll (l : Level) : List String → Except Stop (List Word)
  | [] => .ok []
  | word :: rest =>
    if word = "--" then .ok (.dashes :: rest.map .plain)
    else return (← classify l word) :: (← classifyAll l rest)

/-! ## Commands -/

/-- Each `h` in the text of a short help option is one more call for help. Text that goes on after
them is a value, which no call for help takes. -/
def shortHelp (l : Level) (text : List Char) : Stop :=
  match text.dropWhile (· = 'h') with
  | [] => .help l
  | value => .wrong l (.needlessValue .help (String.ofList value))

/-- What has been read of a command's arguments. -/
structure Progress where
  file : Option String := none
  name : Option String := none
  trace : Bool := false
  disassemble : Bool := false
  /-- Words that nobody has asked for. -/
  extras : List String := []
  deriving DecidableEq

def Progress.addExtra (p : Progress) (word : String) : Progress :=
  { p with extras := p.extras ++ [word] }

/-- Reads a command's words. The first plain word is the file, and takes a `--` on either side
of it along. `--name=--` takes back a name given before. -/
def readWords (l : Level) (p : Progress) : List Word → Except Stop Progress
  | [] => .ok p
  | .plain s :: .dashes :: rest =>
    if p.file.isNone then readWords l { p with file := some s } rest
    else readWords l (p.addExtra s) (.dashes :: rest)
  | .plain s :: rest =>
    if p.file.isNone then readWords l { p with file := some s } rest
    else readWords l (p.addExtra s) rest
  | .dashes :: .plain s :: rest =>
    if p.file.isNone then readWords l { p with file := some s } rest
    else readWords l (p.addExtra "--") (.plain s :: rest)
  | .dashes :: rest => readWords l (p.addExtra "--") rest
  | .unknown s :: rest => readWords l (p.addExtra s) rest
  | .shortHelp text :: _ => .error (shortHelp l text)
  | .flag .help none :: _ => .error (.help l)
  | .flag .name (some value) :: rest =>
    readWords l { p with name := if value = "--" then none else some value } rest
  | .flag .name none :: .plain value :: rest => readWords l { p with name := some value } rest
  | .flag .name none :: _ => .error (.wrong l (.missingValue .name))
  | .flag .trace none :: rest => readWords l { p with trace := true } rest
  | .flag .disassemble none :: rest => readWords l { p with disassemble := true } rest
  | .flag f (some value) :: _ => .error (.wrong l (.needlessValue f value))

/-- The command of a level, from its arguments and the words left over before it. -/
def readCommand (l : Level) (action : Progress → Action) (extras args : List String) :
    Except Stop Command := do
  let p ← readWords l {} (← classifyAll l args)
  match p.file with
  | none => .error (.wrong l (.required "file"))
  | some file => match extras ++ p.extras with
    | [] => return ⟨action p, file, p.name⟩
    | words => .error (.wrong .top (.unrecognized words))

/-- The first plain word names the command. -/
def choose (word : String) (extras args : List String) : Except Stop Command :=
  if word = "disasm" then readCommand .disasm (fun _ => .disasm) extras args
  else if word = "run" then
    readCommand .run (fun p => .run p.trace p.disassemble) extras args
  else .error (.wrong .top (.invalidCommand word))

/-- Reads the words up to the command; `extras` are those that nobody has asked for. -/
def readTop (extras : List String) : List String → Except Stop Command
  | [] => .error (.wrong .top (.required "command"))
  | word :: rest =>
    if word = "--" then
      if rest.isEmpty then .error (.wrong .top (.required "command")) else choose word extras rest
    else do
      match ← classify .top word with
      | .plain s => choose s extras rest
      | .flag f none => .error (if f = .help then .help .top else .wrong .top (.missingValue f))
      | .flag f (some value) => .error (.wrong .top (.needlessValue f value))
      | .shortHelp text => .error (shortHelp .top text)
      | .unknown s => readTop (extras ++ [s]) rest
      | .dashes => readTop extras rest

def readArguments (args : List String) : Except Stop Command := readTop [] args

end LoxMachine.CommandLine
