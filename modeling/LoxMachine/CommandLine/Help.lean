/-!
# Options and help

The program has two commands. Each of them, and the program before its command, takes options
of its own and has a help text of its own.
-/

namespace LoxMachine.CommandLine

inductive Flag where
  | help
  | name
  | trace
  | disassemble
  deriving DecidableEq

namespace Flag

def long : Flag → String
  | help => "--help"
  | name => "--name"
  | trace => "--trace"
  | disassemble => "--disassemble"

/-- How messages name the option. -/
def title : Flag → String
  | help => "-h/--help"
  | f => f.long

end Flag

/-- What is being read: the program's own arguments, or those of a command. -/
inductive Level where
  | top
  | disasm
  | run
  deriving DecidableEq

namespace Level

def flags : Level → List Flag
  | top => [.help]
  | disasm => [.help, .name]
  | run => [.help, .name, .trace, .disassemble]

def program : Level → String
  | top => "lox-bytecode"
  | disasm => "lox-bytecode disasm"
  | run => "lox-bytecode run"

def usage : Level → String
  | top => "usage: lox-bytecode [-h] \x7bdisasm,run\x7d ...\n"
  | disasm => "usage: lox-bytecode disasm [-h] [--name NAME] file\n"
  | run => "usage: lox-bytecode run [-h] [--name NAME] [--trace] [--disassemble] file\n"

def details : Level → List String
  | top => [
    "Inspect and run Lox bytecode chunks",
    "",
    "positional arguments:",
    "  \x7bdisasm,run\x7d",
    "    disasm      Print a human-readable listing of a chunk",
    "    run         Execute a chunk and print its return value",
    "",
    "options:",
    "  -h, --help    show this help message and exit"]
  | disasm => [
    "positional arguments:",
    "  file         Bytecode file (.json) or assembly text",
    "",
    "options:",
    "  -h, --help   show this help message and exit",
    "  --name NAME  Header name (defaults to the file stem)"]
  | run => [
    "positional arguments:",
    "  file           Bytecode file (.json) or assembly text",
    "",
    "options:",
    "  -h, --help     show this help message and exit",
    "  --name NAME    Name used in listings and tracebacks",
    "  --trace        Print the stack and each instruction as it executes",
    "  --disassemble  Print the listing before executing"]

def help (l : Level) : String := l.usage ++ "\n" ++ String.join (l.details.map (· ++ "\n"))

end Level
end LoxMachine.CommandLine
