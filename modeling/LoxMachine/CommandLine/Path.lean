/-!
# Paths

A path is read by its parts: empty parts and dots are left out, double dots stay. One or more
slashes in front make it absolute; exactly two are kept apart from one.
-/

namespace LoxMachine.CommandLine

structure Path where
  /-- The number of slashes in front. -/
  slashes : Nat
  parts : List (List Char)
  deriving DecidableEq

namespace Path

/-- The parts between slashes. -/
def splitSlashes : List Char → List (List Char)
  | [] => [[]]
  | '/' :: r => [] :: splitSlashes r
  | c :: r => match splitSlashes r with
    | [] => [[c]]
    | p :: ps => (c :: p) :: ps

def ofChars (s : List Char) : Path :=
  let slashes := (s.takeWhile (· = '/')).length
  ⟨if slashes ≤ 2 then slashes else 1,
    (splitSlashes s).filter fun part => part ≠ [] ∧ part ≠ ['.']⟩

/-- The path in its plainest form; the empty path is a dot. -/
def toChars (p : Path) : List Char :=
  if p.slashes = 0 ∧ p.parts = [] then ['.']
  else List.replicate p.slashes '/' ++ ['/'].intercalate p.parts

/-- The last part. -/
def name (p : Path) : List Char := p.parts.getLastD []

/-- The name's stem and suffix. The suffix begins at the last dot, unless the dot is the first
or the last character of the name; then there is none. -/
def splitName (p : Path) : List Char × List Char :=
  let reversed := p.name.reverse
  let ending := reversed.takeWhile (· ≠ '.')
  match reversed.dropWhile (· ≠ '.') with
  | '.' :: start =>
    if start ≠ [] ∧ ending ≠ [] then (start.reverse, '.' :: ending.reverse) else (p.name, [])
  | _ => (p.name, [])

def stem (p : Path) : List Char := p.splitName.1

def suffix (p : Path) : List Char := p.splitName.2

end Path
end LoxMachine.CommandLine
