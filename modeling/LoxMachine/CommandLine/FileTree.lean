import LoxMachine.CommandLine.Path

/-!
# File trees

The files below a working directory. Around the working directory there are only directories
without anything else in them.
-/

namespace LoxMachine.CommandLine

/-- Why a file cannot be opened: the system's number and text for it. -/
structure OpenError where
  number : Nat
  text : String
  deriving DecidableEq

namespace OpenError

def missing : OpenError := ⟨2, "No such file or directory"⟩

def notDirectory : OpenError := ⟨20, "Not a directory"⟩

def isDirectory : OpenError := ⟨21, "Is a directory"⟩

end OpenError

/-- The files of a tree and its directories, by their parts from the working directory on. -/
structure FileTree where
  files : List (List (List Char) × ByteArray)
  directories : List (List (List Char))

namespace FileTree

inductive Node where
  | directory
  | file (content : ByteArray)

/-- Where a walk stands: below the working directory, or outside of it. -/
inductive Place where
  | inside (parts : List (List Char))
  | outside

/-- Every directory above a file or directory of the tree is one of the tree. -/
def hasDirectory (t : FileTree) (parts : List (List Char)) : Bool :=
  parts.isEmpty || t.directories.any (parts.isPrefixOf ·) ||
    t.files.any fun f => parts.isPrefixOf f.1 && parts.length < f.1.length

def node? (t : FileTree) : Place → Option Node
  | .outside => some .directory
  | .inside parts => match t.files.lookup parts with
    | some content => some (.file content)
    | none => if t.hasDirectory parts then some .directory else none

/-- Goes on to a part, from a directory. -/
def Place.next (place : Place) (part : List Char) : Option Place :=
  match place with
  | .inside parts =>
    if part = ['.', '.'] then some (if parts = [] then .outside else .inside parts.dropLast)
    else some (.inside (parts ++ [part]))
  | .outside => if part = ['.', '.'] then some .outside else none

def walk (t : FileTree) (place : Place) : List (List Char) → Except OpenError Node
  | [] => match t.node? place with
    | some node => .ok node
    | none => .error .missing
  | part :: rest => match t.node? place with
    | none => .error .missing
    | some (.file _) => .error .notDirectory
    | some .directory => match place.next part with
      | some place => t.walk place rest
      | none => .error .missing

/-- The content of the file at a path. -/
def read (t : FileTree) (p : Path) : Except OpenError ByteArray :=
  match t.walk (if p.slashes = 0 then .inside [] else .outside) p.parts with
  | .ok (.file content) => .ok content
  | .ok .directory => .error .isDirectory
  | .error e => .error e

end FileTree
end LoxMachine.CommandLine
