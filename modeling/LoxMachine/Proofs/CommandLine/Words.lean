import LoxMachine.CommandLine.Arguments

/-!
# The words of a command

`Command.words` spells a command out in the order of the usage: the command's name, the file, and
the options that are set. Reading the words yields the command again, for all files and names that
are not taken for options.

    readArguments c.words = .ok c                                       (readArguments_words)
-/

namespace LoxMachine.CommandLine

/-! ## Words -/

/-- A level takes a word as it is, for its file or for the value of an option. -/
structure IsArgument (l : Level) (word : String) : Prop where
  ne_dashes : word ≠ "--"
  classify_eq : classify l word = .ok (.plain word)

def Action.level : Action → Level
  | disasm => .disasm
  | run .. => .run

def Action.trace : Action → Bool
  | disasm => false
  | run trace _ => trace

def Action.disassemble : Action → Bool
  | disasm => false
  | run _ disassemble => disassemble

def Action.words (a : Action) : List String :=
  (if a.trace then ["--trace"] else []) ++ (if a.disassemble then ["--disassemble"] else [])

/-- The words of an action as its level knows them. -/
def Action.flags (a : Action) : List Word :=
  (if a.trace then [.flag .trace none] else []) ++
    (if a.disassemble then [.flag .disassemble none] else [])

def Action.name : Action → String
  | disasm => "disasm"
  | run .. => "run"

def Command.words (c : Command) : List String :=
  c.action.name :: c.file :: (c.name.elim [] (["--name", ·]) ++ c.action.words)

/-- A word that does not begin with a dash is taken as it is. -/
theorem isArgument_of_head? {word : String} (h : word.toList.head? ≠ some '-') (l : Level) :
    IsArgument l word := by
  constructor
  · rintro rfl
    exact h rfl
  · unfold classify
    split
    all_goals
      first
        | rfl
        | next heq =>
          rw [heq] at h
          exact absurd rfl h

/-! ## Reading -/

theorem classifyAll_cons {l : Level} {word : String} {w : Word} (hne : word ≠ "--")
    (h : classify l word = .ok w) (rest : List String) :
    classifyAll l (word :: rest) = (classifyAll l rest).map (w :: ·) := by
  rw [classifyAll, if_neg hne, h]
  cases classifyAll l rest <;> rfl

theorem classifyAll_name {l : Level} (hl : l ≠ .top) {name : Option String}
    (hname : ∀ n ∈ name, IsArgument l n) (rest : List String) :
    classifyAll l (name.elim [] (["--name", ·]) ++ rest) =
      (classifyAll l rest).map (name.elim [] ([.flag .name none, .plain ·]) ++ ·) := by
  cases name with
  | none => cases h : classifyAll l rest <;> simp [Except.map, h]
  | some n =>
    obtain ⟨hne, hn⟩ := hname n rfl
    have hflag : classify l "--name" = .ok (.flag .name none) := by
      cases l with
      | top => exact absurd rfl hl
      | disasm | run => rfl
    show classifyAll l ("--name" :: n :: rest) = _
    rw [classifyAll_cons (by decide) hflag, classifyAll_cons hne hn]
    cases classifyAll l rest <;> rfl

theorem classifyAll_action (a : Action) : classifyAll a.level a.words = .ok a.flags := by
  cases a with
  | disasm => rfl
  | run trace disassemble => cases trace <;> cases disassemble <;> rfl

theorem classifyAll_words {c : Command} (hfile : IsArgument c.action.level c.file)
    (hname : ∀ n ∈ c.name, IsArgument c.action.level n) :
    classifyAll c.action.level c.words.tail =
      .ok (.plain c.file :: (c.name.elim [] ([.flag .name none, .plain ·]) ++ c.action.flags)) := by
  have hlevel : c.action.level ≠ .top := by cases c.action <;> nofun
  show classifyAll c.action.level (c.file :: _) = _
  rw [classifyAll_cons hfile.ne_dashes hfile.classify_eq, classifyAll_name hlevel hname,
    classifyAll_action]
  rfl

theorem readWords_words (l : Level) (file : String) (name : Option String) (a : Action) :
    readWords l {} (.plain file :: (name.elim [] ([.flag .name none, .plain ·]) ++ a.flags)) =
      .ok { file := some file, name, trace := a.trace, disassemble := a.disassemble } := by
  unfold Action.flags
  cases name <;> cases a.trace <;> cases a.disassemble <;> simp [readWords]

theorem readTop_name (a : Action) (rest : List String) :
    readTop [] (a.name :: rest) = choose a.name [] rest := by
  cases a with
  | disasm => rfl
  | run trace disassemble =>
    show readTop [] ("run" :: rest) = choose "run" [] rest
    rfl

/-- **Words.** A command is read from its words. -/
theorem readArguments_words {c : Command} (hfile : IsArgument c.action.level c.file)
    (hname : ∀ n ∈ c.name, IsArgument c.action.level n) : readArguments c.words = .ok c := by
  have hread {ofProgress : Progress → Action}
      (h : ∀ p, p.trace = c.action.trace → p.disassemble = c.action.disassemble →
        ofProgress p = c.action) :
      readCommand c.action.level ofProgress [] c.words.tail = .ok c := by
    unfold readCommand
    rw [classifyAll_words hfile hname]
    dsimp only [bind, Except.bind]
    rw [readWords_words]
    dsimp only
    rw [h _ rfl rfl]
    rfl
  show readTop [] (c.action.name :: c.words.tail) = _
  rw [readTop_name]
  obtain ⟨action, file, name⟩ := c
  cases action with
  | disasm => exact hread fun p _ _ => rfl
  | run trace disassemble =>
    refine hread fun p htrace hdisassemble => ?_
    rw [htrace, hdisassemble]
    rfl

example : readArguments ["run", "a.json", "--name", "b", "--trace"] =
    .ok { action := .run true false, file := "a.json", name := some "b" } :=
  let c : Command := { action := .run true false, file := "a.json", name := some "b" }
  have hfile : IsArgument .run "a.json" := isArgument_of_head? (by decide) _
  have hname : IsArgument .run "b" := isArgument_of_head? (by decide) _
  readArguments_words (c := c) hfile fun _ hn => Option.some.inj hn ▸ hname

end LoxMachine.CommandLine
