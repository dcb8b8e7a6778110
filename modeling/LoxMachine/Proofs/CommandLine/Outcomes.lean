import LoxMachine.Proofs.Assembly.Faults
import LoxMachine.Proofs.CommandLine.Output
import LoxMachine.Proofs.CommandLine.Surrogates
import LoxMachine.Proofs.CommandLine.Words
import LoxMachine.Proofs.Document.Faults

/-!
# Outcomes of commands

A command prints its result and exits with status 0, or says on the error stream what has gone
wrong and exits with status 1. There are faults that it does not answer for, some while its file is
opened and loaded, and one when it prints a string that the output refuses; `Raises` tells all of
them. Otherwise a chunk that has been loaded is listed and executed without any, whatever its bytes
are, and it always is if its name and its strings have no surrogate.

    readArguments args = .ok c →
      ((respond files args).status = .raised f ↔ c.Raises (files.read c.path) f) ∧
      ((∀ f, ¬ c.Raises (files.read c.path) f) → Answers c.file (respond files args))
                                                                     (respond_of_readArguments)
-/

namespace LoxMachine.CommandLine

/-! ## Answers -/

/-- What a command that fails says about a file on the error stream. -/
inductive Message (file : String) : String → Prop
  | load (text : String) : Message file ("Failed to load " ++ file ++ ": " ++ text ++ "\n")
  | bytecode (text : String) :
      Message file ("Malformed bytecode in " ++ file ++ ": " ++ text ++ "\n")
  | runtime (line : Int) (name : Str) (text : String) :
      Message file (s!"[line {line}] in " ++ Text.unquoted name ++ "\n" ++
        s!"Runtime error: {text}\n")

/-- A command has exited, and has failed exactly if it has said so. -/
def Answers (file : String) (o : Outcome) : Prop :=
  (o.status = .exit 0 ∧ o.stderr = "") ∨ (o.status = .exit 1 ∧ Message file o.stderr)

/-- A script answers if it can be written. -/
def Script.Answers (file : String) (s : Script) : Prop :=
  (s.status = .exit 0 ∧ s.stderr = "") ∨ (s.status = .exit 1 ∧ Message file s.stderr)

/-- The line of a result, if there is one. -/
def resultTexts : Except Fault Value → List Str
  | .ok v => line v.shown
  | .error _ => []

/-! ## Faults that nobody answers for -/

namespace Command

/-- The faults of loading a file. -/
inductive Unloaded (c : Command) (content : ByteArray) : Fault → Prop
  | document {f : Fault} (hsuffix : c.path.suffix = ".json".toList)
      (hf : Document.Raises (Text.Content.ofBytes content) f) : Unloaded c content f
  | assembly {f : Fault} (hsuffix : c.path.suffix ≠ ".json".toList)
      (hf : Assembly.Raises (Text.Content.ofBytes content) f) : Unloaded c content f

def prints (c : Command) : Bool :=
  match c.action with
  | .disasm => true
  | .run _ disassemble => disassemble

/-- The run of a chunk. -/
def execution (c : Command) (name : Str) (chunk : Chunk) : Machine × Except Fault Value :=
  ({ name, tracing := c.action.trace } : Machine).run chunk.toSealed

/-- A chunk is executed, after its listing if that is to be printed. -/
structure Executes (c : Command) (name : Str) (chunk : Chunk) : Prop where
  runs : ∃ tracing disassemble, c.action = .run tracing disassemble
  listed : c.prints = true → ∃ text, chunk.listing name = .ok text ∧ text.Encodable

/-- The first string that the output refuses: the listing, what is shown of an event, or the result.
-/
inductive Refuses (c : Command) (name : Str) (chunk : Chunk) : Str → Prop
  | listing {text : Str} (hprints : c.prints = true) (hlisting : chunk.listing name = .ok text)
      (h : ¬ text.Encodable) : Refuses c name chunk text
  | event {before after : List Str} {text : Str} (hexecutes : c.Executes name chunk)
      (hevents : (c.execution name chunk).1.events.toList.mapM Event.render =
        .ok (before ++ text :: after))
      (hbefore : ∀ t ∈ before, t.Encodable) (h : ¬ text.Encodable) : Refuses c name chunk text
  | result {texts : List Str} {v : Value} (hexecutes : c.Executes name chunk)
      (hevents : (c.execution name chunk).1.events.toList.mapM Event.render = .ok texts)
      (htexts : ∀ t ∈ texts, t.Encodable) (hresult : (c.execution name chunk).2 = .ok v)
      (h : ¬ v.shown.Encodable) : Refuses c name chunk v.shown

/-- The faults of a command that nobody answers for, by what opening its file yields. -/
inductive Raises (c : Command) : Except OpenError ByteArray → Fault → Prop
  | path {opened : Except OpenError ByteArray} (h : '\x00' ∈ c.file.toList) :
      Raises c opened (.argument .nullInPath)
  | load {content : ByteArray} {f : Fault} (h : '\x00' ∉ c.file.toList)
      (hf : c.Unloaded content f) : Raises c (.ok content) f
  | output {content : ByteArray} {stored text : Str} {chunk : Chunk}
      (h : '\x00' ∉ c.file.toList) (hload : load c.path content = .ok (stored, chunk))
      (htext : c.Refuses (c.nameOr stored) chunk text) :
      Raises c (.ok content) (.argument (.unencodable text))

/-- How a command ends: it raises a fault exactly if nobody answers for it, and answers for all
else, with status 0, or with a message and status 1. -/
structure Ends (c : Command) (opened : Except OpenError ByteArray) (o : Outcome) : Prop where
  raised : ∀ f, o.status = .raised f ↔ c.Raises opened f
  answers : (∀ f, ¬ c.Raises opened f) → Answers c.file o
  /-- A loaded chunk is answered for if its name and its strings have no surrogate. -/
  loaded : ∀ content stored chunk, '\x00' ∉ c.file.toList → opened = .ok content →
    load c.path content = .ok (stored, chunk) → (c.nameOr stored).Encodable →
      chunk.EncodablePool → Answers c.file o

/-- The script of a command that has executed a chunk and is to write some strings before. -/
def ending (c : Command) (texts : List Str) : Except Fault Value → Script
  | .ok v => { texts := texts ++ line v.shown, status := .exit 0 }
  | .error f => c.report "Malformed bytecode in" texts f

variable {c : Command} {name : Str} {chunk : Chunk}

/-! ## Loading -/

theorem not_isReported_of_unloaded {content : ByteArray} {f : Fault} (h : c.Unloaded content f) :
    ¬ f.IsReported := by
  cases h with
  | document _ hf => exact hf.not_isReported
  | assembly _ hf => exact hf.not_isReported

theorem unloaded_document_iff (hsuffix : c.path.suffix = ".json".toList) {content : ByteArray}
    {f : Fault} : c.Unloaded content f ↔ Document.Raises (Text.Content.ofBytes content) f := by
  constructor
  · intro h
    cases h with
    | document _ hf => exact hf
    | assembly h _ => exact absurd hsuffix h
  · exact .document hsuffix

theorem unloaded_assembly_iff (hsuffix : c.path.suffix ≠ ".json".toList) {content : ByteArray}
    {f : Fault} : c.Unloaded content f ↔ Assembly.Raises (Text.Content.ofBytes content) f := by
  constructor
  · intro h
    cases h with
    | document h _ => exact absurd h hsuffix
    | assembly _ hf => exact hf
  · exact .assembly hsuffix

theorem load_eq_error_iff {content : ByteArray} {f : Fault} (hf : ¬ f.IsReported) :
    load c.path content = .error f ↔ c.Unloaded content f := by
  unfold load
  by_cases hsuffix : c.path.suffix = ".json".toList
  · rw [if_pos hsuffix, unloaded_document_iff hsuffix, ← Document.ofBytes_eq_error_iff hf]
    cases Document.ofBytes content <;> simp [bind, Except.bind, pure, Except.pure]
  · rw [if_neg hsuffix, unloaded_assembly_iff hsuffix, ← Assembly.ofBytes_eq_error_iff hf]
    cases Assembly.ofBytes content <;> simp [bind, Except.bind, pure, Except.pure]

/-- What is loaded has constants that programs compute with. -/
theorem loxPool_of_load {p : Path} {content : ByteArray} (h : load p content = .ok (name, chunk)) :
    chunk.LoxPool := by
  unfold load at h
  split at h
  · obtain ⟨d, hd, heq⟩ := bind_eq_ok_iff.mp h
    cases heq
    exact Document.loxPool_of_ofBytes hd
  · obtain ⟨chunk', hc, heq⟩ := bind_eq_ok_iff.mp h
    cases heq
    exact Assembly.loxPool_of_ofBytes hc

/-! ## Executing -/

theorem trace_eq {events : List Event} {texts : List Str}
    (h : events.mapM Event.render = .ok texts) : trace events = (texts.flatMap line, .ok ()) := by
  rw [mapM_eq_ok_iff] at h
  induction h with
  | nil => rfl
  | cons he _ ih => rw [trace, he, ih, List.flatMap_cons]

/-- The events of a machine that holds values that programs compute with can be shown. -/
theorem exists_renders {m : Machine} (h : m.Holds Value.IsLox) :
    ∃ texts, m.events.toList.mapM Event.render = .ok texts := by
  refine exists_mapM_eq_ok fun e he => ?_
  obtain ⟨shown, hshown⟩ := exists_mapM_eq_ok fun v hv =>
    ⟨v.shown, Value.display_of_isLox (h.events e he v hv)⟩
  unfold Event.render renderTrace
  rw [hshown]
  exact ⟨_, rfl⟩

/-- A run of a loaded chunk ends with the line of its result or is reported, after the lines of what
it has recorded. -/
theorem runChunk_eq (hp : chunk.LoxPool) (name : Str) (tracing : Bool) (before : List Str) :
    let r := ({ name, tracing } : Machine).run chunk.toSealed
    (∀ f, r.2 = .error f → ∃ e, f = .runtime e) ∧
      ∃ texts, r.1.events.toList.mapM Event.render = .ok texts ∧
        c.runChunk name chunk tracing before = c.ending (before ++ texts.flatMap line) r.2 := by
  obtain ⟨hholds, hvalue, hfault⟩ :=
    (Machine.running_fresh Value.IsLox name tracing).run hp.toSealed Value.kept_isLox hp.toSealed
  obtain ⟨texts, htexts⟩ := exists_renders hholds
  refine ⟨hfault, texts, htexts, ?_⟩
  unfold runChunk
  dsimp only
  rw [trace_eq htexts]
  cases hresult : (({ name, tracing } : Machine).run chunk.toSealed).2 with
  | error f => rfl
  | ok v =>
    have hshown : (Except.ok v : Except Fault Value).bind Value.display = .ok v.shown :=
      Value.display_of_isLox (hvalue v hresult)
    dsimp only [pure, Except.pure, bind, Except.bind] at hshown ⊢
    rw [hshown]
    rfl

/-! ## What is refused -/

theorem texts_report (what : String) (texts : List Str) (f : Fault) :
    (c.report what texts f).texts = texts := by
  cases f <;> rfl

theorem texts_ending (texts : List Str) (r : Except Fault Value) :
    (c.ending texts r).texts = texts ++ resultTexts r := by
  cases r with
  | ok v => rfl
  | error f => rw [ending, texts_report, resultTexts, List.append_nil]

theorem refused?_resultTexts (r : Except Fault Value) {t : Str} :
    refused? (resultTexts r) = some t ↔ ∃ v, r = .ok v ∧ ¬ v.shown.Encodable ∧ v.shown = t := by
  cases r with
  | error f => exact iff_of_false nofun (by simp)
  | ok v =>
    rw [resultTexts, refused?_line]
    by_cases hv : v.shown.Encodable <;> simp [refused?, hv]

theorem refused?_ending {before texts : List Str} (hbefore : refused? before = none)
    (r : Except Fault Value) {t : Str} :
    refused? (c.ending (before ++ texts.flatMap line) r).texts = some t ↔
      refused? texts = some t ∨
        (∀ s ∈ texts, s.Encodable) ∧ ∃ v, r = .ok v ∧ ¬ v.shown.Encodable ∧ v.shown = t := by
  rw [texts_ending, List.append_assoc, refused?_append, hbefore, Option.none_or, refused?_append,
    refused?_lines, Option.or_eq_some_iff, refused?_eq_none_iff, refused?_resultTexts]

theorem refuses_iff_of_executes (h : c.Executes name chunk) {texts : List Str}
    (hevents : (c.execution name chunk).1.events.toList.mapM Event.render = .ok texts) {t : Str} :
    c.Refuses name chunk t ↔ refused? texts = some t ∨
      (∀ s ∈ texts, s.Encodable) ∧
        ∃ v, (c.execution name chunk).2 = .ok v ∧ ¬ v.shown.Encodable ∧ v.shown = t := by
  constructor
  · intro ht
    cases ht with
    | listing hprints hlisting ht =>
      obtain ⟨text, htext, hencodable⟩ := h.listed hprints
      rw [htext] at hlisting
      cases hlisting
      exact absurd hencodable ht
    | event _ hevents' hbefore ht =>
      rw [hevents] at hevents'
      cases hevents'
      exact .inl (refused?_eq_some_iff.mpr ⟨ht, _, _, rfl, hbefore⟩)
    | result _ hevents' htexts hresult ht =>
      rw [hevents] at hevents'
      cases hevents'
      exact .inr ⟨htexts, _, hresult, ht, rfl⟩
  · rintro (hfind | ⟨htexts, v, hresult, hv, rfl⟩)
    · obtain ⟨ht, before, after, rfl, hbefore⟩ := refused?_eq_some_iff.mp hfind
      exact .event h hevents hbefore ht
    · exact .result h hevents htexts hresult hv

/-- Nothing is executed after a listing that is refused. -/
theorem refuses_iff_of_listing (hprints : c.prints = true) {text : Str}
    (hlisting : chunk.listing name = .ok text) (h : ¬ text.Encodable) {t : Str} :
    c.Refuses name chunk t ↔ t = text := by
  have hnot (he : c.Executes name chunk) : False := by
    obtain ⟨text', htext', hencodable⟩ := he.listed hprints
    rw [hlisting] at htext'
    cases htext'
    exact h hencodable
  constructor
  · intro ht
    cases ht with
    | listing _ hlisting' _ =>
      rw [hlisting] at hlisting'
      exact (Except.ok.inj hlisting').symm
    | event he _ _ _ | result he _ _ _ _ => exact (hnot he).elim
  · rintro rfl
    exact .listing hprints hlisting h

theorem not_refuses_of_listing_error (hprints : c.prints = true) {f : Fault}
    (hlisting : chunk.listing name = .error f) {t : Str} : ¬ c.Refuses name chunk t := by
  have hnot (he : c.Executes name chunk) : False := by
    obtain ⟨text, htext, -⟩ := he.listed hprints
    rw [hlisting] at htext
    cases htext
  intro ht
  cases ht with
  | listing _ hlisting' _ =>
    rw [hlisting] at hlisting'
    cases hlisting'
  | event he _ _ _ | result he _ _ _ _ => exact hnot he

/-- What is refused has a surrogate that the chunk has been given. -/
theorem Refuses.exists_surrogate (hp : chunk.LoxPool) {t : Str} (h : c.Refuses name chunk t) :
    ¬ (name.Encodable ∧ chunk.EncodablePool) := by
  rintro ⟨hname, hpool⟩
  obtain ⟨hevent, hresult⟩ := Machine.encodable_run hp hpool name c.action.trace
  cases h with
  | listing _ hlisting ht => exact ht (Listing.encodable_listing hpool hname hlisting)
  | event _ hevents _ ht => exact ht (hevent _ hevents _ (by simp))
  | result _ _ _ hv ht => exact ht (hresult _ hv)

theorem refused?_runChunk (hp : chunk.LoxPool) (h : c.Executes name chunk) {before : List Str}
    (hbefore : refused? before = none) {t : Str} :
    refused? (c.runChunk name chunk c.action.trace before).texts = some t ↔
      c.Refuses name chunk t := by
  obtain ⟨-, texts, hevents, hends⟩ := runChunk_eq (c := c) hp name c.action.trace before
  rw [hends, refused?_ending hbefore, refuses_iff_of_executes h hevents]
  rfl

/-- What is refused of a command's script is what its chunk has it print. -/
theorem refused?_performOn (hp : chunk.LoxPool) {t : Str} :
    refused? (c.performOn name chunk).texts = some t ↔ c.Refuses name chunk t := by
  obtain ⟨action, file, given⟩ := c
  cases action with
  | disasm =>
    unfold performOn
    dsimp only
    cases hlisting : chunk.listing name with
    | error f =>
      rw [texts_report]
      exact iff_of_false nofun (not_refuses_of_listing_error rfl hlisting)
    | ok text =>
      by_cases ht : text.Encodable
      · refine iff_of_false (by simp [refused?, ht]) fun hrefuses => ?_
        cases hrefuses with
        | listing _ hlisting' h =>
          rw [hlisting] at hlisting'
          cases hlisting'
          exact h ht
        | event he _ _ _ | result he _ _ _ _ =>
          obtain ⟨tracing, disassemble, ha⟩ := he.runs
          cases ha
      · rw [refuses_iff_of_listing rfl hlisting ht]
        simp [refused?, ht, eq_comm]
  | run tracing disassemble =>
    cases disassemble with
    | false =>
      have hprints : (⟨.run tracing false, file, given⟩ : Command).prints = false := rfl
      refine refused?_runChunk hp ⟨⟨tracing, false, rfl⟩, fun h => ?_⟩ rfl
      rw [hprints] at h
      cases h
    | true =>
      unfold performOn
      dsimp only
      cases hlisting : chunk.listing name with
      | error f =>
        rw [texts_report]
        exact iff_of_false nofun (not_refuses_of_listing_error rfl hlisting)
      | ok text =>
        by_cases ht : text.Encodable
        · refine refused?_runChunk hp ⟨⟨_, _, rfl⟩, fun _ => ⟨text, hlisting, ht⟩⟩ ?_
          exact refused?_eq_none_iff.mpr (List.forall_mem_singleton.mpr ht)
        · obtain ⟨-, texts, -, hends⟩ := runChunk_eq
            (c := ⟨.run tracing true, file, given⟩) hp name tracing [text]
          rw [refuses_iff_of_listing rfl hlisting ht]
          dsimp only
          rw [hends, texts_ending, List.append_assoc, List.singleton_append,
            refused?_cons_of_not_encodable ht]
          simp [eq_comm]

/-! ## Answering -/

theorem answers_report {what : String} {f : Fault} (hf : f.IsReported)
    (hwhat : ∀ text, Message c.file (what ++ " " ++ c.file ++ ": " ++ text ++ "\n"))
    (texts : List Str) : (c.report what texts f).Answers c.file := by
  cases f with
  | bytecode cause => exact .inr ⟨rfl, hwhat _⟩
  | runtime e => exact .inr ⟨rfl, .runtime _ _ _⟩
  | argument _ | offsetRange | numberRange | undecodable | unbound | noSuchOpcode => exact hf.elim

theorem answers_unloaded {f : Fault} (hf : f.IsReported) :
    (c.report "Failed to load" [] f).Answers c.file := by
  refine answers_report hf (fun text => ?_) []
  rw [show "Failed to load" ++ " " = "Failed to load " from rfl]
  exact .load text

theorem answers_malformed {f : Fault} (hf : f.IsReported) (texts : List Str) :
    (c.report "Malformed bytecode in" texts f).Answers c.file := by
  refine answers_report hf (fun text => ?_) texts
  rw [show "Malformed bytecode in" ++ " " = "Malformed bytecode in " from rfl]
  exact .bytecode text

theorem answers_runChunk (hp : chunk.LoxPool) (name : Str) (tracing : Bool)
    (before : List Str) : (c.runChunk name chunk tracing before).Answers c.file := by
  obtain ⟨hfault, texts, -, hends⟩ := runChunk_eq (c := c) hp name tracing before
  rw [hends]
  cases hresult : (({ name, tracing } : Machine).run chunk.toSealed).2 with
  | error f =>
    obtain ⟨e, rfl⟩ := hfault f hresult
    exact answers_malformed (f := .runtime e) trivial _
  | ok v => exact .inl ⟨rfl, rfl⟩

/-- **Loaded chunks.** Whatever is done with a chunk that has been loaded is answered for, if it can
be written. -/
theorem answers_performOn (hp : chunk.LoxPool) (name : Str) :
    (c.performOn name chunk).Answers c.file := by
  have hlisting {f : Fault} (h : chunk.listing name = .error f) : f.IsReported := by
    unfold Chunk.listing at h
    cases hentries : Listing.entries chunk with
    | error g =>
      rw [hentries] at h
      cases h
      obtain ⟨cause, rfl⟩ := Listing.exists_cause_of_entries hp hentries
      trivial
    | ok es =>
      rw [hentries] at h
      cases h
  unfold performOn
  split
  · split
    · exact .inl ⟨rfl, rfl⟩
    · next h => exact answers_malformed (hlisting h) _
  · exact answers_runChunk hp name _ _
  · split
    · exact answers_runChunk hp name _ _
    · next h => exact answers_malformed (hlisting h) _

theorem answers_unopened (e : OpenError) (shown : String) :
    Answers c.file
      { status := .exit 1
        stderr := s!"Failed to load {c.file}: [Errno {e.number}] {e.text}: " ++ shown ++ "\n" } := by
  refine .inr ⟨rfl, ?_⟩
  show Message c.file ("Failed to load " ++ c.file ++ ": [Errno " ++ toString e.number ++ "] " ++
    e.text ++ ": " ++ shown ++ "\n")
  have hload : Message c.file _ :=
    .load ("[Errno " ++ toString e.number ++ "] " ++ e.text ++ ": " ++ shown)
  have hbracket : ": " ++ "[Errno " = ": [Errno " := rfl
  simp only [String.append_assoc] at hload ⊢
  rwa [← @String.append_assoc ": " "[Errno ", hbracket] at hload

theorem play_report {f : Fault} (hf : ¬ f.IsReported) (what : String) :
    (c.report what [] f).play.status = .raised f := by
  cases f with
  | bytecode _ | runtime _ => exact absurd trivial hf
  | argument _ | offsetRange | numberRange | undecodable | unbound | noSuchOpcode => rfl

theorem answers_play {file : String} {s : Script} (h : s.Answers file)
    (htexts : refused? s.texts = none) : Answers file s.play := by
  rw [Script.play_of_encodable htexts]
  exact h

/-! ## Performing -/

/-- A command has one fault that nobody answers for, which it raises, or it has none. -/
def Settles (c : Command) (opened : Except OpenError ByteArray) (o : Outcome) : Prop :=
  (∃ f, (∀ g, c.Raises opened g ↔ g = f) ∧ o.status = .raised f) ∨
    (∀ f, ¬ c.Raises opened f) ∧ Answers c.file o

section
variable {content : ByteArray} (h0 : '\x00' ∉ c.file.toList)
include h0

theorem raises_iff_of_load_error {f g : Fault} (hload : load c.path content = .error f) :
    c.Raises (.ok content) g ↔ g = f ∧ ¬ f.IsReported := by
  constructor
  · intro h
    cases h with
    | path h => exact absurd h h0
    | load _ hg =>
      have hreported := not_isReported_of_unloaded hg
      rw [(load_eq_error_iff hreported).mpr hg] at hload
      cases hload
      exact ⟨rfl, hreported⟩
    | output _ hload' _ =>
      rw [hload] at hload'
      cases hload'
  · rintro ⟨rfl, hf⟩
    exact .load h0 ((load_eq_error_iff hf).mp hload)

theorem raises_iff_of_load {stored : Str} (hload : load c.path content = .ok (stored, chunk))
    {g : Fault} : c.Raises (.ok content) g ↔
      ∃ t, g = .argument (.unencodable t) ∧ c.Refuses (c.nameOr stored) chunk t := by
  constructor
  · intro h
    cases h with
    | path h => exact absurd h h0
    | load _ hg =>
      rw [(load_eq_error_iff (not_isReported_of_unloaded hg)).mpr hg] at hload
      cases hload
    | output _ hload' ht =>
      rw [hload] at hload'
      cases hload'
      exact ⟨_, rfl, ht⟩
  · rintro ⟨t, rfl, ht⟩
    exact .output h0 hload ht

theorem not_raises_of_load {stored : Str} (hload : load c.path content = .ok (stored, chunk))
    (hname : (c.nameOr stored).Encodable) (hpool : chunk.EncodablePool) (f : Fault) :
    ¬ c.Raises (.ok content) f := by
  rw [raises_iff_of_load h0 hload]
  rintro ⟨t, -, ht⟩
  exact ht.exists_surrogate (loxPool_of_load hload) ⟨hname, hpool⟩

theorem settles_of_load_error {f : Fault} (hload : load c.path content = .error f) :
    c.Settles (.ok content) (c.report "Failed to load" [] f).play := by
  by_cases hf : f.IsReported
  · refine .inr ⟨fun g hg => ?_, answers_play (answers_unloaded hf) ?_⟩
    · exact ((raises_iff_of_load_error h0 hload).mp hg).2 hf
    · rw [texts_report]
      rfl
  · refine .inl ⟨f, fun g => ?_, play_report hf _⟩
    rw [raises_iff_of_load_error h0 hload, and_iff_left hf]

theorem settles_of_load {stored : Str} (hload : load c.path content = .ok (stored, chunk)) :
    c.Settles (.ok content) (c.performOn (c.nameOr stored) chunk).play := by
  have hp := loxPool_of_load hload
  cases htexts : refused? (c.performOn (c.nameOr stored) chunk).texts with
  | none =>
    refine .inr ⟨fun g hg => ?_, answers_play (answers_performOn hp _) htexts⟩
    obtain ⟨t, -, ht⟩ := (raises_iff_of_load h0 hload).mp hg
    rw [(refused?_performOn hp).mpr ht] at htexts
    cases htexts
  | some t =>
    refine .inl ⟨.argument (.unencodable t), fun g => ?_, ?_⟩
    · simp only [raises_iff_of_load h0 hload, ← refused?_performOn hp, htexts]
      simp
    · rw [Script.play_of_refused htexts]

end

theorem settles_perform (opened : Except OpenError ByteArray) :
    c.Settles opened (c.perform opened) := by
  unfold perform
  by_cases h0 : '\x00' ∈ c.file.toList
  · rw [if_pos (by simpa using h0)]
    refine .inl ⟨_, fun g => ⟨fun hg => ?_, ?_⟩, rfl⟩
    · cases hg with
      | path _ => rfl
      | load h _ | output h _ _ => exact absurd h0 h
    · rintro rfl
      exact .path h0
  rw [if_neg (by simpa using h0)]
  cases opened with
  | error e =>
    refine .inr ⟨fun f h => ?_, answers_unopened e _⟩
    cases h with
    | path h => exact h0 h
  | ok content =>
    dsimp only
    cases hload : load c.path content with
    | error f => exact settles_of_load_error h0 hload
    | ok found => exact settles_of_load h0 hload

theorem Settles.raised_iff {opened : Except OpenError ByteArray} {o : Outcome}
    (h : c.Settles opened o) (f : Fault) : o.status = .raised f ↔ c.Raises opened f := by
  rcases h with ⟨g, hraises, hstatus⟩ | ⟨hraises, hanswers⟩
  · rw [hstatus, hraises, Status.raised.injEq, eq_comm]
  · refine ⟨fun hstatus => ?_, fun hf => absurd hf (hraises f)⟩
    rcases hanswers with ⟨hexit, -⟩ | ⟨hexit, -⟩ <;> rw [hexit] at hstatus <;> cases hstatus

theorem Settles.ends {opened : Except OpenError ByteArray} {o : Outcome} (h : c.Settles opened o) :
    c.Ends opened o := by
  have hanswers (hnone : ∀ f, ¬ c.Raises opened f) : Answers c.file o := by
    rcases h with ⟨f, hraises, -⟩ | ⟨-, hanswers⟩
    · exact absurd ((hraises f).mpr rfl) (hnone f)
    · exact hanswers
  refine ⟨h.raised_iff, hanswers, ?_⟩
  rintro content stored chunk h0 rfl hload hname hpool
  exact hanswers (not_raises_of_load h0 hload hname hpool)

theorem ends_respond {files : FileTree} {args : List String} (h : readArguments args = .ok c) :
    c.Ends (files.read c.path) (respond files args) := by
  rw [respond, h]
  exact (settles_perform _).ends

end Command

/-- A listing with a surrogate is not printed. -/
example : respond
    ⟨[(["s.lasm".toList], "1 OP_CONSTANT \"\\ud800\"\n1 OP_RETURN\n".toUTF8)], []⟩
    ["disasm", "s.lasm"] = { status := .raised (.argument (.unencodable
      (("== s ==\n0000    1 OP_CONSTANT      0000 " : Str) ++ [.surrogate 0] ++
        ("\n0002    | OP_RETURN\n" : Str)))) } := by
  decide +kernel

end LoxMachine.CommandLine
