import LoxMachine.Proofs.CommandLine.Outcomes
import LoxMachine.Proofs.Machine.Trace
import LoxMachine.Proofs.Machine.Tracing
import Mathlib.Data.List.TakeWhile

/-!
# Traces of commands

A command that runs a file does with `--trace` what it does without, but for the lines of the trace.
These stand after the listing, if there is one, and before the result, if there is one.

    without   listing ++ result
    with      listing ++ events, each with a line feed ++ result                (respond_trace)

The status is the same and so is the error stream, whatever the file is. This holds exactly if all
that is shown of the events can be written, as it can if no string constant has a surrogate; if not,
the output ends before the first event that cannot, and so does the command. Where nothing is
executed, for the file is not loaded or its chunk not listed, there is nothing to trace.
-/

namespace LoxMachine.CommandLine

/-! ## Algorithm -/

/-- A chunk that is about to be executed, its name, and what has been printed before. -/
structure Start where
  name : Str
  chunk : Chunk
  printed : String

/-- What a command executes, if it comes to that. -/
def Command.start? (c : Command) (opened : Except OpenError ByteArray) : Option Start :=
  if c.file.toList.contains '\x00' then none
  else match opened with
    | .error _ => none
    | .ok content => match load c.path content with
      | .error _ => none
      | .ok (stored, chunk) =>
        let name := c.nameOr stored
        if c.action.disassemble then match chunk.listing name with
          | .error _ => none
          | .ok text => text.chars?.map fun cs => ⟨name, chunk, String.ofList cs⟩
        else some ⟨name, chunk, ""⟩

/-- The line of a result, if there is one that can be written. -/
def resultLine (r : Except Fault Value) : String := (write (resultTexts r)).1

namespace Start

def machine (s : Start) (tracing : Bool) : Machine := { name := s.name, tracing }

/-- What is recorded of the run. -/
def playback (s : Start) : Machine.Playback := (s.machine true).play s.chunk.toSealed [.run]

def result (s : Start) : Except Fault Value := ((s.machine false).run s.chunk.toSealed).2

/-- What the recorded events show, in the order in which they have been recorded. -/
def Records (s : Start) (texts : List Str) : Prop :=
  s.playback.recorded.mapM Event.render = .ok texts

/-- All that is recorded can be written. -/
def Shows (s : Start) : Prop := ∃ texts, s.Records texts ∧ ∀ t ∈ texts, t.Encodable

/-- With a trace a command ends as without one, and its output is that without one and a block: all
that has been recorded, from the first instruction on. -/
structure Inserts (s : Start) (traced plain : Outcome) : Prop where
  status : traced.status = plain.status
  stderr : traced.stderr = plain.stderr
  block : ∃ (texts : List Str) (block : String), s.Records texts ∧
    (block : Str) = (texts.flatMap line).flatten ∧
    plain.stdout = s.printed ++ resultLine s.result ∧
    traced.stdout = s.printed ++ block ++ resultLine s.result

/-- A command ends with an event that cannot be written. -/
def Breaks (s : Start) (traced : Outcome) : Prop :=
  ∃ (before after : List Str) (text : Str) (block : String),
    s.Records (before ++ text :: after) ∧ ¬ text.Encodable ∧
    (block : Str) = (before.flatMap line).flatten ∧
    traced = { status := .raised (.argument (.unencodable text)), stdout := s.printed ++ block }

end Start

/-- What a command does with a trace, and what it does without. -/
def Command.Compares (c : Command) (opened : Except OpenError ByteArray)
    (traced plain : Outcome) : Prop :=
  match c.start? opened with
  | none => traced = plain ∧ plain.stdout = ""
  | some s => s.playback.Agrees s.chunk.toSealed (s.machine true) ∧
      (s.Inserts traced plain ↔ s.Shows) ∧ (¬ s.Shows → s.Breaks traced) ∧
      (s.chunk.EncodablePool → s.Shows) ∧
      (plain.status = .exit 0 ↔ ∃ v, s.result = .ok v ∧ v.shown.Encodable)

/-! ## Written lines -/

theorem write_lines {texts : List Str} (h : refused? texts = none) :
    ((write (texts.flatMap line)).1 : Str) = (texts.flatMap line).flatten := by
  have hall : ∀ t ∈ texts.flatMap line, t.Encodable := by
    rwa [← refused?_eq_none_iff, refused?_lines]
  rw [write_written, List.takeWhile_eq_self_iff.mpr (by simpa using hall)]

/-- Lines that make a text can be written one by one. -/
theorem encodable_of_lines {texts : List Str} {block : String}
    (h : (block : Str) = (texts.flatMap line).flatten) : ∀ t ∈ texts, t.Encodable := by
  intro t ht index hindex
  have hmem : CodePoint.surrogate index ∈ (block : Str) := by
    rw [h, List.mem_flatten]
    exact ⟨t, List.mem_flatMap.mpr ⟨t, ht, List.mem_cons_self⟩, hindex⟩
  exact Str.encodable_ofChars _ index hmem

namespace Command

variable {c : Command}

/-! ## Endings -/

/-- What has been written before does not change how a command ends. -/
theorem play_ending {before : List Str} (h : refused? before = none) (r : Except Fault Value) :
    (c.ending before r).play =
      { (c.ending [] r).play with stdout := (write before).1 ++ resultLine r } := by
  have htexts : refused? (c.ending before r).texts = refused? (resultTexts r) := by
    rw [texts_ending, refused?_append, h, Option.none_or]
  have hwrite : (write (c.ending before r).texts).1 = (write before).1 ++ resultLine r := by
    rw [texts_ending, write_append h]
    rfl
  have hfresh : refused? (c.ending [] r).texts = refused? (resultTexts r) := by
    rw [texts_ending, List.nil_append]
  cases hr : refused? (resultTexts r) with
  | none =>
    rw [Script.play_of_encodable (htexts.trans hr), Script.play_of_encodable (hfresh.trans hr),
      hwrite]
    cases r with
    | ok v => rfl
    | error f => cases f <;> rfl
  | some t =>
    rw [Script.play_of_refused (htexts.trans hr), Script.play_of_refused (hfresh.trans hr), hwrite]

/-- A run that fails ends with a fault of the run, which is reported without the file's name. -/
theorem ending_congr (c c' : Command) {r : Except Fault Value}
    (hr : ∀ f, r = .error f → ∃ e, f = .runtime e) (texts : List Str) :
    c.ending texts r = c'.ending texts r := by
  cases r with
  | ok v => rfl
  | error f =>
    obtain ⟨e, rfl⟩ := hr f rfl
    rfl

theorem status_play_ending {r : Except Fault Value}
    (hr : ∀ f, r = .error f → ∃ e, f = .runtime e) :
    (c.ending [] r).play.status = .exit 0 ↔ ∃ v, r = .ok v ∧ v.shown.Encodable := by
  cases r with
  | error f =>
    obtain ⟨e, rfl⟩ := hr f rfl
    exact iff_of_false nofun (by simp)
  | ok v =>
    by_cases hv : v.shown.Encodable
    · have htexts : refused? (c.ending [] (.ok v)).texts = none := by
        rw [texts_ending, List.nil_append, resultTexts, refused?_line]
        simp [refused?, hv]
      rw [Script.play_of_encodable htexts]
      exact iff_of_true rfl ⟨v, rfl, hv⟩
    · have htexts : refused? (c.ending [] (.ok v)).texts = some v.shown := by
        rw [texts_ending, List.nil_append, refused?_resultTexts]
        exact ⟨v, rfl, hv, rfl⟩
      rw [Script.play_of_refused htexts]
      simp [hv]

/-! ## Starts -/

theorem not_encodable_of_chars? {text : Str} (h : text.chars? = none) : ¬ text.Encodable := by
  rw [← Str.chars?_isSome_iff, h]
  exact Bool.false_ne_true

/-- Nothing is written behind a listing that is refused. -/
theorem play_runChunk_of_refused {chunk : Chunk} (hp : chunk.LoxPool) {text : Str}
    (h : ¬ text.Encodable) {name : Str} {tracing : Bool} :
    (c.runChunk name chunk tracing [text]).play =
      { status := .raised (.argument (.unencodable text)) } := by
  obtain ⟨-, texts, -, hends⟩ := runChunk_eq (c := c) hp name tracing [text]
  have hwrite : write (c.runChunk name chunk tracing [text]).texts = ("", some text) := by
    rw [hends, texts_ending, List.append_assoc, List.singleton_append,
      write_cons_of_not_encodable h]
  rw [Script.play, hwrite]

/-- A command that executes a chunk does what its start says, and one that does not prints
nothing. -/
theorem perform_start {trace disassemble : Bool} (ha : c.action = .run trace disassemble)
    (opened : Except OpenError ByteArray) : match c.start? opened with
      | none => (c.perform opened).stdout = ""
      | some s => s.chunk.LoxPool ∧ ∃ before, refused? before = none ∧
          (write before).1 = s.printed ∧
          c.perform opened = (c.runChunk s.name s.chunk trace before).play := by
  have hreport (what : String) (f : Fault) : (c.report what [] f).play.stdout = "" := by
    cases f <;> rfl
  unfold start? perform
  by_cases h0 : c.file.toList.contains '\x00' = true
  · rw [if_pos h0, if_pos h0]
  rw [if_neg h0, if_neg h0]
  cases opened with
  | error e => rfl
  | ok content =>
    dsimp only
    cases hload : load c.path content with
    | error f => exact hreport _ f
    | ok found =>
      obtain ⟨stored, chunk⟩ := found
      have hp := loxPool_of_load hload
      dsimp only
      unfold performOn
      rw [ha]
      cases disassemble with
      | false => exact ⟨hp, [], rfl, rfl, rfl⟩
      | true =>
        rw [if_pos (by rfl)]
        dsimp only
        cases chunk.listing (c.nameOr stored) with
        | error f => exact hreport _ f
        | ok text =>
          dsimp only
          cases htext : text.chars? with
          | none =>
            rw [play_runChunk_of_refused hp (not_encodable_of_chars? htext)]
            rfl
          | some cs =>
            obtain rfl := Str.chars?_eq_some_iff.mp htext
            refine ⟨hp, [Str.ofChars cs], ?_, ?_, rfl⟩
            · exact refused?_cons_of_encodable (Str.encodable_ofChars cs)
            · simp [write, htext]

/-- A command that executes nothing does not look at whether it is to trace. -/
theorem perform_congr {file : String} {name : Option String} {disassemble : Bool}
    {opened : Except OpenError ByteArray}
    (h : (⟨.run false disassemble, file, name⟩ : Command).start? opened = none) :
    (⟨.run true disassemble, file, name⟩ : Command).perform opened =
      (⟨.run false disassemble, file, name⟩ : Command).perform opened := by
  unfold start? at h
  unfold perform
  dsimp only at h ⊢
  by_cases h0 : file.toList.contains '\x00' = true
  · rw [if_pos h0, if_pos h0]
  rw [if_neg h0] at h
  rw [if_neg h0, if_neg h0]
  cases opened with
  | error e => rfl
  | ok content =>
    have hpath : (⟨.run true disassemble, file, name⟩ : Command).path =
      (⟨.run false disassemble, file, name⟩ : Command).path := rfl
    dsimp only at h ⊢
    rw [hpath]
    cases hload : load (⟨.run false disassemble, file, name⟩ : Command).path content with
    | error f => rfl
    | ok found =>
      obtain ⟨stored, chunk⟩ := found
      rw [hload] at h
      have hp := loxPool_of_load hload
      have hname : (⟨.run true disassemble, file, name⟩ : Command).nameOr stored =
        (⟨.run false disassemble, file, name⟩ : Command).nameOr stored := rfl
      dsimp only at h ⊢
      rw [hname]
      cases disassemble with
      | false => cases h
      | true =>
        rw [if_pos (by rfl)] at h
        unfold performOn
        dsimp only
        cases hlisting : chunk.listing
          ((⟨.run false true, file, name⟩ : Command).nameOr stored) with
        | error f => rfl
        | ok text =>
          rw [hlisting] at h
          have hrefused := not_encodable_of_chars? (Option.map_eq_none_iff.mp h)
          dsimp only
          rw [play_runChunk_of_refused hp hrefused, play_runChunk_of_refused hp hrefused]

/-! ## Runs -/

/-- A machine that does not trace has nothing to show. -/
theorem runChunk_plain {chunk : Chunk} (hp : chunk.LoxPool) (name : Str) (before : List Str) :
    c.runChunk name chunk false before =
      c.ending before (({ name } : Machine).run chunk.toSealed).2 := by
  obtain ⟨-, texts, htexts, hends⟩ := runChunk_eq (c := c) hp name false before
  have hevents := Machine.run_of_not_tracing (m := { name }) (c := chunk.toSealed) rfl
  rw [hevents] at htexts
  obtain rfl : texts = [] := (Except.ok.inj htexts).symm
  rw [hends, List.flatMap_nil, List.append_nil]

section
variable {s : Start} {before texts : List Str} {r : Except Fault Value}

/-- Lines that can all be written are a block of the output. -/
theorem play_shows (hbefore : refused? before = none) (htexts : refused? texts = none) :
    (c.ending (before ++ texts.flatMap line) r).play = { (c.ending [] r).play with
      stdout := (write before).1 ++ (write (texts.flatMap line)).1 ++ resultLine r } := by
  have hall : refused? (before ++ texts.flatMap line) = none := by
    rw [refused?_append, hbefore, Option.none_or, refused?_lines, htexts]
  rw [play_ending hall, write_append hbefore]

/-- The first line that cannot be written is the end of the output. -/
theorem play_breaks (hbefore : refused? before = none) {t : Str} (ht : refused? texts = some t) :
    (c.ending (before ++ texts.flatMap line) r).play =
      { status := .raised (.argument (.unencodable t))
        stdout := (write before).1 ++ (write (texts.flatMap line)).1 } := by
  have hrefused : refused? (before ++ texts.flatMap line) = some t := by
    rw [refused?_append, hbefore, Option.none_or, refused?_lines, ht]
  have hends : refused? (c.ending (before ++ texts.flatMap line) r).texts = some t := by
    rw [texts_ending, refused?_append, hrefused, Option.some_or]
  rw [Script.play_of_refused hends, texts_ending, write_append_of_refused hrefused,
    write_append hbefore]

end

theorem write_lines_of_refused {before after : List Str} {t : Str} (h : ∀ s ∈ before, s.Encodable)
    (ht : ¬ t.Encodable) : (write ((before ++ t :: after).flatMap line)).1 =
      (write (before.flatMap line)).1 := by
  have hlines : refused? (before.flatMap line) = none := by
    rwa [refused?_lines, refused?_eq_none_iff]
  rw [List.flatMap_append, write_append hlines, List.flatMap_cons]
  show _ ++ (write (t :: ("\n" : Str) :: after.flatMap line)).1 = _
  rw [write_cons_of_not_encodable ht, String.append_empty]

/-- **Runs.** Both machines yield the same, and only one of them has recorded anything. -/
theorem compares_runChunk {s : Start} (hp : s.chunk.LoxPool) (c c' : Command)
    {before before' : List Str} (hbefore : refused? before = none)
    (hbefore' : refused? before' = none) (hprinted : (write before).1 = s.printed)
    (hprinted' : (write before').1 = s.printed) :
    let traced := (c.runChunk s.name s.chunk true before).play
    let plain := (c'.runChunk s.name s.chunk false before').play
    (s.Inserts traced plain ↔ s.Shows) ∧ (¬ s.Shows → s.Breaks traced) ∧
      (s.chunk.EncodablePool → s.Shows) ∧
      (plain.status = .exit 0 ↔ ∃ v, s.result = .ok v ∧ v.shown.Encodable) := by
  obtain ⟨hfault, texts, hevents, hends⟩ := runChunk_eq (c := c) hp s.name true before
  have hresult : (({ name := s.name, tracing := true } : Machine).run s.chunk.toSealed).2 =
      s.result := ((Machine.matched_fresh s.name).run hp.toSealed).1
  rw [hresult] at hfault hends
  have hrecords : s.Records texts := by
    rw [Start.Records, Start.playback, Machine.recorded_run]
    exact hevents
  have hsame {texts' : List Str} (h : s.Records texts') : texts' = texts :=
    Except.ok.inj (h.symm.trans hrecords)
  have hshows (hpool : s.chunk.EncodablePool) : s.Shows :=
    ⟨texts, hrecords, (Machine.encodable_run hp hpool s.name true).1 texts hevents⟩
  intro traced plain
  have hplain : plain = { (c'.ending [] s.result).play with
      stdout := s.printed ++ resultLine s.result } := by
    show (c'.runChunk s.name s.chunk false before').play = _
    rw [runChunk_plain hp, ← hprinted']
    exact play_ending hbefore' s.result
  have hstatus : plain.status = .exit 0 ↔ ∃ v, s.result = .ok v ∧ v.shown.Encodable := by
    rw [hplain]
    exact status_play_ending hfault
  have htraced : traced = (c.ending (before ++ texts.flatMap line) s.result).play :=
    congrArg Script.play hends
  cases htexts : refused? texts with
  | none =>
    have hall : s.Shows := ⟨texts, hrecords, refused?_eq_none_iff.mp htexts⟩
    rw [play_shows hbefore htexts, hprinted, ending_congr c c' hfault] at htraced
    refine ⟨iff_of_true ⟨?_, ?_, texts, _, hrecords, write_lines htexts, ?_, ?_⟩ hall,
      fun h => absurd hall h, hshows, hstatus⟩
    · rw [htraced, hplain]
    · rw [htraced, hplain]
    · rw [hplain]
    · rw [htraced]
  | some t =>
    have hnot : ¬ ∀ t ∈ texts, t.Encodable := by
      rw [← refused?_eq_none_iff, htexts]
      nofun
    rw [play_breaks hbefore htexts, hprinted] at htraced
    obtain ⟨ht, first, rest, rfl, hfirst⟩ := refused?_eq_some_iff.mp htexts
    refine ⟨iff_of_false ?_ ?_, fun _ => ?_, hshows, hstatus⟩
    · rintro ⟨-, -, texts', block, hrecords', hblock, -⟩
      rw [hsame hrecords'] at hblock
      exact hnot (encodable_of_lines hblock)
    · rintro ⟨texts', hrecords', hall⟩
      rw [hsame hrecords'] at hall
      exact hnot hall
    · refine ⟨first, rest, t, (write (first.flatMap line)).1, hrecords, ht, ?_, ?_⟩
      · exact write_lines (refused?_eq_none_iff.mpr hfirst)
      · rw [htraced, write_lines_of_refused hfirst ht]

/-- A command that runs a file, with a trace and without. -/
theorem compares_perform {file : String} {name : Option String} {disassemble : Bool}
    (opened : Except OpenError ByteArray) :
    let c : Command := ⟨.run false disassemble, file, name⟩
    let c' : Command := ⟨.run true disassemble, file, name⟩
    c.Compares opened (c'.perform opened) (c.perform opened) := by
  intro c c'
  have hstart := perform_start (c := c) rfl opened
  have hstart' := perform_start (c := c') rfl opened
  rw [show c'.start? opened = c.start? opened from rfl] at hstart'
  unfold Compares
  cases hs : c.start? opened with
  | none =>
    rw [hs] at hstart
    exact ⟨perform_congr hs, hstart⟩
  | some s =>
    rw [hs] at hstart hstart'
    obtain ⟨hp, before, hbefore, hprinted, hplain⟩ := hstart
    obtain ⟨-, before', hbefore', hprinted', htraced⟩ := hstart'
    refine ⟨((Machine.sound_fresh _ s.name).play hp.toSealed [.run]).agrees, ?_⟩
    rw [hplain, htraced]
    exact compares_runChunk hp c' c hbefore' hbefore hprinted' hprinted

theorem compares_respond {files : FileTree} {args args' : List String} {file : String}
    {name : Option String} {disassemble : Bool}
    (htraced : readArguments args = .ok ⟨.run true disassemble, file, name⟩)
    (hplain : readArguments args' = .ok ⟨.run false disassemble, file, name⟩) :
    let c : Command := ⟨.run false disassemble, file, name⟩
    c.Compares (files.read c.path) (respond files args) (respond files args') := by
  intro c
  rw [respond, respond, htraced, hplain]
  exact compares_perform (files.read c.path)

end Command

end LoxMachine.CommandLine
