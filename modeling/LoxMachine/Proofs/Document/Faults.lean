import LoxMachine.Proofs.Document
import LoxMachine.Proofs.Value.Overflow

/-!
# Faults of a document

What is wrong with the form of a document is reported. Three faults are not: bytes that are not
UTF-8, whole numbers of too many digits anywhere in the text, and a constant that overflows. The
last one shows only if code and lines have the same length, the pool is not too large and all
constants before it can be kept.

    ofBytes bytes = .error f ↔ Raises (Content.ofBytes bytes) f           (ofBytes_eq_error_iff)
-/

namespace LoxMachine.Document

open Text

/-- The first of some constants that cannot be kept overflows. -/
inductive OverflowingPool : List Value → Prop
  | intro {before after : List Value} {v : Value}
      (hbefore : ∀ w ∈ before, ∃ x, w.toConstant = .ok x) (hv : v.Overflows) :
      OverflowingPool (before ++ v :: after)

/-- The three arrays of a record. That of the constants may be missing. -/
structure HasLists (entries : List (Str × Value)) (code lines constants : List Value) :
    Prop where
  code : Value.lookup entries "code" = some (.list code)
  lines : Value.lookup entries "lines" = some (.list lines)
  constants : (Value.lookup entries "constants").getD (.list []) = .list constants

/-- A record fails for one of its constants alone. -/
inductive Overflows : Value → Prop
  | intro {entries : List (Str × Value)} {code lines constants : List Value}
      (hlists : HasLists entries code lines constants) (hlength : code.length = lines.length)
      (hsize : constants.length ≤ maxConstants) (hpool : OverflowingPool constants) :
      Overflows (.dict entries)

/-- The faults that reading some content has and nobody reports. -/
inductive Raises : Content → Fault → Prop
  | undecodable {before : List Char} : Raises (.broken before) .undecodable
  | tooManyDigits {text : List Char} {count : Nat}
      (h : Json.read text = .error (.tooManyDigits count)) :
      Raises (.text text) (.argument (.tooManyDigits count))
  | numberRange {text : List Char} {v : Value} (hv : Json.read text = .ok v) (h : Overflows v) :
      Raises (.text text) .numberRange

theorem Raises.not_isReported {content : Content} {f : Fault} (h : Raises content f) :
    ¬ f.IsReported := by
  cases h <;> exact id

theorem raises_broken_iff {before : List Char} {f : Fault} :
    Raises (.broken before) f ↔ f = .undecodable := by
  constructor
  · rintro ⟨⟩
    rfl
  · rintro rfl
    exact .undecodable

theorem raises_text_iff {text : List Char} {f : Fault} : Raises (.text text) f ↔
    (∃ count, Json.read text = .error (.tooManyDigits count) ∧
      f = .argument (.tooManyDigits count)) ∨
    (∃ v, Json.read text = .ok v ∧ f = .numberRange ∧ Overflows v) := by
  constructor
  · intro h
    cases h with
    | tooManyDigits h => exact .inl ⟨_, h, rfl⟩
    | numberRange hv h => exact .inr ⟨_, hv, rfl, h⟩
  · rintro (⟨_, h, rfl⟩ | ⟨_, hv, rfl, h⟩)
    · exact .tooManyDigits h
    · exact .numberRange hv h

/-! ## Records -/

theorem ofValue_of_hasLists {entries : List (Str × Value)} {code lines constants : List Value}
    (h : HasLists entries code lines constants) :
    ofValue (.dict entries) = (readChunk code lines constants).map fun chunk =>
      ⟨((Value.lookup entries "name").map Value.plain).getD "chunk", chunk⟩ := by
  unfold ofValue
  simp only [h.code, h.lines, h.constants]
  cases readChunk code lines constants <;> rfl

/-- A value is refused, or it is a record of three arrays. -/
theorem ofValue_cases (v : Value) : (∃ cause, ofValue v = refuse cause) ∨
    ∃ entries code lines constants, v = .dict entries ∧ HasLists entries code lines constants := by
  unfold ofValue
  split
  · next entries =>
    split
    · exact .inl ⟨_, rfl⟩
    · exact .inl ⟨_, rfl⟩
    · next code lines hcode hlines =>
      split
      · next hconstants => exact .inr ⟨_, _, _, _, rfl, hcode, hlines, hconstants⟩
      · exact .inl ⟨_, rfl⟩
  · exact .inl ⟨_, rfl⟩

/-! ## Constants and cells -/

theorem readConstant_eq_ok_iff {v w : Value} : readConstant v = .ok w ↔ v.toConstant = .ok w := by
  unfold readConstant
  cases h : v.toConstant with
  | ok x => rfl
  | error f => rcases Value.fault_of_toConstant h with rfl | rfl <;> exact ⟨nofun, nofun⟩

section
variable {f : Fault} (hf : ¬ f.IsReported)

include hf

theorem refuse_ne_error {α : Type} {cause : DocumentFault} :
    (refuse cause : Except Fault α) ≠ .error f := by
  intro h
  cases h
  exact hf trivial

theorem readConstant_eq_error_iff {v : Value} :
    readConstant v = .error f ↔ f = .numberRange ∧ v.Overflows := by
  rw [← Value.toConstant_eq_numberRange_iff]
  unfold readConstant
  cases h : v.toConstant with
  | ok w => simp
  | error g =>
    rcases Value.fault_of_toConstant h with rfl | rfl
    · simp [eq_comm]
    · simp [refuse_ne_error hf]

theorem readCell_ne_error {byte line : Value} : readCell byte line ≠ .error f := by
  unfold readCell
  split
  · split
    · split
      · nofun
      · exact refuse_ne_error hf
    · exact refuse_ne_error hf
  · exact refuse_ne_error hf

theorem mapM_readConstant_eq_error_iff {constants : List Value} :
    constants.mapM readConstant = .error f ↔ f = .numberRange ∧ OverflowingPool constants := by
  rw [mapM_eq_error_iff]
  simp only [readConstant_eq_error_iff hf, readConstant_eq_ok_iff]
  constructor
  · rintro ⟨before, v, after, rfl, hbefore, rfl, hv⟩
    exact ⟨rfl, .intro hbefore hv⟩
  · rintro ⟨rfl, hbefore, hv⟩
    exact ⟨_, _, _, rfl, hbefore, rfl, hv⟩

theorem readChunk_eq_error_iff {code lines constants : List Value} :
    readChunk code lines constants = .error f ↔ f = .numberRange ∧
      code.length = lines.length ∧ constants.length ≤ maxConstants ∧
      OverflowingPool constants := by
  rw [readChunk_eq]
  by_cases hlength : code.length = lines.length
  · by_cases hsize : maxConstants < constants.length
    · have hlt : ¬ constants.length ≤ maxConstants := by omega
      rw [if_neg (by simpa using hlength), if_pos hsize]
      simp [refuse_ne_error hf, hlt]
    · have hle : constants.length ≤ maxConstants := by omega
      rw [if_neg (by simpa using hlength), if_neg hsize]
      have hconstants : constants.mapM readConstant = .error f ↔
          f = .numberRange ∧ OverflowingPool constants := mapM_readConstant_eq_error_iff hf
      simp only [hlength, hle, true_and]
      rw [← hconstants]
      cases constants.mapM readConstant with
      | error g => simp [bind, Except.bind]
      | ok vs =>
        have hcells : (code.zip lines).mapM (fun pair => readCell pair.1 pair.2) ≠ .error f := by
          intro h
          obtain ⟨_, _, _, -, -, hcell⟩ := mapM_eq_error_iff.mp h
          exact readCell_ne_error hf hcell
        simp only [bind, Except.bind, reduceCtorEq, iff_false]
        revert hcells
        cases (code.zip lines).mapM (fun pair => readCell pair.1 pair.2) <;>
          simp [pure, Except.pure]
  · rw [if_pos (by simpa using hlength)]
    simp [refuse_ne_error hf, hlength]

theorem ofValue_eq_error_iff {v : Value} :
    ofValue v = .error f ↔ f = .numberRange ∧ Overflows v := by
  constructor
  · intro h
    rcases ofValue_cases v with ⟨cause, hrefuse⟩ | ⟨entries, code, lines, constants, rfl, hlists⟩
    · rw [hrefuse] at h
      exact absurd h (refuse_ne_error hf)
    · rw [ofValue_of_hasLists hlists, map_eq_error_iff, readChunk_eq_error_iff hf] at h
      obtain ⟨rfl, hlength, hsize, hpool⟩ := h
      exact ⟨rfl, .intro hlists hlength hsize hpool⟩
  · rintro ⟨rfl, hlists, hlength, hsize, hpool⟩
    rw [ofValue_of_hasLists hlists, map_eq_error_iff]
    exact (readChunk_eq_error_iff hf).mpr ⟨rfl, hlength, hsize, hpool⟩

theorem ofText_eq_error_iff {text : List Char} :
    ofText text = .error f ↔ Raises (.text text) f := by
  unfold ofText
  rw [raises_text_iff]
  cases Json.read text with
  | ok v => simpa using ofValue_eq_error_iff hf
  | error e =>
    cases e with
    | badSyntax e => simp [refuse_ne_error hf]
    | tooManyDigits count => simp [eq_comm]

/-- **Files.** What is not reported of a document. -/
theorem ofBytes_eq_error_iff {bytes : ByteArray} :
    ofBytes bytes = .error f ↔ Raises (Content.ofBytes bytes) f := by
  unfold ofBytes
  cases Content.ofBytes bytes with
  | broken before =>
    rw [raises_broken_iff, Except.error.injEq]
    exact eq_comm
  | text text => exact ofText_eq_error_iff hf

end

theorem loxPool_of_readChunk {code lines constants : List Value} {c : Chunk}
    (h : readChunk code lines constants = .ok c) : c.LoxPool := by
  rw [readChunk_eq] at h
  split at h
  · cases h
  split at h
  · cases h
  cases hconstants : constants.mapM readConstant with
  | error f =>
    rw [hconstants] at h
    cases h
  | ok vs =>
    rw [hconstants] at h
    dsimp only [bind, Except.bind] at h
    split at h
    · cases h
    · cases h
      exact forall_of_mapM_eq_ok
        (fun _ _ _ hv => Value.isLox_of_toConstant (readConstant_eq_ok_iff.mp hv)) hconstants

/-- What is read has constants that programs compute with. -/
theorem loxPool_of_ofBytes {bytes : ByteArray} {d : Document} (h : ofBytes bytes = .ok d) :
    d.chunk.LoxPool := by
  have hvalue : ∃ v, ofValue v = .ok d := by
    unfold ofBytes ofText at h
    split at h
    · split at h
      · exact ⟨_, h⟩
      · cases h
      · cases h
    · cases h
  obtain ⟨v, hv⟩ := hvalue
  rcases ofValue_cases v with ⟨cause, hrefuse⟩ | ⟨entries, code, lines, constants, rfl, hlists⟩
  · rw [hrefuse] at hv
    cases hv
  · rw [ofValue_of_hasLists hlists] at hv
    cases hread : readChunk code lines constants with
    | error f =>
      rw [hread] at hv
      cases hv
    | ok c =>
      rw [hread] at hv
      cases hv
      exact loxPool_of_readChunk hread

end LoxMachine.Document
