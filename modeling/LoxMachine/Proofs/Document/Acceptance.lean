import LoxMachine.Proofs.Document.Faults
import LoxMachine.Proofs.Json.Stable

/-!
# Which records are documents

A record is read if it has three arrays of the right form, and what is read is what it says, with
whole numbers of the pool rounded. Every other value has one defect, since it is looked at in a
fixed order: record, fields, arrays, lengths, size of the pool, its constants, then each byte and
its line.

    (∃ d, ofValue v = .ok d) ↔ Accepted v                                   (exists_ofValue_iff)
    ofValue v = .error f ↔ Rejected v f                                   (ofValue_eq_fault_iff)

What is read is written as the record that it has been read from, so far as that has strings for
names and no whole numbers for constants; and it is read again as itself, if the record's strings
are such as JSON texts have. What is read from a text always is.

    Json.Writable v → ofValue v = .ok d → ofBytes d.text.toUTF8 = .ok d        (reread_of_writable)
-/

namespace LoxMachine.Document

/-! ## Forms of a record -/

/-- A constant is kept as it is, a whole number as the nearest number, if that is finite. -/
inductive KeptAs : Value → Value → Prop
  | lox {v : Value} (h : v.IsLox) : KeptAs v v
  | int {i : Int} {x : Binary64} (h : Binary64.ofInt? i = some x) : KeptAs (.int i) (.num x)

/-- A value that programs compute with, or a whole number that is not rounded beyond the range of
binary64. -/
def IsConstant (v : Value) : Prop :=
  v.IsLox ∨ ∃ i : Int, v = .int i ∧ i.natAbs < 2 ^ 1024 - 2 ^ 970

def IsByte (v : Value) : Prop := ∃ b : Int, v = .int b ∧ 0 ≤ b ∧ b ≤ 255

def IsLine (v : Value) : Prop := ∃ l : Int, v = .int l

/-- Three arrays from which a chunk can be made. -/
structure WellFormed (code lines constants : List Value) : Prop where
  length : code.length = lines.length
  size : constants.length ≤ maxConstants
  constants : ∀ v ∈ constants, IsConstant v
  code : ∀ v ∈ code, IsByte v
  lines : ∀ v ∈ lines, IsLine v

inductive Accepted : Value → Prop
  | intro {entries : List (Str × Value)} {code lines constants : List Value}
      (hlists : HasLists entries code lines constants) (h : WellFormed code lines constants) :
      Accepted (.dict entries)

/-- What is wrong with three arrays. Each kind of fault is that of arrays with which all that is
looked at before is right. -/
inductive Misshapen (code lines constants : List Value) : Fault → Prop
  | lengths (h : code.length ≠ lines.length) :
      Misshapen code lines constants
        (.bytecode (.document (.lengths code.length lines.length)))
  | tooManyConstants (hlength : code.length = lines.length)
      (h : maxConstants < constants.length) :
      Misshapen code lines constants
        (.bytecode (.document (.tooManyConstants constants.length)))
  | constant {before after : List Value} {v : Value} (hlength : code.length = lines.length)
      (hsize : constants.length ≤ maxConstants) (hconstants : constants = before ++ v :: after)
      (hbefore : ∀ w ∈ before, IsConstant w)
      (hv : (∃ items, v = .list items) ∨ ∃ entries, v = .dict entries) :
      Misshapen code lines constants (.bytecode (.document (.constant v)))
  | overflow {before after : List Value} {v : Value} (hlength : code.length = lines.length)
      (hsize : constants.length ≤ maxConstants) (hconstants : constants = before ++ v :: after)
      (hbefore : ∀ w ∈ before, IsConstant w) (hv : v.Overflows) :
      Misshapen code lines constants .numberRange
  | byte {before after : List (Value × Value)} {b l : Value}
      (hlength : code.length = lines.length) (hsize : constants.length ≤ maxConstants)
      (hconstants : ∀ w ∈ constants, IsConstant w)
      (hcells : code.zip lines = before ++ (b, l) :: after)
      (hbefore : ∀ p ∈ before, IsByte p.1 ∧ IsLine p.2) (hb : ¬ IsByte b) :
      Misshapen code lines constants (.bytecode (.document (.byte b)))
  | line {before after : List (Value × Value)} {b l : Value}
      (hlength : code.length = lines.length) (hsize : constants.length ≤ maxConstants)
      (hconstants : ∀ w ∈ constants, IsConstant w)
      (hcells : code.zip lines = before ++ (b, l) :: after)
      (hbefore : ∀ p ∈ before, IsByte p.1 ∧ IsLine p.2) (hb : IsByte b) (hl : ¬ IsLine l) :
      Misshapen code lines constants (.bytecode (.document (.line l)))

/-- What is wrong with a value that is no document. -/
inductive Rejected : Value → Fault → Prop
  | notObject {v : Value} (h : ∀ entries, v ≠ .dict entries) :
      Rejected v (.bytecode (.document .notObject))
  | noCode {entries : List (Str × Value)} (h : Value.lookup entries "code" = none) :
      Rejected (.dict entries) (.bytecode (.document (.missingField "code")))
  | noLines {entries : List (Str × Value)} {code : Value}
      (hcode : Value.lookup entries "code" = some code)
      (h : Value.lookup entries "lines" = none) :
      Rejected (.dict entries) (.bytecode (.document (.missingField "lines")))
  | notArrays {entries : List (Str × Value)} {code lines : Value}
      (hcode : Value.lookup entries "code" = some code)
      (hlines : Value.lookup entries "lines" = some lines)
      (h : ∀ code lines constants, ¬ HasLists entries code lines constants) :
      Rejected (.dict entries) (.bytecode (.document .notArrays))
  | misshapen {entries : List (Str × Value)} {code lines constants : List Value} {f : Fault}
      (hlists : HasLists entries code lines constants) (h : Misshapen code lines constants f) :
      Rejected (.dict entries) f

/-- A document says what the record says that it has been read from. -/
structure Keeps (entries : List (Str × Value)) (code lines constants : List Value)
    (d : Document) : Prop where
  lists : HasLists entries code lines constants
  name : d.name = ((Value.lookup entries "name").map Value.plain).getD "chunk"
  isOpen : d.chunk.isSealed = false
  code_eq : d.chunk.code.map (fun b => Value.int b.toNat) = code
  lines_eq : d.chunk.lines.map Value.int = lines
  keptAs : List.Forall₂ KeptAs constants d.chunk.constants.toList
  /-- It is written as that record without other fields, but with those that were missing. -/
  written : (∀ v, Value.lookup entries "name" = some v → ∃ s, v = .str s) →
    (∀ i, Value.int i ∉ constants) →
    d.toValue = .dict [
      ("name", (Value.lookup entries "name").getD (.str "chunk")),
      ("code", .list code),
      ("lines", .list lines),
      ("constants", .list constants)]
  /-- Its file is read as the same document. -/
  reread : (∀ l, Value.int l ∈ lines → (Numeral.ofNat l.natAbs).length ≤ Numeral.maxDigits) →
    (∀ s, Value.lookup entries "name" = some (.str s) → Json.Joined s) →
    (∀ s, Value.str s ∈ constants → Json.Joined s) → ofBytes d.text.toUTF8 = .ok d

/-! ## Constants -/

section
variable {v w : Value}

theorem toConstant_eq_ok_iff_keptAs : v.toConstant = .ok w ↔ KeptAs v w := by
  rw [Value.toConstant_eq_ok_iff]
  constructor
  · rintro (⟨rfl, h⟩ | ⟨i, x, rfl, h, rfl⟩)
    · exact .lox h
    · exact .int h
  · intro h
    cases h with
    | lox h => exact .inl ⟨rfl, h⟩
    | int h => exact .inr ⟨_, _, rfl, h, rfl⟩

/-- Only whole numbers change. -/
theorem KeptAs.eq (h : KeptAs v w) (hv : ∀ i, v ≠ .int i) : w = v := by
  cases h with
  | lox _ => rfl
  | @int i _ _ => exact absurd rfl (hv i)

theorem exists_keptAs_iff : (∃ w, KeptAs v w) ↔ IsConstant v := by
  constructor
  · rintro ⟨w, h⟩
    cases h with
    | lox h => exact .inl h
    | int h =>
      refine .inr ⟨_, rfl, Nat.lt_of_not_le fun hle => ?_⟩
      rw [Binary64.ofInt?_eq_none_iff.mpr hle] at h
      cases h
  · rintro (h | ⟨i, rfl, hi⟩)
    · exact ⟨v, .lox h⟩
    · cases hx : Binary64.ofInt? i with
      | some x => exact ⟨.num x, .int hx⟩
      | none =>
        rw [Binary64.ofInt?_eq_none_iff] at hx
        omega

theorem exists_readConstant_iff : (∃ w, readConstant v = .ok w) ↔ IsConstant v := by
  simp only [readConstant_eq_ok_iff, toConstant_eq_ok_iff_keptAs, exists_keptAs_iff]

/-- A constant is refused as too large a number, or as a list or a record. -/
theorem readConstant_eq_fault_iff {f : Fault} : readConstant v = .error f ↔
    (v.Overflows ∧ f = .numberRange) ∨
      (((∃ items, v = .list items) ∨ ∃ entries, v = .dict entries) ∧
        f = .bytecode (.document (.constant v))) := by
  unfold readConstant
  cases v with
  | int i =>
    rw [Value.overflows_int_iff]
    simp only [Value.toConstant]
    cases Binary64.ofInt? i <;> simp [eq_comm]
  | nil | bool _ | num _ | str _ | list _ | dict _ =>
    have hnot {w : Value} (hw : ∀ i, w ≠ .int i) : ¬ w.Overflows := fun h => by
      cases h
      exact hw _ rfl
    simp [Value.toConstant, refuse, hnot, eq_comm]

theorem mapM_readConstant_eq_ok_iff {vs ws : List Value} :
    vs.mapM readConstant = .ok ws ↔ List.Forall₂ KeptAs vs ws := by
  simp only [mapM_eq_ok_iff, readConstant_eq_ok_iff, toConstant_eq_ok_iff_keptAs]

/-! ## Cells -/

variable {byte line : Value}

theorem readCell_eq_ok_iff {cell : Cell} : readCell byte line = .ok cell ↔
    byte = .int cell.byte.toNat ∧ line = .int cell.line := by
  constructor
  · intro h
    unfold readCell at h
    split at h
    · split at h
      · next b hb =>
        split at h
        · cases h
          have hlt : b.toNat < 256 := by omega
          refine ⟨congrArg Value.int ?_, rfl⟩
          rw [UInt8.toNat_ofNat_of_lt' hlt]
          omega
        · cases h
      · cases h
    · cases h
  · rintro ⟨rfl, rfl⟩
    exact readCell_cell cell

theorem exists_readCell_iff :
    (∃ cell, readCell byte line = .ok cell) ↔ IsByte byte ∧ IsLine line := by
  simp only [readCell_eq_ok_iff]
  constructor
  · rintro ⟨⟨b, l⟩, rfl, rfl⟩
    have hb := b.toNat_lt
    exact ⟨⟨b.toNat, rfl, by omega, by omega⟩, l, rfl⟩
  · rintro ⟨⟨b, rfl, h0, h255⟩, l, rfl⟩
    have hlt : b.toNat < 256 := by omega
    refine ⟨⟨UInt8.ofNat b.toNat, l⟩, congrArg Value.int ?_, rfl⟩
    rw [UInt8.toNat_ofNat_of_lt' hlt]
    omega

theorem readCell_of_not_isByte (h : ¬ IsByte byte) : readCell byte line = refuse (.byte byte) := by
  unfold readCell
  split
  · next b => rw [if_neg fun hb => h ⟨b, rfl, hb⟩]
  · rfl

theorem readCell_of_not_isLine (hb : IsByte byte) (h : ¬ IsLine line) :
    readCell byte line = refuse (.line line) := by
  obtain ⟨b, rfl, hb⟩ := hb
  unfold readCell
  dsimp only
  rw [if_pos hb]
  split
  · next l => exact absurd ⟨l, rfl⟩ h
  · rfl

/-- The byte is looked at before the line. -/
theorem readCell_eq_error_iff {f : Fault} : readCell byte line = .error f ↔
    (¬ IsByte byte ∧ f = .bytecode (.document (.byte byte))) ∨
      (IsByte byte ∧ ¬ IsLine line ∧ f = .bytecode (.document (.line line))) := by
  by_cases hb : IsByte byte
  · by_cases hl : IsLine line
    · obtain ⟨cell, hcell⟩ := exists_readCell_iff.mpr ⟨hb, hl⟩
      simp [hcell, hb, hl]
    · simp [readCell_of_not_isLine hb hl, refuse, hb, hl, eq_comm]
  · simp [readCell_of_not_isByte hb, refuse, hb, eq_comm]

end

/-! ## Chunks -/

section
variable {code lines constants : List Value} {c : Chunk} {f : Fault}

theorem readChunk_of_length (hlength : code.length = lines.length)
    (hsize : constants.length ≤ maxConstants) : readChunk code lines constants = do
      let constants ← constants.mapM readConstant
      let cells ← (code.zip lines).mapM fun pair => readCell pair.1 pair.2
      return { cells := cells.toArray, constants := constants.toArray } := by
  rw [readChunk_eq, if_neg (fun h => h hlength), if_neg (Nat.not_lt.mpr hsize)]

/-- What is read has passed the checks of the three lengths. -/
theorem length_of_readChunk (h : readChunk code lines constants = .ok c) :
    code.length = lines.length ∧ constants.length ≤ maxConstants := by
  rw [readChunk_eq] at h
  split at h
  · cases h
  · next hlength =>
    split at h
    · cases h
    · next hsize => exact ⟨Classical.not_not.mp hlength, Nat.le_of_not_lt hsize⟩

/-- The arrays are those of the chunk's code, lines and constants. -/
theorem readChunk_eq_ok_iff : readChunk code lines constants = .ok c ↔
    constants.length ≤ maxConstants ∧ List.Forall₂ KeptAs constants c.constants.toList ∧
      c.code.map (fun b => Value.int b.toNat) = code ∧ c.lines.map Value.int = lines ∧
      c.isSealed = false := by
  constructor
  · intro h
    obtain ⟨hlength, hsize⟩ := length_of_readChunk h
    rw [readChunk_of_length hlength hsize] at h
    simp only [bind_eq_ok_iff, mapM_readConstant_eq_ok_iff] at h
    obtain ⟨vs, hvs, cells, hcells, hc⟩ := h
    cases hc
    have hzip := eq_map_of_mapM_eq_ok
      (g := fun cell : Cell => (Value.int cell.byte.toNat, Value.int cell.line))
      (fun h => Prod.ext (readCell_eq_ok_iff.mp h).1 (readCell_eq_ok_iff.mp h).2) hcells
    refine ⟨hsize, hvs, ?_, ?_, rfl⟩
    · rw [← List.map_fst_zip (Nat.le_of_eq hlength), hzip]
      simp [Chunk.code]
    · rw [← List.map_snd_zip (Nat.le_of_eq hlength.symm), hzip]
      simp [Chunk.lines]
  · rintro ⟨hsize, hvs, rfl, rfl, hopen⟩
    have hcells : ((c.code.map fun b => Value.int b.toNat).zip (c.lines.map Value.int)).mapM
        (fun pair => readCell pair.1 pair.2) = .ok c.cells.toList := by
      rw [zip_cells]
      exact mapM_map_eq_ok fun cell _ => readCell_cell cell
    rw [readChunk_of_length (by simp) hsize]
    simp only [bind_eq_ok_iff, mapM_readConstant_eq_ok_iff]
    refine ⟨_, hvs, _, hcells, ?_⟩
    obtain ⟨cells, constants', isSealed⟩ := c
    obtain rfl : isSealed = false := hopen
    rfl

theorem forall_mem_zip_iff (hlength : code.length = lines.length) :
    (∀ p ∈ code.zip lines, IsByte p.1 ∧ IsLine p.2) ↔
      (∀ v ∈ code, IsByte v) ∧ ∀ v ∈ lines, IsLine v := by
  have hcode : (∀ p ∈ code.zip lines, IsByte p.1) ↔ ∀ v ∈ code, IsByte v := by
    rw [← List.forall_mem_map, List.map_fst_zip (Nat.le_of_eq hlength)]
  have hlines : (∀ p ∈ code.zip lines, IsLine p.2) ↔ ∀ v ∈ lines, IsLine v := by
    rw [← List.forall_mem_map, List.map_snd_zip (Nat.le_of_eq hlength.symm)]
  rw [← hcode, ← hlines]
  exact ⟨fun h => ⟨fun p hp => (h p hp).1, fun p hp => (h p hp).2⟩,
    fun h p hp => ⟨h.1 p hp, h.2 p hp⟩⟩

theorem exists_readChunk_iff :
    (∃ c, readChunk code lines constants = .ok c) ↔ WellFormed code lines constants := by
  have hitems (hlength : code.length = lines.length) (hsize : constants.length ≤ maxConstants) :
      (∃ c, readChunk code lines constants = .ok c) ↔
        (∀ v ∈ constants, IsConstant v) ∧ (∀ v ∈ code, IsByte v) ∧ ∀ v ∈ lines, IsLine v := by
    rw [← forall_mem_zip_iff hlength, readChunk_of_length hlength hsize]
    simp only [← exists_readConstant_iff, ← exists_readCell_iff]
    rw [← exists_mapM_eq_ok_iff, ← exists_mapM_eq_ok_iff]
    simp only [bind_eq_ok_iff]
    constructor
    · rintro ⟨c, vs, hvs, cells, hcells, -⟩
      exact ⟨⟨vs, hvs⟩, cells, hcells⟩
    · rintro ⟨⟨vs, hvs⟩, cells, hcells⟩
      exact ⟨_, vs, hvs, cells, hcells, rfl⟩
  constructor
  · rintro ⟨c, h⟩
    obtain ⟨hlength, hsize⟩ := length_of_readChunk h
    obtain ⟨hconstants, hcode, hlines⟩ := (hitems hlength hsize).mp ⟨c, h⟩
    exact ⟨hlength, hsize, hconstants, hcode, hlines⟩
  · intro h
    exact (hitems h.length h.size).mpr ⟨h.constants, h.code, h.lines⟩

theorem misshapen_of_error (hlength : code.length = lines.length)
    (hsize : constants.length ≤ maxConstants) (h : readChunk code lines constants = .error f) :
    Misshapen code lines constants f := by
  rw [readChunk_of_length hlength hsize, bind_eq_error_iff] at h
  rcases h with h | ⟨vs, hvs, h⟩
  · obtain ⟨before, v, after, hconstants, hbefore, hv⟩ := mapM_eq_error_iff.mp h
    simp only [exists_readConstant_iff] at hbefore
    rcases readConstant_eq_fault_iff.mp hv with ⟨hover, rfl⟩ | ⟨hform, rfl⟩
    · exact .overflow hlength hsize hconstants hbefore hover
    · exact .constant hlength hsize hconstants hbefore hform
  · have hall := exists_mapM_eq_ok_iff.mp ⟨vs, hvs⟩
    simp only [exists_readConstant_iff] at hall
    rcases bind_eq_error_iff.mp h with h | ⟨_, -, h⟩
    · obtain ⟨before, ⟨b, l⟩, after, hcells, hbefore, hcell⟩ := mapM_eq_error_iff.mp h
      simp only [exists_readCell_iff] at hbefore
      rcases readCell_eq_error_iff.mp hcell with ⟨hb, rfl⟩ | ⟨hb, hl, rfl⟩
      · exact .byte hlength hsize hall hcells hbefore hb
      · exact .line hlength hsize hall hcells hbefore hb hl
    · cases h

theorem readChunk_of_constant {before after : List Value} {v : Value}
    (hlength : code.length = lines.length) (hsize : constants.length ≤ maxConstants)
    (hconstants : constants = before ++ v :: after) (hbefore : ∀ w ∈ before, IsConstant w)
    (hv : readConstant v = .error f) : readChunk code lines constants = .error f := by
  simp only [← exists_readConstant_iff] at hbefore
  rw [readChunk_of_length hlength hsize]
  exact bind_eq_error_iff.mpr
    (.inl (mapM_eq_error_iff.mpr ⟨before, v, after, hconstants, hbefore, hv⟩))

theorem readChunk_of_cell {before after : List (Value × Value)} {b l : Value}
    (hlength : code.length = lines.length) (hsize : constants.length ≤ maxConstants)
    (hconstants : ∀ w ∈ constants, IsConstant w)
    (hcells : code.zip lines = before ++ (b, l) :: after)
    (hbefore : ∀ p ∈ before, IsByte p.1 ∧ IsLine p.2) (hcell : readCell b l = .error f) :
    readChunk code lines constants = .error f := by
  simp only [← exists_readConstant_iff] at hconstants
  simp only [← exists_readCell_iff] at hbefore
  obtain ⟨vs, hvs⟩ := exists_mapM_eq_ok hconstants
  have hfails := mapM_eq_error_iff.mpr ⟨before, (b, l), after, hcells, hbefore, hcell⟩
  rw [readChunk_of_length hlength hsize]
  exact bind_eq_error_iff.mpr (.inr ⟨vs, hvs, bind_eq_error_iff.mpr (.inl hfails)⟩)

/-- **Arrays.** They are refused for the first thing that is wrong with them. -/
theorem readChunk_eq_fault_iff :
    readChunk code lines constants = .error f ↔ Misshapen code lines constants f := by
  constructor
  · intro h
    by_cases hlength : code.length = lines.length
    · by_cases hsize : constants.length ≤ maxConstants
      · exact misshapen_of_error hlength hsize h
      · rw [readChunk_eq, if_neg (not_not_intro hlength), if_pos (Nat.lt_of_not_le hsize)] at h
        cases h
        exact .tooManyConstants hlength (Nat.lt_of_not_le hsize)
    · rw [readChunk_eq, if_pos hlength] at h
      cases h
      exact .lengths hlength
  · intro h
    cases h with
    | lengths h => rw [readChunk_eq, if_pos h, refuse]
    | tooManyConstants hlength h =>
      rw [readChunk_eq, if_neg (not_not_intro hlength), if_pos h, refuse]
    | constant hlength hsize hconstants hbefore hv =>
      exact readChunk_of_constant hlength hsize hconstants hbefore
        (readConstant_eq_fault_iff.mpr (.inr ⟨hv, rfl⟩))
    | overflow hlength hsize hconstants hbefore hv =>
      exact readChunk_of_constant hlength hsize hconstants hbefore
        (readConstant_eq_fault_iff.mpr (.inl ⟨hv, rfl⟩))
    | byte hlength hsize hconstants hcells hbefore hb =>
      exact readChunk_of_cell hlength hsize hconstants hcells hbefore
        (readCell_eq_error_iff.mpr (.inl ⟨hb, rfl⟩))
    | line hlength hsize hconstants hcells hbefore hb hl =>
      exact readChunk_of_cell hlength hsize hconstants hcells hbefore
        (readCell_eq_error_iff.mpr (.inr ⟨hb, hl, rfl⟩))

end

/-! ## Records -/

section
variable {entries : List (Str × Value)} {code lines constants : List Value} {v : Value}
  {d : Document} {f : Fault}

/-- A value that is no record of three arrays is refused for its fields. -/
theorem rejected_of_not_hasLists (h : ∀ entries code lines constants, v = .dict entries →
      ¬ HasLists entries code lines constants) : ∃ f, ofValue v = .error f ∧ Rejected v f := by
  unfold ofValue
  split
  · next entries =>
    split
    · next hcode => exact ⟨_, rfl, .noCode hcode⟩
    · next hcode hlines => exact ⟨_, rfl, .noLines hcode hlines⟩
    · next code lines hcode hlines =>
      split
      · next hconstants => exact absurd ⟨hcode, hlines, hconstants⟩ (h _ _ _ _ rfl)
      · exact ⟨_, rfl, .notArrays hcode hlines fun _ _ _ => h _ _ _ _ rfl⟩
  · next hdict => exact ⟨_, rfl, .notObject hdict⟩

theorem ofValue_of_rejected (h : Rejected v f) : ofValue v = .error f := by
  cases h with
  | notObject h =>
    unfold ofValue
    split
    · exact absurd rfl (h _)
    · rfl
  | noCode h =>
    unfold ofValue
    simp only [h]
    rfl
  | noLines hcode h =>
    unfold ofValue
    simp only [hcode, h]
    rfl
  | notArrays hcode hlines h =>
    unfold ofValue
    simp only [hcode, hlines]
    split
    · next hconstants => exact absurd ⟨hcode, hlines, hconstants⟩ (h _ _ _)
    · rfl
  | misshapen hlists h =>
    rw [ofValue_of_hasLists hlists, map_eq_error_iff]
    exact readChunk_eq_fault_iff.mpr h

/-- **Records.** A value that is no document is refused for the first thing that is wrong. -/
theorem ofValue_eq_fault_iff : ofValue v = .error f ↔ Rejected v f := by
  refine ⟨fun h => ?_, ofValue_of_rejected⟩
  by_cases hv : ∃ entries code lines constants, v = .dict entries ∧
      HasLists entries code lines constants
  · obtain ⟨entries, code, lines, constants, rfl, hlists⟩ := hv
    rw [ofValue_of_hasLists hlists, map_eq_error_iff] at h
    exact .misshapen hlists (readChunk_eq_fault_iff.mp h)
  · obtain ⟨g, hg, hrejected⟩ := rejected_of_not_hasLists fun _ _ _ _ hdict hlists =>
      hv ⟨_, _, _, _, hdict, hlists⟩
    cases h.symm.trans hg
    exact hrejected

/-- What is read is a record of three arrays, of which the chunk has been made. -/
theorem ofValue_eq_ok_iff : ofValue v = .ok d ↔ ∃ entries code lines constants,
    v = .dict entries ∧ HasLists entries code lines constants ∧
      readChunk code lines constants = .ok d.chunk ∧
      d.name = ((Value.lookup entries "name").map Value.plain).getD "chunk" := by
  constructor
  · intro h
    rcases ofValue_cases v with ⟨cause, hrefuse⟩ | ⟨entries, code, lines, constants, rfl, hlists⟩
    · rw [hrefuse] at h
      cases h
    · rw [ofValue_of_hasLists hlists] at h
      cases hread : readChunk code lines constants with
      | error f =>
        rw [hread] at h
        cases h
      | ok c =>
        rw [hread] at h
        cases h
        exact ⟨_, _, _, _, rfl, hlists, hread, rfl⟩
  · rintro ⟨entries, code, lines, constants, rfl, hlists, hread, hname⟩
    rw [ofValue_of_hasLists hlists, hread, ← hname]
    rfl

theorem exists_ofValue_iff : (∃ d, ofValue v = .ok d) ↔ Accepted v := by
  simp only [ofValue_eq_ok_iff]
  constructor
  · rintro ⟨d, entries, code, lines, constants, rfl, hlists, hread, -⟩
    exact .intro hlists (exists_readChunk_iff.mp ⟨_, hread⟩)
  · rintro ⟨hlists, h⟩
    obtain ⟨c, hread⟩ := exists_readChunk_iff.mpr h
    exact ⟨⟨_, c⟩, _, _, _, _, rfl, hlists, hread, rfl⟩

/-! ## Writing what has been read -/

theorem eq_of_keptAs {vs ws : List Value} (h : List.Forall₂ KeptAs vs ws)
    (hvs : ∀ i, Value.int i ∉ vs) : ws = vs := by
  induction h with
  | nil => rfl
  | cons hv _ ih =>
    simp only [List.mem_cons, not_or] at hvs
    rw [hv.eq fun i hi => (hvs i).1 hi.symm, ih fun i => (hvs i).2]

theorem str_mem_of_keptAs {vs ws : List Value} {s : Str} (h : List.Forall₂ KeptAs vs ws)
    (hs : Value.str s ∈ ws) : Value.str s ∈ vs := by
  induction h with
  | nil => cases hs
  | cons hv _ ih =>
    rcases List.mem_cons.mp hs with rfl | hs
    · cases hv
      exact List.mem_cons_self
    · exact List.mem_cons_of_mem _ (ih hs)

/-- Only strings can have surrogates to join. -/
theorem joined_name (h : ∀ s, Value.lookup entries "name" = some (.str s) → Json.Joined s) :
    Json.Joined (((Value.lookup entries "name").map Value.plain).getD "chunk") := by
  cases hv : Value.lookup entries "name" with
  | none => exact Json.joined_of_encodable (Str.encodable_ofChars _)
  | some v =>
    cases v with
    | str s => exact h s hv
    | nil | bool _ | int _ | num _ | list _ | dict _ =>
      exact Json.joined_of_encodable (Str.encodable_ofChars _)

/-- The file of a document is read as its record is. -/
theorem ofBytes_written (h : Json.Writable d.toValue) :
    ofBytes d.text.toUTF8 = ofValue d.toValue := by
  have hplain : Text.Plain (Json.write 0 d.toValue ++ ['\n']) :=
    (Json.plain_write _ 0).append (by decide)
  unfold ofBytes text
  rw [Text.ofBytes_of_plain hplain]
  dsimp only
  rw [ofText, Json.read, Json.readText_write h]
  rfl

theorem keeps_of_ofValue (h : ofValue v = .ok d) : ∃ entries code lines constants,
    v = .dict entries ∧ Keeps entries code lines constants d := by
  obtain ⟨entries, code, lines, constants, rfl, hlists, hread, hname⟩ := ofValue_eq_ok_iff.mp h
  obtain ⟨hsize, hkept, hcode, hlines, hopen⟩ := readChunk_eq_ok_iff.mp hread
  have hlox := loxPool_of_readChunk hread
  have hpool : d.chunk.constants.size ≤ maxConstants := by
    rwa [← Array.length_toList, ← hkept.length_eq]
  refine ⟨entries, code, lines, constants, rfl, hlists, hname, hopen, hcode, hlines, hkept, ?_, ?_⟩
  · intro hstr hint
    have hwritten : Value.str d.name = (Value.lookup entries "name").getD (.str "chunk") := by
      rw [hname]
      cases hv : Value.lookup entries "name" with
      | none => rfl
      | some v =>
        obtain ⟨s, rfl⟩ := hstr v hv
        rfl
    rw [toValue, hcode, hlines, eq_of_keptAs hkept hint, hwritten]
  · intro hdigits hstr hstrings
    have hsavable : Savable d := by
      refine ⟨?_, hlox, hpool, fun l hl => hdigits l ?_, fun s hs => hstrings s ?_⟩
      · rw [hname]
        exact joined_name hstr
      · rw [← hlines]
        exact List.mem_map_of_mem hl
      · exact str_mem_of_keptAs hkept hs
    have hopened : d.chunk.opened = d.chunk := by
      rw [Chunk.opened, ← hopen]
    rw [ofBytes_written (writable_toValue hsavable), ofValue_toValue hlox hpool, hopened]

theorem writable_of_hasLists (h : Json.Writable (.dict entries))
    (hlists : HasLists entries code lines constants) :
    Json.Writable (.list lines) ∧ Json.Writable (.list constants) := by
  refine ⟨h.lookup hlists.lines, ?_⟩
  have hconstants := hlists.constants
  cases hlookup : Value.lookup entries "constants" with
  | none =>
    rw [hlookup] at hconstants
    cases hconstants
    trivial
  | some w =>
    rw [hlookup] at hconstants
    cases hconstants
    exact h.lookup hlookup

/-- What is read from a value that can be written is read again from its own file. -/
theorem reread_of_writable (hv : Json.Writable v) (h : ofValue v = .ok d) :
    ofBytes d.text.toUTF8 = .ok d := by
  obtain ⟨entries, code, lines, constants, rfl, hkeeps⟩ := keeps_of_ofValue h
  obtain ⟨hlines, hconstants⟩ := writable_of_hasLists hv hkeeps.lists
  exact hkeeps.reread (fun _ hl => hlines.item hl) (fun _ hs => hv.lookup hs)
    fun _ hs => hconstants.item hs

end

/-- **Acceptance.** A value is read if it is a document, and what is read keeps what it says: it is
written as the same record, and read again from what is written, in any case if it has come from a
text. A value that is no document is refused for the first thing that is wrong with it. -/
theorem ofValue_accepts_exactly (v : Value) :
    ((∃ d, ofValue v = .ok d) ↔ Accepted v) ∧
      (∀ d, ofValue v = .ok d → ∃ entries code lines constants, v = .dict entries ∧
        Keeps entries code lines constants d) ∧
      (∀ d text, Json.read text = .ok v → ofValue v = .ok d → ofBytes d.text.toUTF8 = .ok d) ∧
      ∀ f, ofValue v = .error f ↔ Rejected v f :=
  ⟨exists_ofValue_iff, fun _ => keeps_of_ofValue,
    fun _ _ htext => reread_of_writable (Json.writable_of_read htext),
    fun _ => ofValue_eq_fault_iff⟩

/-- A record without a name, with a whole number for a constant and a field of its own. -/
theorem ofValue_accepts_exactly_whole_number :
    let v : Value := .dict [
      ("note", .nil),
      ("lines", .list [.int 7, .int (-7)]),
      ("constants", .list [.str "a", .int 12]),
      ("code", .list [.int 2, .int 255])]
    Accepted v ∧ ∃ d, ofValue v = .ok d ∧ ∃ entries code lines constants,
      v = .dict entries ∧ Keeps entries code lines constants d := by
  intro v
  have hv : Accepted v := by
    refine .intro ⟨rfl, rfl, rfl⟩ ⟨rfl, by decide, ?_, ?_, ?_⟩
    · have hnumber : IsConstant (.int 12) := .inr ⟨12, rfl, by decide +kernel⟩
      exact List.forall_mem_cons.mpr ⟨.inl trivial, List.forall_mem_singleton.mpr hnumber⟩
    · simp [IsByte]
    · simp [IsLine]
  obtain ⟨d, hd⟩ := (ofValue_accepts_exactly v).1.mpr hv
  exact ⟨hv, d, hd, (ofValue_accepts_exactly v).2.1 d hd⟩

/-- The pool is looked at before the code, and of the code the byte before its line. -/
example : let code := [.int 0, .bool true]
    let lines := [.int 1, .num .nan]
    readChunk code lines [.nil, .list []] = refuse (.constant (.list [])) ∧
      readChunk code lines [.nil] = refuse (.byte (.bool true)) := by
  decide

end LoxMachine.Document
