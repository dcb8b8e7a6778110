import LoxMachine.Proofs.Assembly.Faults

/-!
# Texts one after the other

A text is assembled line by line, and what a line finds of the lines before it is their chunk. So
a text that follows another one is assembled as it is on its own, but for two things: its constants
are counted on from those before them, which moves its operands and may exceed the pool, and its
lines are counted on as well.

    assemble (A ++ B) = .ok e → e.bytes = c.bytes ++ relocate c.constants.size d.bytes
    assemble (A ++ blank ++ B) = (assemble (A ++ B)).mapError (Fault.moved A.length blank.length)

`Joins` says all of it, and which fault is met first (assemble_append).
-/

namespace LoxMachine

/-- The code as numbers. -/
def Chunk.bytes (c : Chunk) : List Nat := c.code.map (·.toNat)

/-- The numbers of lines behind a given one go up. -/
def Fault.moved (last offset : Nat) : Fault → Fault
  | .bytecode (.line n cause) => .bytecode (.line (if n ≤ last then n else n + offset) cause)
  | f => f

namespace Assembly

open Text

/-- Adds `k` to the operand behind each tag of a constant. -/
def relocate (k : Nat) : List Nat → List Nat
  | [] => []
  | [b] => [b]
  | b :: i :: rest =>
    if b = Opcode.constant.tag.toNat then b :: (i + k) :: relocate k rest
    else b :: relocate k (i :: rest)

/-- How a text is assembled that consists of two. -/
structure Joins (A B : List (List Char)) : Prop where
  /-- A fault of the first text is one of the whole; it shows in a line before which there is none,
  and is reported with its number or is an overflow. -/
  first {f : Fault} (hA : assemble A = .error f) : assemble (A ++ B) = .error f ∧
    ∃ k c, k < A.length ∧ assemble (A.take k) = .ok c ∧ assemble (A.take (k + 1)) = .error f ∧
      (f = .numberRange ∨ ∃ cause, f = .bytecode (.line (k + 1 : Nat) cause))
  /-- Two chunks that share a pool. -/
  joined {c d : Chunk} (hA : assemble A = .ok c) (hB : assemble B = .ok d)
    (hpool : c.constants.size + d.constants.size ≤ maxConstants) :
    ∃ e, assemble (A ++ B) = .ok e ∧ e.isSealed = false ∧ e.lines = c.lines ++ d.lines ∧
      e.constants = c.constants ++ d.constants ∧
      e.bytes = c.bytes ++ relocate c.constants.size d.bytes
  /-- The line with the first constant that the pool has no room for. -/
  overfull {c d : Chunk} (hA : assemble A = .ok c) (hB : assemble B = .ok d)
    (hpool : maxConstants < c.constants.size + d.constants.size) :
    ∃ j b b', j < B.length ∧ assemble (B.take j) = .ok b ∧ assemble (B.take (j + 1)) = .ok b' ∧
      c.constants.size + b.constants.size = maxConstants ∧
      b'.constants.size = b.constants.size + 1 ∧
      assemble (A ++ B) = .error (.bytecode (.line (A.length + (j + 1) : Nat) .poolFull))
  /-- A fault of the second text, if there is room in the pool up to its line. -/
  second {c b : Chunk} {k : Nat} {cause : LineFault} (hA : assemble A = .ok c)
    (hB : assemble B = .error (.bytecode (.line (k + 1 : Nat) cause)))
    (hbefore : assemble (B.take k) = .ok b)
    (hpool : c.constants.size + b.constants.size < maxConstants) :
    assemble (A ++ B) = .error (.bytecode (.line (A.length + (k + 1) : Nat) cause))
  /-- Lines without a statement between the two. -/
  skipped {blank : List (List Char)} (hblank : ∀ raw ∈ blank, Blanks (beforeComment raw)) :
    assemble (A ++ blank ++ B) =
      (assemble (A ++ B)).mapError (Fault.moved A.length blank.length)

/-! ## Lines in order -/

section
variable {n : Nat} {c : Chunk}

theorem assembleFrom_append (A B : List (List Char)) :
    assembleFrom n c (A ++ B) = (do assembleFrom (n + A.length) (← assembleFrom n c A) B) := by
  induction A generalizing n c with
  | nil => rfl
  | cons raw A ih =>
    rw [List.cons_append]
    cases hline : appendLine c raw with
    | error e =>
      rw [assembleFrom_of_error hline, assembleFrom_of_error hline]
      rfl
    | ok d =>
      rw [assembleFrom_of_ok hline, assembleFrom_of_ok hline, ih, List.length_cons,
        Nat.add_right_comm n 1]
      rfl

/-- The first line that cannot be appended gives the fault. -/
theorem assembleFrom_eq_error_iff_exists {lines : List (List Char)} {f : Fault} :
    assembleFrom n c lines = .error f ↔ ∃ before raw after, lines = before ++ raw :: after ∧
      ∃ d e, assembleFrom n c before = .ok d ∧ appendLine d raw = .error e ∧
        f = e.atLine (n + before.length : Nat) := by
  induction lines generalizing n c with
  | nil => simp [assembleFrom]
  | cons line rest ih =>
    rw [exists_split_cons_iff]
    have hnone : assembleFrom n c [] = .ok c := rfl
    cases hline : appendLine c line with
    | error e =>
      rw [assembleFrom_of_error hline]
      simp [hnone, hline, assembleFrom_of_error hline, eq_comm]
    | ok d =>
      rw [assembleFrom_of_ok hline, ih]
      simp [hnone, hline, assembleFrom_of_ok hline, Int.add_assoc, Int.add_comm 1]

end

section
variable {lines A B : List (List Char)} {c d : Chunk} {f : Fault}

theorem assemble_append_eq (A B : List (List Char)) :
    assemble (A ++ B) = (do assembleFrom (1 + A.length) (← assemble A) B) :=
  assembleFrom_append A B

theorem assemble_eq_error_iff_exists :
    assemble lines = .error f ↔ ∃ before raw after, lines = before ++ raw :: after ∧
      ∃ d e, assemble before = .ok d ∧ appendLine d raw = .error e ∧
        f = e.atLine (before.length + 1 : Nat) := by
  unfold assemble
  simp only [assembleFrom_eq_error_iff_exists, Nat.add_comm 1]

theorem assemble_of_fault {before : List (List Char)} {raw : List Char} {e : LineError}
    (after : List (List Char)) (hbefore : assemble before = .ok c)
    (hraw : appendLine c raw = .error e) :
    assemble (before ++ raw :: after) = .error (e.atLine (before.length + 1 : Nat)) :=
  assemble_eq_error_iff_exists.mpr ⟨before, raw, after, rfl, c, e, hbefore, hraw, rfl⟩

/-- A fault of the first text is met first. -/
theorem assemble_append_of_error (hA : assemble A = .error f) :
    assemble (A ++ B) = .error f := by
  rw [assemble_append_eq, hA]
  rfl

theorem open_of_assembleFrom {n : Nat} (hc : c.isSealed = false)
    (hpool : c.constants.size ≤ maxConstants) (h : assembleFrom n c lines = .ok d) :
    d.isSealed = false ∧ d.constants.size ≤ maxConstants := by
  obtain ⟨program, -, hsize, rfl⟩ := (assembleFrom_eq_ok_iff hc hpool).mp h
  rw [Program.size_constants_extend]
  exact ⟨hc, hsize⟩

theorem open_of_assemble (h : assemble lines = .ok c) :
    c.isSealed = false ∧ c.constants.size ≤ maxConstants :=
  open_of_assembleFrom (c := {}) rfl (Nat.zero_le _) h

/-- A line's fault is its own, or an overflow. -/
theorem fault_of_appendLine {raw : List Char} {e : LineError} (hc : c.isSealed = false)
    (h : appendLine c raw = .error e) : e = .other .numberRange ∨ ∃ cause, e = .fault cause := by
  cases e with
  | fault cause => exact .inr ⟨cause, rfl⟩
  | other f =>
    obtain ⟨rfl, -⟩ := (appendLine_eq_other_iff hc).mp h
    exact .inl rfl

end

/-! ## A line in another chunk -/

section
variable {c : Chunk} {raw : List Char}

/-- While there is room, no statement fails, so that a fault is one of the line alone. -/
theorem appendLine_eq_error_iff_of_lt (hc : c.isSealed = false)
    (hroom : c.constants.size < maxConstants) {e : LineError} :
    appendLine c raw = .error e ↔ Statement.read raw = .error e := by
  unfold appendLine
  cases hr : Statement.read raw with
  | error e' => simp [bind, Except.bind]
  | ok r =>
    cases r with
    | none => simp [bind, Except.bind, pure, Except.pure]
    | some s =>
      have hone : (Program.constants [s]).length ≤ 1 := by
        obtain ⟨line, i⟩ := s
        cases i <;> simp [Program.constants]
      have happend : append c s = .ok (Program.extend c [s]) :=
        (append_eq_ok_iff hc (by omega)).mpr ⟨by omega, rfl⟩
      simp [bind, Except.bind, happend]

theorem appendLine_of_full (hfull : maxConstants ≤ c.constants.size) {line : Int} {v : Value}
    (hraw : Spells (beforeComment raw) ⟨line, .constant v⟩) :
    appendLine c raw = .error (.fault .poolFull) := by
  unfold appendLine
  rw [Statement.read_eq_some_iff.mpr hraw]
  exact appendConstant_of_le hfull v line

theorem appendLine_of_blanks (c : Chunk) (hraw : Blanks (beforeComment raw)) :
    appendLine c raw = .ok c := by
  unfold appendLine
  rw [Statement.read_eq_none_iff.mpr hraw]
  rfl

end

/-! ## Programs after one another -/

theorem SpellsProgram.append {A B : List (List Char)} {p q : List Statement}
    (hA : SpellsProgram A p) (hB : SpellsProgram B q) : SpellsProgram (A ++ B) (p ++ q) := by
  induction hA with
  | nil => exact hB
  | skip hraw _ ih => exact .skip hraw ih
  | cons hraw _ ih => exact .cons hraw ih

/-- Each constant of a program is spelled by a line. -/
theorem SpellsProgram.exists_constant {lines : List (List Char)} {q : List Statement}
    (h : SpellsProgram lines q) {k : Nat} (hk : k < (Program.constants q).length) :
    ∃ before raw after p line v, lines = before ++ raw :: after ∧ SpellsProgram before p ∧
      Spells (beforeComment raw) ⟨line, .constant v⟩ ∧ (Program.constants p).length = k := by
  induction h generalizing k with
  | nil => simp [Program.constants] at hk
  | skip hraw _ ih =>
    obtain ⟨before, raw, after, p, line, v, rfl, hp, hv, hlen⟩ := ih hk
    exact ⟨_ :: before, raw, after, p, line, v, rfl, .skip hraw hp, hv, hlen⟩
  | @cons raw rest s program hraw _ ih =>
    rw [Program.length_constants_cons] at hk
    by_cases hhere : k < (Program.constants [s]).length
    · obtain ⟨line, i⟩ := s
      cases i with
      | ret | negate => cases hhere
      | constant v =>
        obtain rfl : k = 0 := Nat.lt_one_iff.mp hhere
        exact ⟨[], raw, rest, [], line, v, rfl, .nil, hraw, rfl⟩
    · obtain ⟨before, raw, after, p, line, v, rfl, hp, hv, hlen⟩ :=
        ih (k := k - (Program.constants [s]).length) (by omega)
      refine ⟨_ :: before, raw, after, s :: p, line, v, rfl, .cons hraw hp, hv, ?_⟩
      rw [Program.length_constants_cons]
      omega

namespace Program

@[simp] theorem lines_chunk (p : List Statement) :
    (chunk p).lines = (cells 0 p).map (·.line) := by
  simp [chunk, extend, Chunk.lines]

@[simp] theorem bytes_chunk (p : List Statement) :
    (chunk p).bytes = (cells 0 p).map (·.byte.toNat) := by
  simp [chunk, extend, Chunk.bytes, Chunk.code]

@[simp] theorem constants_chunk (p : List Statement) :
    (chunk p).constants = (constants p).toArray := by
  simp [chunk, extend]

theorem size_constants_chunk (p : List Statement) :
    (chunk p).constants.size = (constants p).length := by
  rw [constants_chunk, List.size_toArray]

theorem map_line_cells (j k : Nat) (p : List Statement) :
    (cells j p).map (·.line) = (cells k p).map (·.line) := by
  induction p generalizing j k with
  | nil => rfl
  | cons s rest ih =>
    obtain ⟨line, i⟩ := s
    cases i with
    | ret | negate => exact congrArg (line :: ·) (ih j k)
    | constant v => exact congrArg (line :: line :: ·) (ih (j + 1) (k + 1))

end Program

theorem relocate_cons_of_ne {b : Nat} (hb : b ≠ Opcode.constant.tag.toNat) (k : Nat)
    (r : List Nat) : relocate k (b :: r) = b :: relocate k r := by
  cases r with
  | nil => rfl
  | cons i r => rw [relocate, if_neg hb]

theorem relocate_constant (k i : Nat) (r : List Nat) :
    relocate k (Opcode.constant.tag.toNat :: i :: r) =
      Opcode.constant.tag.toNat :: (i + k) :: relocate k r := by
  rw [relocate, if_pos rfl]

/-- Counting the constants on from `k` moves the operands by `k`. -/
theorem relocate_cells {j k : Nat} {p : List Statement}
    (h : j + k + (Program.constants p).length ≤ maxConstants) :
    (Program.cells (j + k) p).map (·.byte.toNat) =
      relocate k ((Program.cells j p).map (·.byte.toNat)) := by
  have hmax : maxConstants = 256 := rfl
  induction p generalizing j with
  | nil => rfl
  | cons s rest ih =>
    obtain ⟨line, i⟩ := s
    cases i with
    | ret | negate =>
      simp only [Program.cells, List.map_cons]
      rw [relocate_cons_of_ne (by decide), ih h]
    | constant v =>
      simp only [Program.constants, List.length_cons] at h
      have hlow : (UInt8.ofNat j).toNat = j := UInt8.toNat_ofNat_of_lt' (show j < 256 by omega)
      have hhigh : (UInt8.ofNat (j + k)).toNat = j + k :=
        UInt8.toNat_ofNat_of_lt' (show j + k < 256 by omega)
      simp only [Program.cells, List.map_cons]
      rw [relocate_constant, Nat.add_right_comm, ih (by omega), hlow, hhigh]

/-! ## Numbers of lines -/

theorem moved_atLine {e : LineError} (he : e = .other .numberRange ∨ ∃ cause, e = .fault cause)
    {last : Nat} (offset n : Nat) :
    Fault.moved last offset (e.atLine n) = e.atLine (if n ≤ last then n else n + offset : Nat) := by
  rcases he with rfl | ⟨cause, rfl⟩
  · rfl
  · show Fault.bytecode (.line (if (n : Int) ≤ last then (n : Int) else n + offset) cause) = _
    by_cases h : n ≤ last
    · rw [if_pos h, if_pos (by omega)]
      rfl
    · rw [if_neg h, if_neg (by omega)]
      rfl

section
variable {last offset n : Nat} {c : Chunk} {lines : List (List Char)} (hc : c.isSealed = false)
  (hpool : c.constants.size ≤ maxConstants)

include hc hpool

/-- Lines up to the last one keep their numbers. -/
theorem mapError_moved_of_le (hlast : n + lines.length ≤ last + 1) :
    (assembleFrom n c lines).mapError (Fault.moved last offset) = assembleFrom n c lines := by
  cases h : assembleFrom n c lines with
  | ok d => rfl
  | error f =>
    obtain ⟨before, raw, after, rfl, d, e, hbefore, hraw, rfl⟩ :=
      assembleFrom_eq_error_iff_exists.mp h
    obtain ⟨hd, -⟩ := open_of_assembleFrom hc hpool hbefore
    rw [List.length_append, List.length_cons] at hlast
    show Except.error (Fault.moved last offset (e.atLine _)) = _
    rw [moved_atLine (fault_of_appendLine hd hraw), if_pos (by omega)]

/-- Lines that follow count on. -/
theorem assembleFrom_add (hlast : last < n) :
    assembleFrom (n + offset) c lines =
      (assembleFrom n c lines).mapError (Fault.moved last offset) := by
  induction lines generalizing n c with
  | nil => rfl
  | cons raw rest ih =>
    cases hline : appendLine c raw with
    | error e =>
      rw [assembleFrom_of_error hline, assembleFrom_of_error hline]
      show _ = Except.error (Fault.moved last offset (e.atLine _))
      rw [moved_atLine (fault_of_appendLine hc hline), if_neg (by omega)]
    | ok d =>
      obtain ⟨hd, hdpool⟩ := open_of_appendLine hc hpool hline
      rw [assembleFrom_of_ok hline, assembleFrom_of_ok hline, Nat.add_right_comm]
      exact ih hd hdpool (by omega)

end

theorem assembleFrom_of_blanks {n : Nat} {c : Chunk} {blank : List (List Char)}
    (h : ∀ raw ∈ blank, Blanks (beforeComment raw)) : assembleFrom n c blank = .ok c := by
  induction blank generalizing n with
  | nil => rfl
  | cons raw rest ih =>
    have hraw := appendLine_of_blanks c (h raw List.mem_cons_self)
    rw [assembleFrom_of_ok hraw]
    exact ih fun r hr => h r (List.mem_cons_of_mem raw hr)

/-! ## Two texts -/

section
variable {A B : List (List Char)} {c d : Chunk}

theorem assemble_joined (hA : assemble A = .ok c) (hB : assemble B = .ok d)
    (hpool : c.constants.size + d.constants.size ≤ maxConstants) :
    ∃ e, assemble (A ++ B) = .ok e ∧ e.isSealed = false ∧ e.lines = c.lines ++ d.lines ∧
      e.constants = c.constants ++ d.constants ∧
      e.bytes = c.bytes ++ relocate c.constants.size d.bytes := by
  obtain ⟨p, hp, -, rfl⟩ := assemble_eq_ok_iff.mp hA
  obtain ⟨q, hq, -, rfl⟩ := assemble_eq_ok_iff.mp hB
  rw [Program.size_constants_chunk, Program.size_constants_chunk] at hpool
  refine ⟨Program.chunk (p ++ q), ?_, rfl, ?_, ?_, ?_⟩
  · refine assemble_eq_ok_iff.mpr ⟨p ++ q, hp.append hq, ?_, rfl⟩
    rw [Program.constants_append, List.length_append]
    exact hpool
  · rw [Program.lines_chunk, Program.lines_chunk, Program.lines_chunk, Program.cells_append,
      List.map_append]
    exact congrArg _ (Program.map_line_cells _ _ q)
  · simp [Program.constants_append]
  · have hmoved := relocate_cells (j := 0) (k := (Program.constants p).length) (p := q) (by omega)
    rw [Program.bytes_chunk, Program.bytes_chunk, Program.bytes_chunk,
      Program.size_constants_chunk, Program.cells_append, List.map_append, hmoved]

/-- As far as the pool has room, the first text goes on with lines of the second. -/
theorem exists_assemble_append (hA : assemble A = .ok c) (hB : assemble B = .ok d)
    (hpool : c.constants.size + d.constants.size ≤ maxConstants) :
    ∃ e, assemble (A ++ B) = .ok e ∧
      e.constants.size = c.constants.size + d.constants.size := by
  obtain ⟨e, he, -, -, hconstants, -⟩ := assemble_joined hA hB hpool
  refine ⟨e, he, ?_⟩
  rw [hconstants, Array.size_append]

theorem assemble_overfull (hA : assemble A = .ok c) (hB : assemble B = .ok d)
    (hpool : maxConstants < c.constants.size + d.constants.size) :
    ∃ j b b', j < B.length ∧ assemble (B.take j) = .ok b ∧ assemble (B.take (j + 1)) = .ok b' ∧
      c.constants.size + b.constants.size = maxConstants ∧
      b'.constants.size = b.constants.size + 1 ∧
      assemble (A ++ B) = .error (.bytecode (.line (A.length + (j + 1) : Nat) .poolFull)) := by
  obtain ⟨q, hq, hsize, rfl⟩ := assemble_eq_ok_iff.mp hB
  obtain ⟨-, hc⟩ := open_of_assemble hA
  rw [Program.size_constants_chunk] at hpool
  obtain ⟨before, raw, after, p, line, v, rfl, hp, hv, hlength⟩ :=
    hq.exists_constant (k := maxConstants - c.constants.size) (by omega)
  have hone : (Program.constants (p ++ [⟨line, .constant v⟩])).length =
      (Program.constants p).length + 1 := by
    rw [Program.constants_append, List.length_append]
    rfl
  have hbefore : assemble before = .ok (Program.chunk p) :=
    assemble_eq_ok_iff.mpr ⟨p, hp, by omega, rfl⟩
  have hraw : assemble (before ++ [raw]) = .ok (Program.chunk (p ++ [⟨line, .constant v⟩])) :=
    assemble_eq_ok_iff.mpr ⟨_, hp.append (.cons hv .nil), by omega, rfl⟩
  obtain ⟨e, he, hfull⟩ := exists_assemble_append hA hbefore (by
    rw [Program.size_constants_chunk]
    omega)
  rw [Program.size_constants_chunk] at hfull
  refine ⟨before.length, Program.chunk p, Program.chunk (p ++ [⟨line, .constant v⟩]), ?_, ?_, ?_,
    ?_, ?_, ?_⟩
  · simp
  · rw [List.take_left]
    exact hbefore
  · rw [List.take_length_add_append]
    exact hraw
  · rw [Program.size_constants_chunk]
    omega
  · rw [Program.size_constants_chunk, Program.size_constants_chunk, hone]
  · have hfault := assemble_of_fault after he (appendLine_of_full (by omega) hv)
    rw [← List.append_assoc, hfault, List.length_append]
    rfl

/-- Up to the fault of a text there is a part of it that is assembled. -/
theorem exists_take_of_error {f : Fault} (hA : assemble A = .error f) :
    ∃ k c, k < A.length ∧ assemble (A.take k) = .ok c ∧ assemble (A.take (k + 1)) = .error f ∧
      (f = .numberRange ∨ ∃ cause, f = .bytecode (.line (k + 1 : Nat) cause)) := by
  obtain ⟨before, raw, after, rfl, c, e, hbefore, hraw, rfl⟩ := assemble_eq_error_iff_exists.mp hA
  obtain ⟨hc, -⟩ := open_of_assemble hbefore
  refine ⟨before.length, c, ?_, ?_, ?_, ?_⟩
  · simp
  · rw [List.take_left]
    exact hbefore
  · rw [List.take_length_add_append]
    exact assemble_of_fault [] hbefore hraw
  · rcases fault_of_appendLine hc hraw with rfl | ⟨cause, rfl⟩
    · exact .inl rfl
    · exact .inr ⟨cause, rfl⟩

theorem assemble_second {b : Chunk} {k : Nat} {cause : LineFault} (hA : assemble A = .ok c)
    (hB : assemble B = .error (.bytecode (.line (k + 1 : Nat) cause)))
    (hbefore : assemble (B.take k) = .ok b)
    (hpool : c.constants.size + b.constants.size < maxConstants) :
    assemble (A ++ B) = .error (.bytecode (.line (A.length + (k + 1) : Nat) cause)) := by
  obtain ⟨before, raw, after, rfl, b', e, hb', hraw, hf⟩ := assemble_eq_error_iff_exists.mp hB
  obtain ⟨hopen, -⟩ := open_of_assemble hb'
  rcases fault_of_appendLine hopen hraw with rfl | ⟨cause', rfl⟩
  · cases hf
  change Fault.bytecode (.line (k + 1 : Nat) cause) =
    .bytecode (.line (before.length + 1 : Nat) cause') at hf
  obtain ⟨hn, rfl⟩ := BytecodeFault.line.inj (Fault.bytecode.inj hf)
  obtain rfl : k = before.length := by omega
  rw [List.take_left] at hbefore
  obtain rfl : b' = b := Except.ok.inj (hb'.symm.trans hbefore)
  -- the line fails by itself, and so it does after the first text
  have hread := (appendLine_eq_error_iff_of_lt hopen (by omega)).mp hraw
  obtain ⟨e, he, hsize⟩ := exists_assemble_append hA hbefore (by omega)
  obtain ⟨heopen, -⟩ := open_of_assemble he
  have hfault := assemble_of_fault after he
    ((appendLine_eq_error_iff_of_lt heopen (by omega)).mpr hread)
  rw [← List.append_assoc, hfault, List.length_append]
  rfl

theorem assemble_skipped {blank : List (List Char)}
    (hblank : ∀ raw ∈ blank, Blanks (beforeComment raw)) : assemble (A ++ blank ++ B) =
      (assemble (A ++ B)).mapError (Fault.moved A.length blank.length) := by
  have hfirst : (assemble A).mapError (Fault.moved A.length blank.length) = assemble A :=
    mapError_moved_of_le rfl (Nat.zero_le _) (by omega)
  rw [List.append_assoc, assemble_append_eq, assemble_append_eq]
  cases hA : assemble A with
  | error f =>
    rw [hA] at hfirst
    exact hfirst.symm
  | ok c =>
    obtain ⟨hc, hpool⟩ := open_of_assemble hA
    show assembleFrom (1 + A.length) c (blank ++ B) =
      (assembleFrom (1 + A.length) c B).mapError (Fault.moved A.length blank.length)
    rw [assembleFrom_append, assembleFrom_of_blanks hblank]
    exact assembleFrom_add hc hpool (by omega)

/-- **Composition.** Two texts are assembled as one. -/
theorem assemble_append (A B : List (List Char)) : Joins A B where
  first hA := ⟨assemble_append_of_error hA, exists_take_of_error hA⟩
  joined := assemble_joined
  overfull := assemble_overfull
  second := assemble_second
  skipped := assemble_skipped

/-- Two constants: the second one's operand is moved by one. -/
theorem assemble_append_two_constants :
    assemble ["1 OP_CONSTANT 'a'".toList] =
        .ok { cells := #[⟨2, 1⟩, ⟨0, 1⟩], constants := #[.str "a"] } ∧
      assemble ["# b".toList, "7 OP_CONSTANT 'b'".toList, "7 OP_RETURN".toList] =
        .ok { cells := #[⟨2, 7⟩, ⟨0, 7⟩, ⟨0, 7⟩], constants := #[.str "b"] } ∧
      ∃ e, assemble ["1 OP_CONSTANT 'a'".toList, "# b".toList, "7 OP_CONSTANT 'b'".toList,
          "7 OP_RETURN".toList] = .ok e ∧
        e.bytes = [2, 0, 2, 1, 0] ∧ e.lines = [1, 1, 7, 7, 7] := by
  have hA : assemble ["1 OP_CONSTANT 'a'".toList] =
      .ok { cells := #[⟨2, 1⟩, ⟨0, 1⟩], constants := #[.str "a"] } := by
    decide +kernel
  have hB : assemble ["# b".toList, "7 OP_CONSTANT 'b'".toList, "7 OP_RETURN".toList] =
      .ok { cells := #[⟨2, 7⟩, ⟨0, 7⟩, ⟨0, 7⟩], constants := #[.str "b"] } := by
    decide +kernel
  obtain ⟨e, he, -, hlines, -, hbytes⟩ := (assemble_append _ _).joined hA hB (by decide)
  exact ⟨hA, hB, e, he, hbytes.trans (by decide), hlines.trans (by decide)⟩

end

end Assembly
end LoxMachine
