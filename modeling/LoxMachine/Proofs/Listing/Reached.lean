import LoxMachine.Proofs.Decoding

/-!
# Reached entries

A listing goes from entry to entry until the code is over or an entry cannot be shown. `reached`
are the entries up to there: unlike `entries`, which fails as a whole, they are there for all code.

    entries c = .ok es → reached c = es                                   (reached_of_entries)
-/

namespace LoxMachine.Listing

/-! ## Algorithm -/

/-- The entries from an offset on, as far as they can be shown. -/
def reachedFrom (c : Chunk) (offset : Int) : List Entry :=
  if hlt : offset < c.size then
    match h : entry c offset with
    | .error _ => []
    | .ok e =>
      have := lt_next h hlt
      e :: reachedFrom c e.next
  else []
termination_by (c.size - offset).toNat

def reached (c : Chunk) : List Entry := reachedFrom c 0

/-! ## Lemmas -/

theorem reachedFrom_of_size_le {c : Chunk} {offset : Int} (h : c.size ≤ offset) :
    reachedFrom c offset = [] := by
  rw [reachedFrom, dif_neg (by omega)]

theorem reachedFrom_of_error {c : Chunk} {offset : Int} {f : Fault}
    (h : entry c offset = .error f) : reachedFrom c offset = [] := by
  rw [reachedFrom]
  split
  · split
    · rfl
    · next h' =>
      rw [h] at h'
      cases h'
  · rfl

theorem reachedFrom_of_entry {c : Chunk} {offset : Int} {e : Entry} (hlt : offset < c.size)
    (h : entry c offset = .ok e) : reachedFrom c offset = e :: reachedFrom c e.next := by
  rw [reachedFrom, dif_pos hlt]
  split
  · next h' =>
    rw [h] at h'
    cases h'
  · next h' =>
    rw [h] at h'
    cases h'
    rfl

/-- Entries that a listing of the whole has are reached. -/
theorem reachedFrom_of_entriesFrom {c : Chunk} {offset : Int} {es : List Entry}
    (h : entriesFrom c offset = .ok es) : reachedFrom c offset = es := by
  induction offset using reachedFrom.induct (c := c) generalizing es with
  | case1 offset hlt f hf =>
    rw [entriesFrom, dif_pos hlt] at h
    split at h
    · cases h
    · next h' =>
      rw [hf] at h'
      cases h'
  | case2 offset hlt e he hnext ih =>
    rw [entriesFrom, dif_pos hlt] at h
    split at h
    · cases h
    · next e' h' =>
      rw [he] at h'
      cases h'
      rw [reachedFrom_of_entry hlt he]
      cases hrest : entriesFrom c e.next with
      | error f =>
        rw [hrest] at h
        cases h
      | ok rest =>
        rw [hrest] at h
        cases h
        rw [ih hrest]
  | case3 offset hlt =>
    rw [entriesFrom, dif_neg hlt] at h
    cases h
    exact reachedFrom_of_size_le (by omega)

theorem reached_of_entries {c : Chunk} {es : List Entry} (h : entries c = .ok es) :
    reached c = es :=
  reachedFrom_of_entriesFrom h

/-- A listing that fails does so at an entry. -/
theorem exists_entry_of_entriesFrom {c : Chunk} {offset : Int} {f : Fault}
    (h : entriesFrom c offset = .error f) :
    ∃ o, offset ≤ o ∧ o < c.size ∧ entry c o = .error f := by
  induction offset using reachedFrom.induct (c := c) with
  | case1 offset hlt f' hf =>
    rw [entriesFrom, dif_pos hlt] at h
    split at h
    · next h' =>
      cases h
      exact ⟨offset, Int.le_refl _, hlt, h'⟩
    · next h' =>
      rw [hf] at h'
      cases h'
  | case2 offset hlt e he hnext ih =>
    rw [entriesFrom, dif_pos hlt] at h
    split at h
    · next h' =>
      rw [he] at h'
      cases h'
    · next e' h' =>
      rw [he] at h'
      cases h'
      cases hrest : entriesFrom c e.next with
      | error f' =>
        rw [hrest] at h
        cases h
        obtain ⟨o, hle, hlt', ho⟩ := ih hrest
        exact ⟨o, by omega, hlt', ho⟩
      | ok rest =>
        rw [hrest] at h
        cases h
  | case3 offset hlt =>
    rw [entriesFrom, dif_neg hlt] at h
    cases h

/-- What a listing of a pool of values that programs compute with can fail for is the bytecode. -/
theorem exists_cause_of_entries {c : Chunk} (hp : c.LoxPool) {f : Fault}
    (h : entries c = .error f) : ∃ cause, f = .bytecode cause := by
  obtain ⟨o, hle, hlt, ho⟩ := exists_entry_of_entriesFrom h
  obtain ⟨o, rfl⟩ := Int.eq_ofNat_of_zero_le hle
  obtain ⟨i, -, hf⟩ := badIndex_of_entry hp (by omega) ho
  exact ⟨_, hf⟩

/-- Sealing a chunk changes nothing of what is reached. -/
theorem reachedFrom_toSealed (c : Chunk) (offset : Int) :
    reachedFrom c.toSealed offset = reachedFrom c offset := by
  have hentry (o : Int) : entry c.toSealed o = entry c o := rfl
  induction offset using reachedFrom.induct (c := c) with
  | case1 offset hlt f hf =>
    rw [reachedFrom_of_error hf, reachedFrom_of_error (by rw [hentry, hf])]
  | case2 offset hlt e he hnext ih =>
    rw [reachedFrom_of_entry hlt he, reachedFrom_of_entry (c := c.toSealed) hlt he, ih]
  | case3 offset hlt =>
    have hsize : (c.size : Int) ≤ offset := by omega
    rw [reachedFrom_of_size_le hsize, reachedFrom_of_size_le (c := c.toSealed) hsize]

theorem reached_toSealed (c : Chunk) : reached c.toSealed = reached c := reachedFrom_toSealed c 0

/-- The entry itself, for what an offset decodes to. -/
def entryOf (c : Chunk) (o : Nat) (b : Body) : Entry :=
  ⟨o, c.shownLine o, b, (c.decode o).next c.size o⟩

theorem reachedFrom_eq {c : Chunk} (hp : c.LoxPool) (o : Nat) :
    reachedFrom c o = match (c.decode o).body c.constants.size with
      | .error _ => []
      | .ok b => entryOf c o b :: reachedFrom c ((c.decode o).next c.size o) := by
  have he := entry_eq hp o
  cases hb : (c.decode o).body c.constants.size with
  | error f =>
    rw [hb] at he
    exact reachedFrom_of_error he
  | ok b =>
    rw [hb] at he
    have hlt : o < c.size := Chunk.lt_size_of_decode (by
      intro hd
      rw [hd] at hb
      cases hb)
    exact reachedFrom_of_entry (by omega) he

theorem offset_of_entry {c : Chunk} {offset : Int} {e : Entry} (h : entry c offset = .ok e) :
    e.offset = offset := (entry_cases h).1

/-- No entry begins before the offset from which a listing goes on. -/
theorem le_offset_of_mem {c : Chunk} {offset : Int} {e : Entry} (he : e ∈ reachedFrom c offset) :
    offset ≤ e.offset := by
  induction offset using reachedFrom.induct (c := c) with
  | case1 offset hlt f hf =>
    rw [reachedFrom_of_error hf] at he
    cases he
  | case2 offset hlt e' he' hnext ih =>
    rw [reachedFrom_of_entry hlt he'] at he
    rcases List.mem_cons.mp he with rfl | he
    · exact Int.le_of_eq (offset_of_entry he').symm
    · have := ih he
      have := lt_next he' hlt
      omega
  | case3 offset hlt =>
    rw [reachedFrom_of_size_le (by omega)] at he
    cases he

end LoxMachine.Listing
