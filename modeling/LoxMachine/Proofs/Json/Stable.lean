import LoxMachine.Proofs.Json.Scalar
import LoxMachine.Proofs.Traversal

/-!
# What is read can be written

A text makes values of a certain form only: its whole numbers are not too long, its strings are
joined and its records name each key once. So a value that has been read is written as a text that
is read as the same value, whatever the first text looked like.

    read text = .ok v → Writable v                                           (writable_of_read)
-/

namespace LoxMachine.Json

open Numeral

/-! ## Records -/

theorem writableEntries_iff {es : List (Str × Value)} :
    WritableEntries es ↔ ∀ e ∈ es, Joined e.1 ∧ Writable e.2 := by
  induction es with
  | nil => simp [WritableEntries]
  | cons e es ih => simp [WritableEntries, ih, and_assoc]

theorem Writable.item {vs : List Value} {v : Value} (h : Writable (.list vs)) (hv : v ∈ vs) :
    Writable v :=
  writableItems_iff.mp h v hv

theorem Writable.lookup {es : List (Str × Value)} {key : Str} {v : Value}
    (h : Writable (.dict es)) (hv : Value.lookup es key = some v) : Writable v := by
  obtain ⟨before, after, rfl, -⟩ := List.lookup_eq_some_iff.mp hv
  exact (writableEntries_iff.mp h.2 (key, v) (by simp)).2

/-- A record names each key once and holds what can be written. -/
structure IsRecord (es : List (Str × Value)) : Prop where
  nodup : (es.map Prod.fst).Nodup
  entries : WritableEntries es

theorem mem_setEntry {key : Str} {v : Value} {es : List (Str × Value)} {e : Str × Value}
    (h : e ∈ setEntry key v es) : e = (key, v) ∨ e ∈ es := by
  induction es with
  | nil => exact .inl (List.mem_singleton.mp h)
  | cons e' es ih =>
    obtain ⟨k, w⟩ := e'
    unfold setEntry at h
    split at h
    · next hk =>
      subst hk
      exact (List.mem_cons.mp h).imp_right (List.mem_cons_of_mem _)
    · rcases List.mem_cons.mp h with rfl | h
      · exact .inr List.mem_cons_self
      · exact (ih h).imp_right (List.mem_cons_of_mem _)

theorem map_fst_setEntry {key : Str} {v : Value} {es : List (Str × Value)}
    (h : key ∈ es.map Prod.fst) : (setEntry key v es).map Prod.fst = es.map Prod.fst := by
  induction es with
  | nil => cases h
  | cons e es ih =>
    obtain ⟨k, w⟩ := e
    by_cases hk : k = key
    · rw [setEntry, if_pos hk]
      rfl
    · have hmem : key ∈ es.map Prod.fst := (List.mem_cons.mp h).resolve_left (Ne.symm hk)
      rw [setEntry, if_neg hk, List.map_cons, ih hmem]
      rfl

theorem IsRecord.setEntry {key : Str} {v : Value} {es : List (Str × Value)} (h : IsRecord es)
    (hkey : Joined key) (hv : Writable v) : IsRecord (setEntry key v es) := by
  constructor
  · by_cases hmem : key ∈ es.map Prod.fst
    · rw [map_fst_setEntry hmem]
      exact h.nodup
    · rw [setEntry_of_notMem hmem, List.map_append, List.nodup_append]
      refine ⟨h.nodup, List.pairwise_singleton _ key, fun k hk k' hk' => ?_⟩
      rintro rfl
      rw [List.mem_singleton.mp hk'] at hk
      exact hmem hk
  · rw [writableEntries_iff]
    intro e he
    rcases mem_setEntry he with rfl | he
    · exact ⟨hkey, hv⟩
    · exact writableEntries_iff.mp h.entries e he

/-- Whatever the entries that are read, their record names each key once. -/
theorem isRecord_record {es : List (Str × Value)} (h : WritableEntries es) :
    IsRecord (record es) := by
  have hfold (es : List (Str × Value)) : ∀ done, IsRecord done → WritableEntries es →
      IsRecord (es.foldl (fun es e => Json.setEntry e.1 e.2 es) done) := by
    induction es with
    | nil => exact fun done hdone _ => hdone
    | cons e es ih =>
      intro done hdone hes
      exact ih _ (hdone.setEntry hes.1 hes.2.1) hes.2.2
  exact hfold es [] ⟨List.nodup_nil, trivial⟩ h

/-! ## Values -/

theorem length_ofNat_toNat {ds : List Char} (h : Digits ds) (hne : ds ≠ []) :
    (ofNat (toNat ds)).length ≤ ds.length := by
  have hpos : 0 < ds.length := List.length_pos_iff.mpr hne
  exact (Nat.length_toDigits_le_iff (by decide) hpos).mpr (toNat_lt h)

theorem writable_of_scalar {s : List Char} {v : Value} (h : Scalar s v) : Writable v := by
  cases h with
  | word h =>
    simp only [words, List.mem_cons, List.not_mem_nil, or_false] at h
    rcases h with h | h | h | h | h | h
    all_goals
      cases h
      trivial
  | string => exact joined_joinPieces _
  | float => trivial
  | whole h hn hdigits =>
    obtain ⟨hwhole, -, -⟩ := h
    rename_i negative whole _ _ _ _
    have habs : (if negative then -(toNat whole : Int) else toNat whole).natAbs = toNat whole := by
      split <;> omega
    show (ofNat (Int.natAbs _)).length ≤ maxDigits
    rw [habs]
    exact (length_ofNat_toNat hwhole.digits hwhole.ne_nil).trans hdigits

theorem joined_of_readString {s r : List Char} {t : Str} (h : readString s = .ok (t, r)) :
    Joined t := by
  obtain ⟨⟨ps, rest⟩, -, heq⟩ := bind_eq_ok_iff.mp h
  cases heq
  exact joined_joinPieces ps

/-- A depth at which whatever is read can be written. -/
structure MakesWritable (depth : Nat) : Prop where
  value : ∀ {s r v}, readValue depth s = .ok (v, r) → Writable v
  items : ∀ {s r vs}, readItems depth s = .ok (vs, r) → WritableItems vs
  entries : ∀ {s r es}, readEntries depth s = .ok (es, r) → WritableEntries es

section
variable {depth : Nat} {s r : List Char}

theorem MakesWritable.value_succ (hd : MakesWritable depth) {v : Value}
    (h : readValue (depth + 1) s = .ok (v, r)) : Writable v := by
  rw [readValue.eq_def] at h
  dsimp only at h
  split at h
  · obtain ⟨⟨t, rest⟩, ht, heq⟩ := bind_eq_ok_iff.mp h
    cases heq
    exact joined_of_readString ht
  · split at h
    · cases h
      trivial
    · obtain ⟨⟨vs, rest⟩, hvs, heq⟩ := bind_eq_ok_iff.mp h
      cases heq
      exact hd.items hvs
  · split at h
    · cases h
      exact ⟨List.nodup_nil, trivial⟩
    · obtain ⟨⟨es, rest⟩, hes, heq⟩ := bind_eq_ok_iff.mp h
      cases heq
      have hrecord := isRecord_record (hd.entries hes)
      exact ⟨hrecord.nodup, hrecord.entries⟩
  · obtain ⟨t, ht, -⟩ := exists_scalar_of_readPlain h
    exact writable_of_scalar ht

theorem MakesWritable.items_succ (hd : MakesWritable depth) {vs : List Value}
    (h : readItems (depth + 1) s = .ok (vs, r)) : WritableItems vs := by
  rw [readItems] at h
  obtain ⟨⟨v, u⟩, hv, hrest⟩ := bind_eq_ok_iff.mp h
  dsimp only at hrest
  split at hrest
  · cases hrest
    exact ⟨hd.value hv, trivial⟩
  · obtain ⟨⟨ws, rest⟩, hws, heq⟩ := bind_eq_ok_iff.mp hrest
    cases heq
    exact ⟨hd.value hv, hd.items hws⟩
  · cases hrest

theorem MakesWritable.entries_succ (hd : MakesWritable depth) {es : List (Str × Value)}
    (h : readEntries (depth + 1) s = .ok (es, r)) : WritableEntries es := by
  rw [readEntries.eq_def] at h
  dsimp only at h
  split at h
  · obtain ⟨⟨key, u⟩, hkey, h⟩ := bind_eq_ok_iff.mp h
    have hjoined := joined_of_readString hkey
    dsimp only at h
    split at h
    · obtain ⟨⟨v, t⟩, hv, h⟩ := bind_eq_ok_iff.mp h
      dsimp only at h
      split at h
      · cases h
        exact ⟨hjoined, hd.value hv, trivial⟩
      · obtain ⟨⟨fs, rest⟩, hfs, heq⟩ := bind_eq_ok_iff.mp h
        cases heq
        exact ⟨hjoined, hd.value hv, hd.entries hfs⟩
      · cases h
    · cases h
  · cases h

end

theorem makesWritable (depth : Nat) : MakesWritable depth := by
  induction depth with
  | zero =>
    refine ⟨fun h => ?_, fun h => ?_, fun h => ?_⟩
    · rw [readValue] at h
      cases h
    · rw [readItems] at h
      cases h
    · rw [readEntries] at h
      cases h
  | succ depth ih => exact ⟨ih.value_succ, ih.items_succ, ih.entries_succ⟩

/-! ## Texts -/

theorem writable_of_readText {text : List Char} {v : Value} (h : readText text = .ok v) :
    Writable v := by
  unfold readText at h
  split at h
  · cases h
  · obtain ⟨⟨w, r⟩, hw, h⟩ := bind_eq_ok_iff.mp h
    dsimp only at h
    split at h
    · cases h
      exact (makesWritable _).value hw
    · cases h

/-- **Reading.** What is read is written as a text that is read as the same value. -/
theorem writable_of_read {text : List Char} {v : Value} (h : read text = .ok v) : Writable v :=
  writable_of_readText (read_eq_ok_iff_readText.mp h)
end LoxMachine.Json
