import Mathlib.Data.List.Forall2

/-!
# Traversals that may fail

A traversal goes through a list and stops at the first element that fails. What comes after that
element is not looked at.

    l.mapM f = .error e ↔ ∃ before a after, l = before ++ a :: after ∧
      (∀ x ∈ before, ∃ y, f x = .ok y) ∧ f a = .error e                  (mapM_eq_error_iff)
-/

namespace LoxMachine

section
variable {α β ε : Type} {f : α → Except ε β} {l : List α}

theorem map_eq_error_iff {x : Except ε α} {g : α → β} {e : ε} :
    x.map g = .error e ↔ x = .error e := by
  cases x <;> simp [Except.map]

theorem bind_eq_ok_iff {x : Except ε α} {g : α → Except ε β} {b : β} :
    x >>= g = .ok b ↔ ∃ a, x = .ok a ∧ g a = .ok b := by
  cases x <;> simp [bind, Except.bind]

theorem bind_eq_error_iff {x : Except ε α} {g : α → Except ε β} {e : ε} :
    x >>= g = .error e ↔ x = .error e ∨ ∃ a, x = .ok a ∧ g a = .error e := by
  cases x <;> simp [bind, Except.bind]

/-- A list is split at its head, or its tail is split behind the head. -/
theorem exists_split_cons_iff {P : List α → α → Prop} {b : α} :
    (∃ before a after, b :: l = before ++ a :: after ∧ P before a) ↔
      P [] b ∨ ∃ before a after, l = before ++ a :: after ∧ P (b :: before) a := by
  constructor
  · rintro ⟨before, a, after, h, hP⟩
    cases before with
    | nil =>
      cases h
      exact .inl hP
    | cons b' before =>
      cases h
      exact .inr ⟨before, a, after, rfl, hP⟩
  · rintro (hP | ⟨before, a, after, rfl, hP⟩)
    · exact ⟨[], b, l, rfl, hP⟩
    · exact ⟨b :: before, a, after, rfl, hP⟩

/-- A traversal fails as the first element that does. -/
theorem mapM_eq_error_iff {e : ε} :
    l.mapM f = .error e ↔ ∃ before a after, l = before ++ a :: after ∧
      (∀ x ∈ before, ∃ y, f x = .ok y) ∧ f a = .error e := by
  induction l with
  | nil => simp [pure, Except.pure]
  | cons b l ih =>
    rw [List.mapM_cons, exists_split_cons_iff]
    cases hb : f b with
    | error e' => simp [hb, bind, Except.bind]
    | ok y =>
      -- the tail fails for the whole
      have hgo : (do let bs ← l.mapM f; pure (y :: bs)) = .error e ↔ l.mapM f = .error e := by
        cases l.mapM f <;> simp [bind, Except.bind, pure, Except.pure]
      refine hgo.trans (ih.trans ?_)
      simp [hb]

/-- A traversal of which no element fails does not fail. -/
theorem exists_mapM_eq_ok (h : ∀ a ∈ l, ∃ b, f a = .ok b) : ∃ bs, l.mapM f = .ok bs := by
  cases hl : l.mapM f with
  | ok bs => exact ⟨bs, rfl⟩
  | error e =>
    obtain ⟨before, a, after, rfl, -, ha⟩ := mapM_eq_error_iff.mp hl
    obtain ⟨b, hb⟩ := h a (by simp)
    rw [ha] at hb
    cases hb

/-- A traversal yields what its elements do, one by one. -/
theorem mapM_eq_ok_iff {bs : List β} :
    l.mapM f = .ok bs ↔ List.Forall₂ (fun a b => f a = .ok b) l bs := by
  induction l generalizing bs with
  | nil => cases bs <;> simp [pure, Except.pure]
  | cons a l ih =>
    rw [List.mapM_cons]
    cases ha : f a with
    | error e => cases bs <;> simp [bind, Except.bind, ha]
    | ok b =>
      cases hl : l.mapM f with
      | error e => cases bs <;> simp [bind, Except.bind, ← ih, hl]
      | ok bs' => cases bs <;> simp [bind, Except.bind, pure, Except.pure, ← ih, ha, hl]

/-- A traversal that does not fail has no element that does. -/
theorem exists_mapM_eq_ok_iff : (∃ bs, l.mapM f = .ok bs) ↔ ∀ a ∈ l, ∃ b, f a = .ok b := by
  refine ⟨?_, exists_mapM_eq_ok⟩
  rintro ⟨bs, h⟩
  rw [mapM_eq_ok_iff] at h
  induction h with
  | nil => nofun
  | cons ha _ ih => exact List.forall_mem_cons.mpr ⟨⟨_, ha⟩, ih⟩

/-- What each element yields holds of all that a traversal yields. -/
theorem forall_of_mapM_eq_ok {P : β → Prop} (hP : ∀ a ∈ l, ∀ b, f a = .ok b → P b) {bs : List β}
    (h : l.mapM f = .ok bs) : ∀ b ∈ bs, P b := by
  rw [mapM_eq_ok_iff] at h
  induction h with
  | nil => nofun
  | cons ha _ ih =>
    refine List.forall_mem_cons.mpr ⟨hP _ List.mem_cons_self _ ha, ih fun a hmem => ?_⟩
    exact hP a (List.mem_cons_of_mem _ hmem)

/-- What has been read has been written so, if this is true of each element. -/
theorem eq_map_of_mapM_eq_ok {g : β → α} (hg : ∀ {a b}, f a = .ok b → a = g b)
    {bs : List β} (h : l.mapM f = .ok bs) : l = bs.map g := by
  rw [mapM_eq_ok_iff] at h
  induction h with
  | nil => rfl
  | cons ha _ ih => rw [List.map_cons, ← hg ha, ← ih]

/-- What is read of all that has been written is what has been written. -/
theorem mapM_map_eq_ok {write : β → α} {bs : List β} (h : ∀ b ∈ bs, f (write b) = .ok b) :
    (bs.map write).mapM f = .ok bs := by
  induction bs with
  | nil => rfl
  | cons b bs ih =>
    rw [List.map_cons, List.mapM_cons, h b List.mem_cons_self,
      ih fun b' hb' => h b' (List.mem_cons_of_mem b hb')]
    rfl

end

end LoxMachine
