import LoxMachine.Proofs.Chunk.Instructions
import LoxMachine.Session
import Mathlib.Logic.ExistsUnique

/-!
# Listings partition the code

The entries of a listing cover the code without a gap and without an overlap, so each byte belongs
to one of them. They are at the offsets that are reached from the start of the code by whole
instructions; a byte that is no tag, and an instruction that is cut off, take the rest of the code.

    c.Reaches o → (∃ e ∈ es, e.offset = o) ∨ stop ≤ o                (Traversal.mem_of_reaches)

A listing fails for the first index that is not in the pool, and for nothing else.
-/

namespace LoxMachine

/-! ## Offsets -/

/-- Instructions that are whole lead from the start of the code to an offset. -/
inductive Chunk.Reaches (c : Chunk) : Nat → Prop
  | start : Reaches c 0
  | next {o : Nat} {op : Opcode} (h : Reaches c o) (hop : (c.decode o).opcode? = some op) :
      Reaches c (o + op.width)

/-- The first of the reached instructions whose index is not in the pool. -/
structure Chunk.FirstMissing (c : Chunk) (o : Nat) (i : UInt8) : Prop where
  reaches : c.Reaches o
  decode : c.decode o = .badIndex i
  first : ∀ o' i', o' < o → c.Reaches o' → c.decode o' ≠ .badIndex i'

/-- What stands somewhere is no instruction, or one that is cut off. -/
def Decoded.IsIllegal : Decoded → Prop
  | unknown _ | cutOff => True
  | ended | ret | negate | badIndex _ | constant .. => False

namespace Listing

/-- Entries lead from an offset to another, each from where the one before ends. -/
inductive Covers : Int → List Entry → Int → Prop
  | nil {start : Int} : Covers start [] start
  | cons {e : Entry} {es : List Entry} {stop : Int} (hlt : e.offset < e.next)
      (rest : Covers e.next es stop) : Covers e.offset (e :: es) stop

/-- Entries that show all of the code. -/
structure Partition (c : Chunk) (es : List Entry) : Prop where
  covers : Covers 0 es c.size
  increasing : (es.map (·.offset)).Pairwise (· < ·)
  /-- An entry shows the opcode that stands at its offset, and leads past its operands. -/
  widths : ∀ e ∈ es, ∀ op, e.body.opcode? = some op →
    c.opcodeAt e.offset = .ok op ∧ e.next = e.offset + op.width
  once : ∀ o : Nat, o < c.size → ∃! e, e ∈ es ∧ e.offset ≤ o ∧ o < e.next
  illegal_iff : ∀ o : Nat, (∃ e ∈ es, e.offset = o ∧ e.body = .illegal) ↔
    c.Reaches o ∧ (c.decode o).IsIllegal
  illegal_last : ∀ e ∈ es, e.body = .illegal → es.getLast? = some e ∧ e.next = c.size

/-! ## Covers -/

section
variable {start stop : Int} {es : List Entry} {e : Entry}

theorem Covers.le (h : Covers start es stop) : start ≤ stop := by
  induction h with
  | nil => exact Int.le_refl _
  | cons hlt _ ih => exact Int.le_trans (Int.le_of_lt hlt) ih

theorem Covers.bounds (h : Covers start es stop) (he : e ∈ es) :
    start ≤ e.offset ∧ e.offset < e.next ∧ e.next ≤ stop := by
  induction h with
  | nil => cases he
  | cons hlt rest ih =>
    rcases List.mem_cons.mp he with rfl | he
    · exact ⟨Int.le_refl _, hlt, rest.le⟩
    · obtain ⟨hge, hlt', hle⟩ := ih he
      exact ⟨by omega, hlt', hle⟩

theorem Covers.exists_start (h : Covers start es stop) :
    (∃ e ∈ es, e.offset = start) ∨ start = stop := by
  cases h with
  | nil => exact .inr rfl
  | cons hlt rest => exact .inl ⟨_, List.mem_cons_self, rfl⟩

/-- Where an entry leads there is another one, or it leads to the end. -/
theorem Covers.exists_next (h : Covers start es stop) (he : e ∈ es) :
    (∃ e' ∈ es, e'.offset = e.next) ∨ e.next = stop := by
  induction h with
  | nil => cases he
  | cons hlt rest ih =>
    rcases List.mem_cons.mp he with rfl | he
    · exact rest.exists_start.imp_left fun ⟨e', he', ho⟩ => ⟨e', List.mem_cons_of_mem _ he', ho⟩
    · exact (ih he).imp_left fun ⟨e', he', ho⟩ => ⟨e', List.mem_cons_of_mem _ he', ho⟩

theorem Covers.increasing (h : Covers start es stop) : (es.map (·.offset)).Pairwise (· < ·) := by
  induction h with
  | nil => exact .nil
  | cons hlt rest ih =>
    refine List.pairwise_cons.mpr ⟨?_, ih⟩
    intro o ho
    obtain ⟨e', he', rfl⟩ := List.mem_map.mp ho
    exact Int.lt_of_lt_of_le hlt (rest.bounds he').1

/-- Each offset belongs to one entry. -/
theorem Covers.existsUnique (h : Covers start es stop) {o : Int} (hge : start ≤ o)
    (hlt : o < stop) : ∃! e, e ∈ es ∧ e.offset ≤ o ∧ o < e.next := by
  induction h with
  | nil => omega
  | @cons e es stop hlt' rest ih =>
    by_cases ho : o < e.next
    · refine ⟨e, ⟨List.mem_cons_self, hge, ho⟩, ?_⟩
      rintro e' ⟨he', hge', -⟩
      rcases List.mem_cons.mp he' with rfl | he'
      · rfl
      · have := (rest.bounds he').1
        omega
    · obtain ⟨e', ⟨he', hin⟩, hunique⟩ := ih (by omega) hlt
      refine ⟨e', ⟨List.mem_cons_of_mem _ he', hin⟩, ?_⟩
      rintro e'' ⟨he'', hin''⟩
      rcases List.mem_cons.mp he'' with rfl | he''
      · omega
      · exact hunique e'' ⟨he'', hin''⟩

/-- The entry that leads to the end is the last one. -/
theorem Covers.getLast? (h : Covers start es stop) (he : e ∈ es) (hnext : e.next = stop) :
    es.getLast? = some e := by
  induction h with
  | nil => cases he
  | @cons _ es _ hlt rest ih =>
    rcases List.mem_cons.mp he with rfl | he
    · cases es with
      | nil => rfl
      | cons e' _ =>
        have := rest.bounds (e := e') List.mem_cons_self
        omega
    · rw [List.getLast?_cons, ih he hnext]
      rfl

end

end Listing

/-! ## What stands at an offset -/

namespace Decoded

variable {d : Decoded} {pool size o : Nat} {b : Listing.Body}

theorem next_of_opcode? {op : Opcode} (h : d.opcode? = some op) : d.next size o = o + op.width := by
  cases d <;> cases h <;> rfl

theorem next_of_isIllegal (h : d.IsIllegal) : d.next size o = size := by
  cases d <;> first | rfl | exact h.elim

theorem ne_badIndex_of_listed (h : d.listed pool = .ok b) (i : UInt8) : d ≠ .badIndex i := by
  rintro rfl
  cases h

/-- A listing shows the opcode of an instruction. -/
theorem opcode?_of_listed (h : d.listed pool = .ok b) : b.opcode? = d.opcode? := by
  cases d with
  | ended | badIndex _ => cases h
  | unknown _ | cutOff | ret | negate =>
    cases h
    rfl
  | constant i v =>
    obtain ⟨text, -, rfl⟩ := exists_display_of_listed h
    rfl

theorem isIllegal_iff_of_listed (h : d.listed pool = .ok b) : d.IsIllegal ↔ b = .illegal := by
  have hop := opcode?_of_listed h
  rw [← Listing.Body.opcode?_eq_none_iff, hop]
  cases d with
  | ended | badIndex _ => cases h
  | unknown _ | cutOff => exact ⟨fun _ => rfl, fun _ => trivial⟩
  | ret | negate | constant _ _ => exact ⟨False.elim, nofun⟩

end Decoded

namespace Listing

/-- An entry shows what stands at an offset, which is reached. -/
structure Shows (c : Chunk) (o : Nat) (e : Entry) : Prop where
  reaches : c.Reaches o
  offset : e.offset = o
  line : e.line = c.shownLine o
  body : (c.decode o).listed c.constants.size = .ok e.body
  next : e.next = (c.decode o).next c.size o

/-- Entries show the code from one offset to another. -/
structure Traversal (c : Chunk) (start : Int) (es : List Entry) (stop : Int) : Prop where
  covers : Covers start es stop
  shows : ∀ e ∈ es, ∃ o, Shows c o e

section
variable {c : Chunk} {o : Nat} {e : Entry} {es : List Entry} {f : Fault}

theorem shows_of_entry (hr : c.Reaches o) (h : entry c o = .ok e) : Shows c o e := by
  rw [entry_eq_listed] at h
  cases hb : (c.decode o).listed c.constants.size with
  | error f =>
    rw [hb] at h
    cases h
  | ok b =>
    rw [hb] at h
    cases h
    exact ⟨hr, rfl, rfl, hb, rfl⟩

theorem entriesFrom_of_size_le {offset : Int} (h : c.size ≤ offset) :
    entriesFrom c offset = .ok [] := by
  rw [entriesFrom, dif_neg (by omega)]

theorem entriesFrom_of_error {offset : Int} (hlt : offset < c.size)
    (h : entry c offset = .error f) : entriesFrom c offset = .error f := by
  rw [entriesFrom, dif_pos hlt]
  split
  · next h' =>
    rw [h] at h'
    cases h'
    rfl
  · next h' =>
    rw [h] at h'
    cases h'

theorem Traversal.cons {o : Nat} {stop : Int} (h : Shows c o e) (hlt : (o : Int) < e.next)
    (rest : Traversal c e.next es stop) : Traversal c o (e :: es) stop := by
  constructor
  · rw [← h.offset] at hlt ⊢
    exact .cons hlt rest.covers
  · exact List.forall_mem_cons.mpr ⟨⟨o, h⟩, rest.shows⟩

/-- An entry leads past an instruction, or to the end of the code. -/
theorem Shows.next_cases (h : Shows c o e) :
    (∃ op : Opcode, (c.decode o).opcode? = some op ∧ e.next = (o + op.width : Nat)) ∨
      (c.decode o).IsIllegal ∧ e.next = c.size := by
  cases hop : (c.decode o).opcode? with
  | some op => exact .inl ⟨op, rfl, by rw [h.next, Decoded.next_of_opcode? hop]⟩
  | none =>
    have hbody : e.body = .illegal := by
      rw [← Body.opcode?_eq_none_iff, Decoded.opcode?_of_listed h.body, hop]
    have hill := (Decoded.isIllegal_iff_of_listed h.body).mpr hbody
    exact .inr ⟨hill, by rw [h.next, Decoded.next_of_isIllegal hill]⟩

/-- **Traversal.** From an offset that is reached, all the code is shown, or the code up to an
instruction that cannot be shown. -/
theorem exists_traversal (hr : c.Reaches o) (ho : o ≤ c.size) :
    (∃ es, Traversal c o es c.size ∧ entriesFrom c o = .ok es) ∨
      ∃ es s f, Traversal c o es (s : Nat) ∧ c.Reaches s ∧ s < c.size ∧
        entry c s = .error f ∧ entriesFrom c o = .error f := by
  -- by the code that is left: an illegal entry leads to its end, so what it reaches is nothing
  induction hn : c.size - o using Nat.strongRecOn generalizing o with
  | ind n ih =>
    by_cases hlt : o < c.size
    · cases he : entry c o with
      | error f =>
        have hfrom := entriesFrom_of_error (by omega) he
        exact .inr ⟨[], o, f, ⟨.nil, nofun⟩, hr, hlt, he, hfrom⟩
      | ok e =>
        have hs := shows_of_entry hr he
        have hforward := lt_next he (by omega)
        rw [entriesFrom_of_entry (by omega) he]
        rcases hs.next_cases with ⟨op, hop, hnext⟩ | ⟨-, hnext⟩
        · have hle := Chunk.next_le_size (c := c) ho
          rw [Decoded.next_of_opcode? hop] at hle
          rw [hnext] at hforward ⊢
          rcases ih _ (by omega) (hr.next hop) hle rfl with
            ⟨es, htraversal, hes⟩ | ⟨es, s, f, htraversal, hr', hlt', hf, hes⟩
          · rw [← hnext] at hforward htraversal
            exact .inl ⟨e :: es, htraversal.cons hs hforward, by rw [hes]; rfl⟩
          · rw [← hnext] at hforward htraversal
            exact .inr ⟨e :: es, s, f, htraversal.cons hs hforward, hr', hlt', hf, by rw [hes]; rfl⟩
        · have hend : Traversal c e.next [] c.size := by
            rw [hnext]
            exact ⟨.nil, nofun⟩
          refine .inl ⟨[e], hend.cons hs hforward, ?_⟩
          rw [hnext, entriesFrom_of_size_le (Int.le_refl _)]
          rfl
    · obtain rfl : o = c.size := by omega
      exact .inl ⟨[], ⟨.nil, nofun⟩, entriesFrom_of_size_le (Int.le_refl _)⟩

theorem Traversal.shows_at {start stop : Int} (h : Traversal c start es stop) (he : e ∈ es)
    (ho : e.offset = o) : Shows c o e := by
  obtain ⟨o', hs⟩ := h.shows e he
  rw [hs.offset, Int.ofNat_inj] at ho
  exact ho ▸ hs

/-- **Offsets.** Entries from the start of the code are at all offsets that are reached before the
entries end. -/
theorem Traversal.mem_of_reaches {stop : Int} (h : Traversal c 0 es stop) (hr : c.Reaches o) :
    (∃ e ∈ es, e.offset = o) ∨ stop ≤ o := by
  induction hr with
  | start => exact h.covers.exists_start.imp_right fun h => Int.le_of_eq h.symm
  | @next o op hr hop ih =>
    rcases ih with ⟨e, he, hoffset⟩ | hle
    · have hnext : e.next = (o + op.width : Nat) := by
        rw [(h.shows_at he hoffset).next, Decoded.next_of_opcode? hop]
      rw [← hnext]
      exact (h.covers.exists_next he).imp_right fun h => Int.le_of_eq h.symm
    · exact .inr (by omega)

/-- What is reached before the entries end is shown. -/
theorem Traversal.exists_shows {stop : Int} (h : Traversal c 0 es stop) (hr : c.Reaches o)
    (hlt : (o : Int) < stop) : ∃ e ∈ es, Shows c o e := by
  rcases h.mem_of_reaches hr with ⟨e, he, hoffset⟩ | hle
  · exact ⟨e, he, h.shows_at he hoffset⟩
  · omega

theorem Traversal.partition (h : Traversal c 0 es c.size) : Partition c es where
  covers := h.covers
  increasing := h.covers.increasing
  widths e he op hop := by
    obtain ⟨o, hs⟩ := h.shows e he
    have hdecode : (c.decode o).opcode? = some op := by
      rw [← Decoded.opcode?_of_listed hs.body, hop]
    rw [hs.offset, hs.next, Decoded.next_of_opcode? hdecode]
    exact ⟨Chunk.opcodeAt_of_decode hdecode, Int.natCast_add ..⟩
  once o ho := h.covers.existsUnique (by omega) (by omega)
  illegal_iff o := by
    constructor
    · rintro ⟨e, he, hoffset, hbody⟩
      have hs := h.shows_at he hoffset
      exact ⟨hs.reaches, (Decoded.isIllegal_iff_of_listed hs.body).mpr hbody⟩
    · rintro ⟨hr, hill⟩
      have hlt : o < c.size := Chunk.lt_size_of_decode (by
        intro hd
        rw [hd] at hill
        exact hill)
      obtain ⟨e, he, hs⟩ := h.exists_shows hr (by omega)
      exact ⟨e, he, hs.offset, (Decoded.isIllegal_iff_of_listed hs.body).mp hill⟩
  illegal_last e he hbody := by
    obtain ⟨o, hs⟩ := h.shows e he
    have hnext : e.next = c.size := by
      rw [hs.next, Decoded.next_of_isIllegal ((Decoded.isIllegal_iff_of_listed hs.body).mpr hbody)]
    exact ⟨h.covers.getLast? he hnext, hnext⟩

/-! ## Entries that cannot be shown -/

theorem entries_cases (c : Chunk) :
    (∃ es, Traversal c 0 es c.size ∧ entries c = .ok es) ∨
      ∃ es s f, Traversal c 0 es (s : Nat) ∧ c.Reaches s ∧ s < c.size ∧
        entry c s = .error f ∧ entries c = .error f :=
  exists_traversal .start (Nat.zero_le _)

/-- No entry shows an index that is not in the pool. -/
theorem Traversal.ne_badIndex {stop : Int} (h : Traversal c 0 es stop) (hr : c.Reaches o)
    (hlt : (o : Int) < stop) (i : UInt8) : c.decode o ≠ .badIndex i := by
  obtain ⟨e, -, hs⟩ := h.exists_shows hr hlt
  exact Decoded.ne_badIndex_of_listed hs.body i

/-- A listing fails for the first index that is not in the pool. -/
theorem firstMissing_of_entries (hp : c.LoxPool) (h : entries c = .error f) :
    ∃ o i, c.FirstMissing o i ∧ f = .bytecode (.constantIndex i.toNat c.constants.size) := by
  rcases entries_cases c with ⟨es, -, hes⟩ | ⟨es, s, f', htraversal, hr, hlt, he, hes⟩
  · rw [hes] at h
    cases h
  · rw [hes] at h
    cases h
    obtain ⟨i, hd, hf⟩ := badIndex_of_entry hp hlt he
    refine ⟨s, i, ⟨hr, hd, fun o' i' ho' hr' => ?_⟩, hf⟩
    exact htraversal.ne_badIndex hr' (by omega) i'

/-- The entries of a whole listing show all of the code. -/
theorem traversal_of_entries (h : entries c = .ok es) : Traversal c 0 es c.size := by
  rcases entries_cases c with ⟨es', htraversal, hes⟩ | ⟨-, -, f, -, -, -, -, hes⟩
  · rw [hes] at h
    cases h
    exact htraversal
  · rw [hes] at h
    cases h

/-- No listing goes past an index that is not in the pool. -/
theorem entries_ne_ok_of_badIndex {i : UInt8} (hr : c.Reaches o) (hd : c.decode o = .badIndex i) :
    entries c ≠ .ok es := by
  intro h
  have hlt : o < c.size := Chunk.lt_size_of_decode (by rw [hd]; nofun)
  exact (traversal_of_entries h).ne_badIndex hr (by omega) i hd

/-! ## Whole chunks -/

theorem entriesFrom_toSealed (c : Chunk) (offset : Int) :
    entriesFrom c.toSealed offset = entriesFrom c offset := by
  have hentry (o : Int) : entry c.toSealed o = entry c o := rfl
  induction offset using reachedFrom.induct (c := c) with
  | case1 offset hlt f hf =>
    rw [entriesFrom_of_error hlt hf,
      entriesFrom_of_error (c := c.toSealed) hlt (by rw [hentry, hf])]
  | case2 offset hlt e he hnext ih =>
    rw [entriesFrom_of_entry hlt he, entriesFrom_of_entry (c := c.toSealed) hlt he, ih]
  | case3 offset hlt =>
    have hsize : (c.size : Int) ≤ offset := by omega
    rw [entriesFrom_of_size_le hsize, entriesFrom_of_size_le (c := c.toSealed) hsize]

theorem listing_eq (c : Chunk) (name : Str) :
    c.listing name = (entries c).map (render name) := by
  unfold Chunk.listing
  cases entries c <;> rfl

/-- What a listing shows, and when there is none. -/
structure Complete (c : Chunk) (name : Str) : Prop where
  fails_iff : (∃ f, c.listing name = .error f) ↔ ∃ o i, c.Reaches o ∧ c.decode o = .badIndex i
  fails_first : ∀ f, c.listing name = .error f →
    ∃ o i, c.FirstMissing o i ∧ f = .bytecode (.constantIndex i.toNat c.constants.size)
  shows : ∀ text, c.listing name = .ok text →
    ∃ es, entries c = .ok es ∧ text = render name es ∧ Partition c es
  toSealed : c.toSealed.listing name = c.listing name
  /-- The chunk is only looked at. -/
  keeps : ∀ (s : Session) (i : Nat), s.chunks[i]? = some c →
    s.perform (.onChunk i (.listing name)) = (s, Session.answer .text (c.listing name))

end

/-- **Listings.** Whatever bytes there are, a listing either shows all of the code, each byte in one
entry, or fails for the first index that is not in the pool. -/
theorem complete_of_loxPool {c : Chunk} (hp : c.LoxPool) (name : Str) : Complete c name where
  fails_iff := by
    rw [listing_eq]
    cases h : entries c with
    | error f =>
      obtain ⟨o, i, hfirst, -⟩ := firstMissing_of_entries hp h
      exact ⟨fun _ => ⟨o, i, hfirst.reaches, hfirst.decode⟩, fun _ => ⟨f, rfl⟩⟩
    | ok es =>
      constructor
      · rintro ⟨f, hf⟩
        cases hf
      · rintro ⟨o, i, hr, hd⟩
        exact absurd h (entries_ne_ok_of_badIndex hr hd)
  fails_first f hf := by
    rw [listing_eq] at hf
    cases h : entries c with
    | error f' =>
      rw [h] at hf
      cases hf
      exact firstMissing_of_entries hp h
    | ok es =>
      rw [h] at hf
      cases hf
  shows text ht := by
    rw [listing_eq] at ht
    cases h : entries c with
    | error f =>
      rw [h] at ht
      cases ht
    | ok es =>
      rw [h] at ht
      cases ht
      exact ⟨es, rfl, rfl, (traversal_of_entries h).partition⟩
  toSealed := by
    rw [listing_eq, listing_eq, entries, entriesFrom_toSealed, entries]
  keeps s i hc := by
    unfold Session.perform
    dsimp only
    rw [hc]
    rfl

/-- A constant, a sign and a constant instruction that the end of the code cuts off. -/
theorem complete_of_cut_off :
    let c : Chunk := { cells := #[⟨2, 7⟩, ⟨0, 7⟩, ⟨1, 8⟩, ⟨2, 8⟩], constants := #[.str "one"] }
    c.LoxPool ∧ Complete c "cut off" :=
  ⟨by decide, complete_of_loxPool (by decide) "cut off"⟩

end Listing
end LoxMachine
