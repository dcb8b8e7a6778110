import LoxMachine.Proofs.Listing.Partition
import LoxMachine.Proofs.Listing.Text

/-!
# Listings that tell the program

A listing without illegal entries tells the code and its lines, and the constants as far as their
displayed texts do. It shows one line for an instruction, so the operands' lines must be that of the
tag, and a bar for a line that is known from the entries before.

    c.listing name = d.listing name → c.code = d.code ∧ c.lines = d.lines ∧ …   (eq_of_listing_eq)

`cellsFrom` reads the cells back from the entries; `last` is the line of the cell before them.
-/

namespace LoxMachine

/-- A chunk of whole instructions, each on one line and shown by one line of text. -/
structure Chunk.Legible (c : Chunk) : Prop where
  entries : ∃ es, Listing.entries c = .ok es ∧ ∀ e ∈ es, e.body ≠ .illegal
  operandLine : ∀ o, c.Reaches o → (c.decode o).opcode? = some .constant →
    c.lineOf (o + 1) = c.lineOf o
  oneLine : ∀ o i v text, c.Reaches o → c.decode o = .constant i v → v.display = .ok text →
    .char '\n' ∉ text

namespace Listing

/-! ## Algorithm -/

def Body.bytes : Body → List UInt8
  | illegal => []
  | plain op => [op.tag]
  | constant i _ => [Opcode.constant.tag, i]

/-- The cells that entries show. -/
def cellsFrom (last : Option Int) : List Entry → List Cell
  | [] => []
  | e :: es =>
    let line := e.line.or last
    e.body.bytes.map (⟨·, line.getD 0⟩) ++ cellsFrom line es

/-- The last line number that entries show. -/
def lastLine (es : List Entry) : Option Int := (es.filterMap (·.line)).getLast?

/-- Where a listing has a bar, the last line number above it is the line. -/
def BarsRepeat (c : Chunk) : Prop :=
  ∀ before e after, entries c = .ok (before ++ e :: after) → lineColumn e.line = "   |" →
    ∃ line, lastLine before = some line ∧ c.lineAt e.offset = .ok line

end Listing

/-! ## What an entry shows -/

/-- What a listing shows as an instruction. -/
theorem Decoded.listed_cases {d : Decoded} {pool : Nat} {b : Listing.Body}
    (h : d.listed pool = .ok b) (hb : b ≠ .illegal) :
    (d = .ret ∧ b = .plain .ret) ∨ (d = .negate ∧ b = .plain .negate) ∨
      ∃ i v text, d = .constant i v ∧ v.display = .ok text ∧ b = .constant i text := by
  cases d with
  | ended | badIndex _ => cases h
  | unknown _ | cutOff => exact absurd (Except.ok.inj h).symm hb
  | ret => exact .inl ⟨rfl, (Except.ok.inj h).symm⟩
  | negate => exact .inr (.inl ⟨rfl, (Except.ok.inj h).symm⟩)
  | constant i v =>
    obtain ⟨text, hv, hb⟩ := exists_display_of_listed h
    exact .inr (.inr ⟨i, v, text, rfl, hv, hb⟩)

theorem Decoded.constant_of_listed {d : Decoded} {pool : Nat} {i : UInt8} {text : Str}
    (h : d.listed pool = .ok (.constant i text)) :
    ∃ v, d = .constant i v ∧ v.display = .ok text := by
  rcases listed_cases h nofun with ⟨-, hb⟩ | ⟨-, hb⟩ | ⟨j, v, text', hd, hv, hb⟩
  · cases hb
  · cases hb
  · cases hb
    exact ⟨v, hd, hv⟩

theorem Chunk.Legible.ne_illegal {c : Chunk} {es : List Listing.Entry} (hc : c.Legible)
    (hes : Listing.entries c = .ok es) : ∀ e ∈ es, e.body ≠ .illegal := by
  obtain ⟨es', hes', hlegal⟩ := hc.entries
  rw [hes] at hes'
  cases hes'
  exact hlegal

namespace Listing

section
variable {c : Chunk} {o : Nat} {e : Entry} {last : Option Int}

/-- The line of an entry, from the one before if it is not shown. -/
theorem Shows.line_or (h : Shows c o e) (hlast : 0 < o → last = some (c.lineOf (o - 1))) :
    e.line.or last = some (c.lineOf o) := by
  rw [h.line, Chunk.shownLine]
  by_cases hsame : 0 < o ∧ c.lineOf o = c.lineOf (o - 1)
  · rw [if_pos hsame, Option.none_or, hlast hsame.1, hsame.2]
  · rw [if_neg hsame, Option.some_or]

/-- The cells of an instruction have the line of its tag. -/
theorem Shows.drop_eq (hc : c.Legible) (h : Shows c o e) (hbody : e.body ≠ .illegal) :
    c.cells.toList.drop o = e.body.bytes.map (⟨·, c.lineOf o⟩) ++
      c.cells.toList.drop (o + e.body.bytes.length) := by
  have htag {op : Opcode} (hop : (c.decode o).opcode? = some op) :=
    Chunk.drop_of_cell (Chunk.tag_of_decode hop)
  rcases Decoded.listed_cases h.body hbody with ⟨hd, hb⟩ | ⟨hd, hb⟩ | ⟨i, v, text, hd, -, hb⟩
  · rw [hb, htag (by rw [hd]; rfl)]
    rfl
  · rw [hb, htag (by rw [hd]; rfl)]
    rfl
  · have hop : (c.decode o).opcode? = some .constant := by
      rw [hd]
      rfl
    have hoperand := Chunk.operand_of_decode (c := c) (o := o) (i := i) (by rw [hd]; rfl)
    rw [hb, htag hop, Chunk.drop_of_cell hoperand, hc.operandLine o h.reaches hop]
    rfl

/-- An instruction leads past its bytes, and the line that it ends with is its own. -/
theorem Shows.next_eq (hc : c.Legible) (h : Shows c o e) (hbody : e.body ≠ .illegal) :
    e.next = (o + e.body.bytes.length : Nat) ∧
      c.lineOf (o + e.body.bytes.length - 1) = c.lineOf o := by
  rw [h.next]
  rcases Decoded.listed_cases h.body hbody with ⟨hd, hb⟩ | ⟨hd, hb⟩ | ⟨i, v, text, hd, -, hb⟩
  · rw [hd, hb]
    exact ⟨rfl, rfl⟩
  · rw [hd, hb]
    exact ⟨rfl, rfl⟩
  · have hline := hc.operandLine o h.reaches (by rw [hd]; rfl)
    rw [hd, hb]
    exact ⟨rfl, hline⟩

/-! ## Runs of entries -/

theorem Traversal.uncons {es : List Entry} {start stop : Int}
    (h : Traversal c start (e :: es) stop) : e.offset = start ∧ Traversal c e.next es stop := by
  obtain ⟨hcovers, hshows⟩ := h
  cases hcovers with
  | cons hlt rest => exact ⟨rfl, rest, (List.forall_mem_cons.mp hshows).2⟩

/-- The entries before one of them lead up to it. -/
theorem Traversal.before {before after : List Entry} {start stop : Int}
    (h : Traversal c start (before ++ e :: after) stop) : Traversal c start before e.offset := by
  induction before generalizing start with
  | nil =>
    rw [h.uncons.1]
    exact ⟨.nil, nofun⟩
  | cons e' before ih =>
    obtain ⟨rfl, hrest⟩ := h.uncons
    have hbefore := ih hrest
    have hlt := (h.covers.bounds List.mem_cons_self).2.1
    refine ⟨.cons hlt hbefore.covers, List.forall_mem_cons.mpr ⟨?_, hbefore.shows⟩⟩
    exact h.shows e' List.mem_cons_self

/-- **Cells.** Entries that go on to the end of the code show the cells that are left. -/
theorem cellsFrom_eq (hc : c.Legible) {es : List Entry} (h : Traversal c o es c.size)
    (hes : ∀ e ∈ es, e.body ≠ .illegal) (hlast : 0 < o → last = some (c.lineOf (o - 1))) :
    cellsFrom last es = c.cells.toList.drop o := by
  -- `last` stays the line of the byte before, be it that of an operand
  induction es generalizing o last with
  | nil =>
    have hstop : (o : Int) = c.size := h.covers.exists_start.resolve_left (by simp)
    have hsize : c.cells.toList.length ≤ o := by
      rw [Array.length_toList, Int.ofNat_inj.mp hstop]
      exact Nat.le_refl _
    rw [cellsFrom, List.drop_eq_nil_of_le hsize]
  | cons e es ih =>
    obtain ⟨hbody, hes⟩ := List.forall_mem_cons.mp hes
    obtain ⟨hoffset, hrest⟩ := h.uncons
    have hs := h.shows_at List.mem_cons_self hoffset
    obtain ⟨hnext, hline⟩ := hs.next_eq hc hbody
    rw [hnext] at hrest
    rw [cellsFrom, hs.line_or hlast, hs.drop_eq hc hbody]
    rw [ih hrest hes fun _ => by rw [hline]]
    rfl

theorem lastLine_cons (e : Entry) (es : List Entry) :
    lastLine (e :: es) = (lastLine es).or e.line := by
  unfold lastLine
  cases hline : e.line with
  | none => rw [List.filterMap_cons_none hline, Option.or_none]
  | some line =>
    rw [List.filterMap_cons_some hline, List.getLast?_cons]
    cases (es.filterMap (·.line)).getLast? <;> rfl

/-- **Lines.** The last line number of entries is that of the byte before they end. -/
theorem lastLine_eq (hc : c.Legible) {es : List Entry} {n : Nat} (h : Traversal c o es (n : Nat))
    (hes : ∀ e ∈ es, e.body ≠ .illegal) (hlast : 0 < o → last = some (c.lineOf (o - 1)))
    (hn : 0 < n) : (lastLine es).or last = some (c.lineOf (n - 1)) := by
  induction es generalizing o last with
  | nil =>
    have hstop : (o : Int) = n := h.covers.exists_start.resolve_left (by simp)
    rw [Int.ofNat_inj] at hstop
    subst hstop
    exact hlast hn
  | cons e es ih =>
    obtain ⟨hbody, hes⟩ := List.forall_mem_cons.mp hes
    obtain ⟨hoffset, hrest⟩ := h.uncons
    have hs := h.shows_at List.mem_cons_self hoffset
    obtain ⟨hnext, hline⟩ := hs.next_eq hc hbody
    rw [hnext] at hrest
    rw [lastLine_cons, Option.or_assoc, hs.line_or hlast]
    exact ih hrest hes fun _ => by rw [hline]

end

/-! ## Whole chunks -/

section
variable {c : Chunk} {es : List Entry}

/-- **Bars.** A bar stands for the last line number above it. -/
theorem barsRepeat_of_legible (hc : c.Legible) : BarsRepeat c := by
  intro before e after hentries hbar
  have hline : e.line = none := lineColumn_inj.mp hbar
  have htraversal := traversal_of_entries hentries
  have hbefore := htraversal.before
  have hlegal (e' : Entry) (he' : e' ∈ before) : e'.body ≠ .illegal :=
    hc.ne_illegal hentries e' (List.mem_append_left _ he')
  obtain ⟨o, hs⟩ := htraversal.shows e (by simp)
  have hshown : c.shownLine o = none := by rw [← hs.line, hline]
  unfold Chunk.shownLine at hshown
  split at hshown
  · next hsame =>
    obtain ⟨hpos, hsame⟩ := hsame
    have hlt : o < c.size := by
      have hbounds := htraversal.covers.bounds (e := e) (by simp)
      rw [hs.offset] at hbounds
      omega
    rw [hs.offset] at hbefore ⊢
    have hlast : (lastLine before).or none = some (c.lineOf (o - 1)) :=
      lastLine_eq (o := 0) hc hbefore hlegal nofun hpos
    rw [Option.or_none] at hlast
    exact ⟨c.lineOf o, by rw [hlast, hsame], Chunk.lineAt_of_lt hlt⟩
  · cases hshown

theorem legible_of_mem (hc : c.Legible) (hes : entries c = .ok es) : ∀ e ∈ es, e.Legible := by
  intro e he
  have hbody := hc.ne_illegal hes e he
  obtain ⟨o, hs⟩ := (traversal_of_entries hes).shows e he
  refine ⟨?_, ?_, Body.newLine_notMem_text fun i text hb => ?_⟩
  · rw [hs.offset]
    omega
  · rcases hs.next_cases with ⟨op, hop, hnext⟩ | ⟨hill, -⟩
    · refine ⟨op, by rw [Decoded.opcode?_of_listed hs.body, hop], ?_⟩
      rw [hnext, hs.offset, Int.natCast_add]
    · exact absurd ((Decoded.isIllegal_iff_of_listed hs.body).mp hill) hbody
  · have hlisted := hs.body
    rw [hb] at hlisted
    obtain ⟨v, hd, hv⟩ := Decoded.constant_of_listed hlisted
    exact hc.oneLine o i v text hs.reaches hd hv

end

/-- The constants of the same instructions have the same displayed texts. -/
def SameDisplays (c d : Chunk) : Prop :=
  ∀ o i v, c.Reaches o → c.decode o = .constant i v →
    ∃ w text, d.decode o = .constant i w ∧ v.display = .ok text ∧ w.display = .ok text

/-- **Programs.** A listing that can be read back tells the code, the lines and what the constants
are displayed as. -/
theorem eq_of_listing_eq {c d : Chunk} {name : Str} (hc : c.Legible) (hd : d.Legible)
    (h : c.listing name = d.listing name) :
    c.code = d.code ∧ c.lines = d.lines ∧ SameDisplays c d ∧ BarsRepeat c := by
  obtain ⟨es, hes, hlegal⟩ := hc.entries
  obtain ⟨es', hes', hlegal'⟩ := hd.entries
  rw [listing_eq, listing_eq, hes, hes'] at h
  obtain rfl := eq_of_render_eq (legible_of_mem hc hes) (legible_of_mem hd hes') (Except.ok.inj h)
  have hcells : c.cells.toList = d.cells.toList := by
    have hnone {e : Chunk} (h : 0 < 0) : none = some (e.lineOf (0 - 1)) := absurd h (by decide)
    have hcells := cellsFrom_eq (o := 0) hc (traversal_of_entries hes) hlegal hnone
    rw [cellsFrom_eq (o := 0) hd (traversal_of_entries hes') hlegal hnone] at hcells
    exact hcells.symm
  refine ⟨?_, ?_, ?_, barsRepeat_of_legible hc⟩
  · rw [Chunk.code, hcells, Chunk.code]
  · rw [Chunk.lines, hcells, Chunk.lines]
  · intro o i v hr hv
    have hlt := Chunk.lt_size (Chunk.tag_of_decode (c := c) (o := o) (by rw [hv]; rfl))
    obtain ⟨e, he, hs⟩ := (traversal_of_entries hes).exists_shows hr (by omega)
    have hs' := (traversal_of_entries hes').shows_at he hs.offset
    have hlisted := hs.body
    have hlisted' := hs'.body
    rw [hv] at hlisted
    obtain ⟨text, hdisplay, hb⟩ := Decoded.exists_display_of_listed hlisted
    rw [hb] at hlisted'
    obtain ⟨w, hw, hdisplay'⟩ := Decoded.constant_of_listed hlisted'
    exact ⟨w, text, hw, hdisplay, hdisplay'⟩

/-- The line of an operand is not shown, so without `operandLine` the lines are not told. -/
example : let c : Chunk := { cells := #[⟨2, 1⟩, ⟨0, 1⟩], constants := #[.nil] }
    let d : Chunk := { cells := #[⟨2, 1⟩, ⟨0, 2⟩], constants := #[.nil] }
    entry c 0 = entry d 0 ∧ c.lines ≠ d.lines := by
  decide

/-- A string and a boolean that are displayed by the same word. -/
theorem eq_of_listing_eq_true :
    let cells : Array Cell := #[⟨2, 7⟩, ⟨0, 7⟩, ⟨1, 7⟩, ⟨0, -12345⟩]
    let c : Chunk := { cells, constants := #[.str "true"] }
    let d : Chunk := { cells, constants := #[.bool true], isSealed := true }
    (c.Legible ∧ d.Legible ∧ c.listing "f" = d.listing "f") ∧
      c.code = d.code ∧ c.lines = d.lines ∧ SameDisplays c d ∧ BarsRepeat c := by
  intro cells c d
  have hlegible {c : Chunk} (hes : ∃ es, entries c = .ok es ∧ ∀ e ∈ es, e.body ≠ .illegal)
      (hlines : ∀ o < c.size, (c.decode o).opcode? = some .constant →
        c.lineOf (o + 1) = c.lineOf o)
      (htexts : ∀ v ∈ c.constants.toList, v.display = .ok "true") : c.Legible := by
    refine ⟨hes, fun o _ hop => ?_, fun o i v text _ hd htext => ?_⟩
    · exact hlines o (Chunk.lt_size (Chunk.tag_of_decode hop)) hop
    · rw [htexts v (Chunk.mem_constants_of_decode hd)] at htext
      cases htext
      decide
  have hentries {c : Chunk} (h0 : entry c 0 = .ok ⟨0, some 7, .constant 0 "true", 2⟩)
      (h2 : entry c 2 = .ok ⟨2, none, .plain .negate, 3⟩)
      (h3 : entry c 3 = .ok ⟨3, some (-12345), .plain .ret, 4⟩) (hsize : c.size = 4) :
      entries c = .ok [⟨0, some 7, .constant 0 "true", 2⟩, ⟨2, none, .plain .negate, 3⟩,
        ⟨3, some (-12345), .plain .ret, 4⟩] := by
    have hend : entriesFrom c 4 = .ok [] := entriesFrom_of_size_le (by omega)
    rw [entries, entriesFrom_of_entry (by omega) h0, entriesFrom_of_entry (by omega) h2,
      entriesFrom_of_entry (by omega) h3, hend]
    rfl
  have hc := hentries (c := c) (by decide) (by decide) (by decide) rfl
  have hd := hentries (c := d) (by decide) (by decide) (by decide) rfl
  have hcl : c.Legible := hlegible ⟨_, hc, by decide⟩ (by decide) (by decide)
  have hdl : d.Legible := hlegible ⟨_, hd, by decide⟩ (by decide) (by decide)
  have hlisting : c.listing "f" = d.listing "f" := by rw [listing_eq, listing_eq, hc, hd]
  exact ⟨⟨hcl, hdl, hlisting⟩, eq_of_listing_eq hcl hdl hlisting⟩

end Listing
end LoxMachine
