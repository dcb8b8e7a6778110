import LoxMachine.Proofs.Decoding
import LoxMachine.Proofs.Json.Number
import Mathlib.Data.List.Basic

/-!
# Texts of entries

An entry's text is the words of its offset and its line and then what it shows, and the blanks
before a word are as many as it takes to fill the column. However wide the numbers are, a word ends
where the next blank is, so the text tells the entry.

    e.Legible → e'.Legible → e.text = e'.text → e = e'                       (eq_of_text_eq)

A constant's text comes last and may hold anything but a line feed, which would end the entry.
Entries without one are told by their listing.

    render name es = render name es' → es = es'                            (eq_of_render_eq)
-/

namespace LoxMachine.Listing

open Text Numeral

/-- An entry of an instruction, with a text that is one line. -/
structure Entry.Legible (e : Entry) : Prop where
  offset : 0 ≤ e.offset
  next : ∃ op, e.body.opcode? = some op ∧ e.next = e.offset + op.width
  line : .char '\n' ∉ e.body.text

/-! ## Columns -/

/-- What stands in the line column, without the blanks that fill it. -/
def lineWord : Option Int → List Char
  | none => ['|']
  | some line => ofInt line

theorem isWord_lineWord (line : Option Int) : IsWord (lineWord line) := by
  cases line with
  | none => exact ⟨nofun, by decide⟩
  | some line => exact (Json.numberText_ofInt line).isWord

theorem lineWord_inj {line line' : Option Int} : lineWord line = lineWord line' ↔ line = line' := by
  have hbar (i : Int) : ['|'] ≠ ofInt i := fun h =>
    absurd ((Json.numberText_ofInt i).2 '|' (h ▸ List.mem_cons_self)) (by decide)
  refine ⟨fun h => ?_, congrArg lineWord⟩
  cases line with
  | none => cases line' with
    | none => rfl
    | some j => exact absurd h (hbar j)
  | some i => cases line' with
    | none => exact absurd h.symm (hbar i)
    | some j => rw [ofInt_inj.mp h]

theorem exists_lineColumn (line : Option Int) :
    ∃ k, (lineColumn line).toList = List.replicate k ' ' ++ lineWord line := by
  cases line with
  | none => exact ⟨3, by decide⟩
  | some line => exact ⟨4 - (ofInt line).length, String.toList_ofList⟩

/-- A part is told by the text up to the mark that ends it. -/
theorem append_mark_inj {a : CodePoint} {l l' r r' : Str} (h : a ∉ l) (h' : a ∉ l')
    (heq : l ++ a :: r = l' ++ a :: r') : l = l' ∧ r = r' := by
  induction l generalizing l' with
  | nil => cases l' with
    | nil => exact ⟨rfl, (List.cons.inj heq).2⟩
    | cons c l' =>
      obtain ⟨rfl, -⟩ := List.cons.inj heq
      exact absurd List.mem_cons_self h'
  | cons c l ih => cases l' with
    | nil =>
      obtain ⟨rfl, -⟩ := List.cons.inj heq
      exact absurd List.mem_cons_self h
    | cons c' l' =>
      obtain ⟨rfl, hrest⟩ := List.cons.inj heq
      obtain ⟨rfl, hr⟩ := ih (fun hmem => h (List.mem_cons_of_mem _ hmem))
        (fun hmem => h' (List.mem_cons_of_mem _ hmem)) hrest
      exact ⟨rfl, hr⟩

theorem notMem_of_isWord {w : List Char} {c : Char} (h : IsWord w) (hc : isBlank c = true) :
    .char c ∉ Str.ofChars w := by
  intro hmem
  obtain ⟨d, hd, heq⟩ := List.mem_map.mp hmem
  obtain rfl := CodePoint.char.inj heq
  rw [h.noBlanks d hd] at hc
  cases hc

/-- The first word of a text, and what comes after the blank behind it, are told by the text. -/
theorem word_append_inj (k k' : Nat) {w w' : List Char} {r r' : Str} (hw : IsWord w)
    (hw' : IsWord w') (h : Str.ofChars (List.replicate k ' ' ++ w) ++ .char ' ' :: r =
      Str.ofChars (List.replicate k' ' ' ++ w') ++ .char ' ' :: r') : w = w' ∧ r = r' := by
  have hdrop (k : Nat) {w : List Char} (hw : IsWord w) (r : Str) :
      (Str.ofChars (List.replicate k ' ' ++ w) ++ .char ' ' :: r).dropWhile (· = .char ' ') =
        Str.ofChars w ++ .char ' ' :: r := by
    obtain ⟨c, t, rfl⟩ := List.exists_cons_of_ne_nil hw.ne_nil
    have hc : c ≠ ' ' := by
      rintro rfl
      exact absurd (hw.noBlanks ' ' List.mem_cons_self) (by decide)
    rw [Str.ofChars_append, List.append_assoc, List.dropWhile_append_of_pos]
    · exact List.dropWhile_cons_of_neg (by simpa using hc)
    · intro p hp
      obtain ⟨d, hd, rfl⟩ := List.mem_map.mp hp
      rw [List.eq_of_mem_replicate hd]
      exact decide_eq_true rfl
  have hrest := congrArg (List.dropWhile (· = .char ' ')) h
  rw [hdrop k hw, hdrop k' hw'] at hrest
  have hblank : isBlank ' ' = true := by decide
  obtain ⟨hwords, hr⟩ :=
    append_mark_inj (notMem_of_isWord hw hblank) (notMem_of_isWord hw' hblank) hrest
  exact ⟨Str.ofChars_inj.mp hwords, hr⟩

theorem lineColumn_inj {line line' : Option Int} :
    lineColumn line = lineColumn line' ↔ line = line' := by
  refine ⟨fun h => ?_, congrArg lineColumn⟩
  obtain ⟨k, hk⟩ := exists_lineColumn line
  obtain ⟨k', hk'⟩ := exists_lineColumn line'
  have hlist : Str.ofChars (lineColumn line).toList ++ [.char ' '] =
      Str.ofChars (lineColumn line').toList ++ [.char ' '] := by rw [h]
  rw [hk, hk'] at hlist
  exact lineWord_inj.mp
    (word_append_inj k k' (isWord_lineWord line) (isWord_lineWord line') hlist).1

theorem isWord_padded (n : Nat) : IsWord (padded 4 n) :=
  (Json.numberText_of_digits (padded_ne_nil 4 n) (digits_padded 4 n)).isWord

/-! ## Bodies -/

/-- The mnemonic of a constant instruction, in its column. -/
def constantColumn : List Char := Opcode.constant.mnemonic.toList.rightpad 16 ' '

theorem text_constant (i : UInt8) (text : Str) : (Body.constant i text).text =
    Str.ofChars constantColumn ++ .char ' ' :: (Str.ofChars (padded 4 i.toNat) ++
      .char ' ' :: text) := by
  simp [Body.text, writtenOffset, constantColumn]

/-- Mnemonics are words, and no other body's text is one. -/
theorem plain_text_ne_constant (op : Opcode) (i : UInt8) (text : Str) :
    (Body.plain op).text ≠ (Body.constant i text).text := by
  intro h
  have hword : .char ' ' ∉ (Body.plain op).text := by cases op <;> decide
  rw [h, text_constant] at hword
  exact hword (List.mem_append_right _ List.mem_cons_self)

theorem illegal_text_ne_plain (op : Opcode) : Body.illegal.text ≠ (Body.plain op).text := by
  cases op <;> decide

theorem illegal_text_ne_constant (i : UInt8) (text : Str) :
    Body.illegal.text ≠ (Body.constant i text).text := by
  intro h
  have hhead := congrArg List.head? h
  rw [text_constant, List.head?_append_of_ne_nil _ (by decide)] at hhead
  exact absurd hhead (by decide)

/-- **Bodies.** The text tells what an entry shows. -/
theorem Body.text_inj {b b' : Body} : b.text = b'.text ↔ b = b' := by
  refine ⟨fun h => ?_, congrArg text⟩
  cases b with
  | illegal => cases b' with
    | illegal => rfl
    | plain op => exact absurd h (illegal_text_ne_plain op)
    | constant i text => exact absurd h (illegal_text_ne_constant i text)
  | plain op => cases b' with
    | illegal => exact absurd h.symm (illegal_text_ne_plain op)
    | plain op' =>
      have hop : Opcode.ofMnemonic? op.mnemonic = Opcode.ofMnemonic? op'.mnemonic :=
        congrArg _ (Str.coe_inj.mp h)
      rw [Opcode.ofMnemonic?_mnemonic, Opcode.ofMnemonic?_mnemonic] at hop
      rw [Option.some.inj hop]
    | constant i text => exact absurd h (plain_text_ne_constant op i text)
  | constant i text => cases b' with
    | illegal => exact absurd h.symm (illegal_text_ne_constant i text)
    | plain op => exact absurd h.symm (plain_text_ne_constant op i text)
    | constant i' text' =>
      rw [text_constant, text_constant] at h
      obtain ⟨hindex, rfl⟩ := word_append_inj 1 1 (isWord_padded _) (isWord_padded _)
        (List.append_cancel_left h)
      rw [UInt8.toNat_inj.mp (padded_inj.mp hindex)]

theorem Body.newLine_notMem_text {b : Body}
    (h : ∀ i text, b = .constant i text → .char '\n' ∉ text) : .char '\n' ∉ b.text := by
  cases b with
  | illegal => decide
  | plain op => cases op <;> decide
  | constant i text =>
    have hcolumn : .char '\n' ∉ Str.ofChars constantColumn := by decide
    have hindex : .char '\n' ∉ Str.ofChars (padded 4 i.toNat) :=
      notMem_of_isWord (isWord_padded i.toNat) (by decide)
    rw [text_constant]
    simp [hcolumn, hindex, h i text rfl]

/-! ## Entries -/

namespace Entry

variable {e e' : Entry}

theorem text_eq (e : Entry) : e.text = Str.ofChars (padded 4 e.offset) ++ .char ' ' ::
    (Str.ofChars (lineColumn e.line).toList ++ .char ' ' :: e.body.text) := by
  simp [text, writtenOffset]

/-- **Entries.** The text tells the offset, the line and what is shown. -/
theorem parts_of_text_eq (h : 0 ≤ e.offset) (h' : 0 ≤ e'.offset) (heq : e.text = e'.text) :
    e.offset = e'.offset ∧ e.line = e'.line ∧ e.body = e'.body := by
  obtain ⟨o, ho⟩ := Int.eq_ofNat_of_zero_le h
  obtain ⟨o', ho'⟩ := Int.eq_ofNat_of_zero_le h'
  obtain ⟨k, hcolumn⟩ := exists_lineColumn e.line
  obtain ⟨k', hcolumn'⟩ := exists_lineColumn e'.line
  rw [text_eq, text_eq, ho, ho', hcolumn, hcolumn'] at heq
  obtain ⟨hoffset, hrest⟩ :=
    word_append_inj 0 0 (isWord_padded o) (isWord_padded o') heq
  obtain ⟨hline, hbody⟩ :=
    word_append_inj k k' (isWord_lineWord e.line) (isWord_lineWord e'.line) hrest
  refine ⟨?_, lineWord_inj.mp hline, Body.text_inj.mp hbody⟩
  rw [ho, ho', padded_inj.mp hoffset]

theorem Legible.eq_of_text_eq (h : e.Legible) (h' : e'.Legible) (heq : e.text = e'.text) :
    e = e' := by
  obtain ⟨hoffset, hline, hbody⟩ := parts_of_text_eq h.offset h'.offset heq
  obtain ⟨op, hop, hnext⟩ := h.next
  obtain ⟨op', hop', hnext'⟩ := h'.next
  have hops : op = op' := by
    rw [hbody, hop'] at hop
    exact (Option.some.inj hop).symm
  have hnexts : e.next = e'.next := by rw [hnext, hnext', hoffset, hops]
  cases e
  cases e'
  cases hoffset
  cases hline
  cases hbody
  cases hnexts
  rfl

theorem Legible.newLine_notMem_text (h : e.Legible) : .char '\n' ∉ e.text := by
  obtain ⟨o, ho⟩ := Int.eq_ofNat_of_zero_le h.offset
  obtain ⟨k, hcolumn⟩ := exists_lineColumn e.line
  have hoffset : .char '\n' ∉ Str.ofChars (padded 4 o) :=
    notMem_of_isWord (isWord_padded o) (by decide)
  have hline : .char '\n' ∉ Str.ofChars (lineWord e.line) :=
    notMem_of_isWord (isWord_lineWord e.line) (by decide)
  have hblanks : .char '\n' ∉ Str.ofChars (List.replicate k ' ') := by
    simp [Str.ofChars, List.mem_replicate]
  rw [text_eq, ho, hcolumn, Str.ofChars_append]
  simp [hoffset, hline, hblanks, h.line]

end Entry

/-! ## Lines -/

/-- **Listings.** Under the same name, the text tells the entries. -/
theorem eq_of_render_eq {name : Str} {es es' : List Entry} (hes : ∀ e ∈ es, e.Legible)
    (hes' : ∀ e ∈ es', e.Legible) (heq : render name es = render name es') : es = es' := by
  have hlines := List.append_cancel_left heq
  clear heq
  induction es generalizing es' with
  | nil => cases es' with
    | nil => rfl
    | cons e' es' => simp at hlines
  | cons e es ih => cases es' with
    | nil => simp at hlines
    | cons e' es' =>
      obtain ⟨he, hrest⟩ := List.forall_mem_cons.mp hes
      obtain ⟨he', hrest'⟩ := List.forall_mem_cons.mp hes'
      rw [List.flatMap_cons, List.flatMap_cons, List.append_assoc, List.append_assoc] at hlines
      obtain ⟨htext, hlines⟩ :=
        append_mark_inj he.newLine_notMem_text he'.newLine_notMem_text hlines
      rw [he.eq_of_text_eq he' htext, ih hrest hrest' hlines]

end LoxMachine.Listing
