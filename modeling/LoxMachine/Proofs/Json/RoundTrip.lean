import LoxMachine.Proofs.Json.Number
import LoxMachine.Proofs.Json.Quoted

/-!
# Written values are read back

A value whose whole numbers are not too long, whose strings are joined and whose records name each
key once is written as a text that is read as this value. The reader's bound on the depth is met by
the length of the text, since each level of brackets and each item takes characters of its own.

    Writable v → readText (write 0 v ++ ['\n']) = .ok v                    (readText_write)
-/

namespace LoxMachine.Json

open Numeral

/-! ## Writable values -/

mutual

def Writable : Value → Prop
  | .int i => (ofNat i.natAbs).length ≤ maxDigits
  | .list items => WritableItems items
  | .dict entries => (entries.map Prod.fst).Nodup ∧ WritableEntries entries
  | .str s => Joined s
  | .nil | .bool _ | .num _ => True

def WritableItems : List Value → Prop
  | [] => True
  | v :: vs => Writable v ∧ WritableItems vs

def WritableEntries : List (Str × Value) → Prop
  | [] => True
  | (key, v) :: es => Joined key ∧ Writable v ∧ WritableEntries es

end

theorem writableItems_iff {vs : List Value} : WritableItems vs ↔ ∀ v ∈ vs, Writable v := by
  induction vs with
  | nil => simp [WritableItems]
  | cons v vs ih => simp [WritableItems, ih]

theorem writable_of_isLox {v : Value} (h : v.IsLox) (hs : ∀ s, v = .str s → Joined s) :
    Writable v := by
  cases v with
  | nil | bool _ | num _ => trivial
  | str s => exact hs s rfl
  | int _ | list _ | dict _ => exact h.elim

/-! ## Blanks -/

theorem skipBlanks_newLine (k : Nat) (s : List Char) :
    skipBlanks (newLine k ++ s) = skipBlanks s := by
  have hblank : ∀ c ∈ newLine k, isBlank c = true := by
    intro c hc
    rcases List.mem_cons.mp hc with rfl | hc
    · rfl
    · rw [List.eq_of_mem_replicate hc]
      rfl
  exact List.dropWhile_append_of_pos hblank

theorem skipBlanks_cons {c : Char} (h : isBlank c = false) (s : List Char) :
    skipBlanks (c :: s) = c :: s := by
  rw [skipBlanks, List.dropWhile_cons, h, if_neg Bool.false_ne_true]

/-- A text that begins neither with a blank nor with a closing bracket. -/
def StartsValue (s : List Char) : Prop :=
  ∃ c r, s = c :: r ∧ isBlank c = false ∧ c ≠ ']' ∧ c ≠ '}'

theorem StartsValue.append {s : List Char} (h : StartsValue s) (t : List Char) :
    StartsValue (s ++ t) := by
  obtain ⟨c, r, rfl, hc⟩ := h
  exact ⟨c, r ++ t, rfl, hc⟩

theorem StartsValue.skipBlanks_eq {s : List Char} (h : StartsValue s) : skipBlanks s = s := by
  obtain ⟨c, r, rfl, hc, -⟩ := h
  exact skipBlanks_cons hc r

theorem NumberText.startsValue {s : List Char} (h : NumberText s) : StartsValue s := by
  obtain ⟨c, r, rfl⟩ := List.exists_cons_of_ne_nil h.1
  have hc := h.2 c List.mem_cons_self
  refine ⟨c, r, rfl, ?_, hc.ne rfl (by decide), hc.ne rfl (by decide)⟩
  simp [isBlank, hc.ne (d := ' ') rfl (by decide), hc.ne (d := '\t') rfl (by decide),
    hc.ne (d := '\n') rfl (by decide), hc.ne (d := '\r') rfl (by decide)]

theorem startsValue_write (k : Nat) (v : Value) : StartsValue (write k v) := by
  cases v with
  | nil => exact ⟨_, _, rfl, by decide⟩
  | bool b => cases b <;> exact ⟨_, _, rfl, by decide⟩
  | int i => exact (numberText_ofInt i).startsValue
  | num x => exact (numberText_written x).startsValue
  | str s => exact ⟨_, _, rfl, by decide⟩
  | list items => cases items <;> exact ⟨_, _, rfl, by decide⟩
  | dict entries => cases entries <;> exact ⟨_, _, rfl, by decide⟩

theorem endsNumber_cons {c : Char} (h : isDigit c = false ∧ c ≠ '.' ∧ c ≠ 'e' ∧ c ≠ 'E')
    (s : List Char) : EndsNumber (c :: s) := by
  intro d hd
  cases hd
  exact h

theorem endsNumber_newLine (k : Nat) (s : List Char) : EndsNumber (newLine k ++ s) :=
  endsNumber_cons (by decide) _

/-! ## Records -/

theorem setEntry_of_notMem {key : Str} {v : Value} {es : List (Str × Value)}
    (h : key ∉ es.map Prod.fst) : setEntry key v es = es ++ [(key, v)] := by
  induction es with
  | nil => rfl
  | cons e es ih =>
    obtain ⟨k, w⟩ := e
    rw [List.map_cons, List.mem_cons, not_or] at h
    rw [setEntry, if_neg (fun hk => h.1 hk.symm), ih h.2]
    rfl

theorem foldl_setEntry (done : List (Str × Value)) {es : List (Str × Value)}
    (h : ((done ++ es).map Prod.fst).Nodup) :
    es.foldl (fun es e => setEntry e.1 e.2 es) done = done ++ es := by
  induction es generalizing done with
  | nil => simp
  | cons e es ih =>
    have hnot : e.1 ∉ done.map Prod.fst := by
      rw [List.map_append, List.map_cons, List.nodup_append] at h
      intro hmem
      exact h.2.2 _ hmem _ List.mem_cons_self rfl
    rw [List.foldl_cons, setEntry_of_notMem hnot, ih, List.append_assoc, List.singleton_append]
    simpa using h

/-- Entries with different keys are kept as they are. -/
theorem record_of_nodup {es : List (Str × Value)} (h : (es.map Prod.fst).Nodup) :
    record es = es :=
  foldl_setEntry [] h

/-! ## Reading -/

theorem readValue_plain {s : List Char} {c : Char} {r : List Char} (hs : s = c :: r)
    (hquote : c ≠ '"') (hlist : c ≠ '[') (hdict : c ≠ '{') (depth : Nat) :
    readValue (depth + 1) s = readPlain s := by
  subst hs
  rw [readValue]
  · simp [hquote]
  · simp [hlist]
  · simp [hdict]

theorem readValue_numberText {s : List Char} (h : NumberText s) (r : List Char) (depth : Nat) :
    readValue (depth + 1) (s ++ r) = readPlain (s ++ r) := by
  obtain ⟨c, t, rfl⟩ := List.exists_cons_of_ne_nil h.1
  have hc := h.2 c List.mem_cons_self
  exact readValue_plain (List.cons_append ..) (hc.ne rfl (by decide)) (hc.ne rfl (by decide))
    (hc.ne rfl (by decide)) depth

theorem readValue_str {s : Str} (hs : Joined s) (r : List Char) (depth : Nat) :
    readValue (depth + 1) (encode s ++ r) = .ok (.str s, r) := by
  show readValue (depth + 1) ('"' :: (s.flatMap encodePoint ++ ['"'] ++ r)) = _
  rw [readValue, List.append_assoc, List.singleton_append, readString_encode hs]
  rfl

section
variable {depth k : Nat} {s t r : List Char} {v : Value}

theorem readValue_list {vs : List Value} (hs : StartsValue s)
    (h : readItems depth s = .ok (vs, r)) :
    readValue (depth + 1) ('[' :: (newLine k ++ s)) = .ok (.list vs, r) := by
  obtain ⟨c, u, rfl, -, hc, -⟩ := id hs
  rw [readValue, skipBlanks_newLine, hs.skipBlanks_eq]
  split
  · next heq =>
    cases heq
    exact absurd rfl hc
  · rw [h]
    rfl

theorem readItems_last (h : readValue depth s = .ok (v, newLine k ++ ']' :: r)) :
    readItems (depth + 1) s = .ok ([v], r) := by
  rw [readItems, h]
  simp only [bind, Except.bind]
  rw [skipBlanks_newLine, skipBlanks_cons rfl]
  rfl

theorem readItems_cons {vs : List Value} (h : readValue depth s = .ok (v, ',' :: (newLine k ++ t)))
    (ht : StartsValue t) (hrest : readItems depth t = .ok (vs, r)) :
    readItems (depth + 1) s = .ok (v :: vs, r) := by
  rw [readItems, h]
  simp only [bind, Except.bind, skipBlanks_cons (c := ',') rfl]
  rw [skipBlanks_newLine, ht.skipBlanks_eq, hrest]
  rfl

theorem readValue_dict {es : List (Str × Value)} (hs : StartsValue s)
    (hes : (es.map Prod.fst).Nodup) (h : readEntries depth s = .ok (es, r)) :
    readValue (depth + 1) ('{' :: (newLine k ++ s)) = .ok (.dict es, r) := by
  obtain ⟨c, u, rfl, -, -, hc⟩ := id hs
  rw [readValue, skipBlanks_newLine, hs.skipBlanks_eq]
  split
  · next heq =>
    cases heq
    exact absurd rfl hc
  · rw [h]
    dsimp only [bind, Except.bind, pure, Except.pure]
    rw [record_of_nodup hes]

/-- A key, its colon and a value are followed by the end of the record or by more entries. -/
theorem readEntries_eq {key : Str} (hkey : Joined key) (hs : StartsValue s)
    (h : readValue depth s = .ok (v, t)) :
    readEntries (depth + 1) (encode key ++ ':' :: ' ' :: s) = match skipBlanks t with
      | '}' :: rest => .ok ([(key, v)], rest)
      | ',' :: u => (readEntries depth (skipBlanks u)).map fun (es, rest) => ((key, v) :: es, rest)
      | u => .error (.syntaxFault .expectingComma u.length) := by
  have hblank : skipBlanks (' ' :: s) = s := hs.skipBlanks_eq
  show readEntries (depth + 1) ('"' :: (key.flatMap encodePoint ++ ['"'] ++ _)) = _
  rw [readEntries, List.append_assoc, List.singleton_append, readString_encode hkey]
  simp only [bind, Except.bind, skipBlanks_cons (c := ':') rfl]
  rw [hblank, h]
  dsimp only
  cases skipBlanks t with
  | nil => rfl
  | cons c u =>
    by_cases hclose : c = '}'
    · subst hclose
      rfl
    · by_cases hcomma : c = ','
      · subst hcomma
        show (readEntries depth (skipBlanks u) >>= fun (es, rest) => pure ((key, v) :: es, rest)) =
          (readEntries depth (skipBlanks u)).map fun (es, rest) => ((key, v) :: es, rest)
        cases readEntries depth (skipBlanks u) <;> rfl
      · simp [hclose, hcomma]

theorem readEntries_last {key : Str} (hkey : Joined key) (hs : StartsValue s)
    (h : readValue depth s = .ok (v, newLine k ++ '}' :: r)) :
    readEntries (depth + 1) (encode key ++ ':' :: ' ' :: s) = .ok ([(key, v)], r) := by
  rw [readEntries_eq hkey hs h, skipBlanks_newLine, skipBlanks_cons rfl]
  rfl

theorem readEntries_cons {key : Str} {es : List (Str × Value)} (hkey : Joined key)
    (hs : StartsValue s) (h : readValue depth s = .ok (v, ',' :: (newLine k ++ t)))
    (ht : StartsValue t) (hrest : readEntries depth t = .ok (es, r)) :
    readEntries (depth + 1) (encode key ++ ':' :: ' ' :: s) = .ok ((key, v) :: es, r) := by
  rw [readEntries_eq hkey hs h, skipBlanks_cons rfl]
  simp only
  rw [skipBlanks_newLine, ht.skipBlanks_eq, hrest]
  rfl

end

/-! ## Round trip -/

/-- The text of some items, the first included. -/
def itemsText (k : Nat) : List Value → List Char
  | [] => []
  | v :: vs => write k v ++ writeItems k vs

def entriesText (k : Nat) : List (Str × Value) → List Char
  | [] => []
  | (key, v) :: es => encode key ++ ':' :: ' ' :: (write k v ++ writeEntries k es)

section
variable (k : Nat)

theorem write_list (v : Value) (vs : List Value) (r : List Char) :
    write k (.list (v :: vs)) ++ r =
      '[' :: (newLine (k + 1) ++ (itemsText (k + 1) (v :: vs) ++ (newLine k ++ ']' :: r))) := by
  simp [write, itemsText]

theorem write_dict (key : Str) (v : Value) (es : List (Str × Value)) (r : List Char) :
    write k (.dict ((key, v) :: es)) ++ r =
      '{' :: (newLine (k + 1) ++ (entriesText (k + 1) ((key, v) :: es) ++
        (newLine k ++ '}' :: r))) := by
  simp [write, entriesText]

theorem writeItems_cons (v : Value) (vs : List Value) :
    writeItems k (v :: vs) = ',' :: (newLine k ++ itemsText k (v :: vs)) := by
  simp [writeItems, itemsText]

theorem writeEntries_cons (key : Str) (v : Value) (es : List (Str × Value)) :
    writeEntries k ((key, v) :: es) = ',' :: (newLine k ++ entriesText k ((key, v) :: es)) := by
  simp [writeEntries, entriesText]

theorem startsValue_itemsText (v : Value) (vs : List Value) : StartsValue (itemsText k (v :: vs)) :=
  (startsValue_write k v).append _

theorem startsValue_entriesText (key : Str) (v : Value) (es : List (Str × Value)) :
    StartsValue (entriesText k ((key, v) :: es)) :=
  ⟨_, _, rfl, by decide⟩

theorem length_write_pos (v : Value) : 0 < (write k v).length := by
  obtain ⟨c, r, h, -⟩ := startsValue_write k v
  rw [h]
  exact Nat.succ_pos _

end

mutual

/-- **Values.** A written value is read back, to any depth that its length allows for. -/
theorem readValue_write (v : Value) (k depth : Nat) (r : List Char) (hv : Writable v)
    (hr : EndsNumber r) (hdepth : 2 * (write k v).length ≤ depth) :
    readValue depth (write k v ++ r) = .ok (v, r) := by
  have hpos := length_write_pos k v
  obtain ⟨depth, rfl⟩ : ∃ d, depth = d + 1 := ⟨depth - 1, by omega⟩
  match v with
  | .nil => rfl
  | .bool true => rfl
  | .bool false => rfl
  | .int i =>
    show readValue (depth + 1) (ofInt i ++ r) = _
    rw [readValue_numberText (numberText_ofInt i), readPlain_ofInt hr hv]
  | .num x =>
    show readValue (depth + 1) (x.written numberWords ++ r) = _
    rw [readValue_numberText (numberText_written x), readPlain_written hr]
  | .str s => exact readValue_str hv r depth
  | .list [] => rfl
  | .list (v :: vs) =>
    have hlen := congrArg List.length (write_list k v vs [])
    simp only [List.length_append, List.length_cons, List.length_nil] at hlen
    rw [write_list]
    refine readValue_list ((startsValue_itemsText (k + 1) v vs).append _) ?_
    exact readItems_write (v :: vs) (k + 1) k depth r hv (List.cons_ne_nil v vs) (by omega)
  | .dict [] => rfl
  | .dict ((key, v) :: es) =>
    have hlen := congrArg List.length (write_dict k key v es [])
    simp only [List.length_append, List.length_cons, List.length_nil] at hlen
    rw [write_dict]
    refine readValue_dict ((startsValue_entriesText (k + 1) key v es).append _) hv.1 ?_
    exact readEntries_write ((key, v) :: es) (k + 1) k depth r hv.2 (List.cons_ne_nil _ es)
      (by omega)

theorem readItems_write (items : List Value) (k j depth : Nat) (r : List Char)
    (hitems : WritableItems items) (hne : items ≠ [])
    (hdepth : 2 * (itemsText k items).length < depth) :
    readItems depth (itemsText k items ++ (newLine j ++ ']' :: r)) = .ok (items, r) := by
  obtain ⟨depth, rfl⟩ : ∃ d, depth = d + 1 := ⟨depth - 1, by omega⟩
  match items with
  | [] => exact absurd rfl hne
  | [v] =>
    have hlen : (itemsText k [v]).length = (write k v).length := by
      simp [itemsText, writeItems]
    rw [itemsText, writeItems, List.append_nil]
    exact readItems_last (readValue_write v k depth _ hitems.1 (endsNumber_newLine j _) (by omega))
  | v :: w :: ws =>
    have hlen : (itemsText k (v :: w :: ws)).length = (write k v).length + 1 +
        (newLine k).length + (itemsText k (w :: ws)).length := by
      rw [itemsText, writeItems_cons]
      simp only [List.length_append, List.length_cons]
      omega
    rw [itemsText, writeItems_cons, List.append_assoc, List.cons_append, List.append_assoc]
    refine readItems_cons (k := k)
      (readValue_write v k depth _ hitems.1 (endsNumber_cons (by decide) _) (by omega))
      ((startsValue_itemsText k w ws).append _) ?_
    exact readItems_write (w :: ws) k j depth r hitems.2 (List.cons_ne_nil w ws) (by omega)

theorem readEntries_write (entries : List (Str × Value)) (k j depth : Nat) (r : List Char)
    (hentries : WritableEntries entries) (hne : entries ≠ [])
    (hdepth : 2 * (entriesText k entries).length < depth) :
    readEntries depth (entriesText k entries ++ (newLine j ++ '}' :: r)) = .ok (entries, r) := by
  obtain ⟨depth, rfl⟩ : ∃ d, depth = d + 1 := ⟨depth - 1, by omega⟩
  match entries with
  | [] => exact absurd rfl hne
  | [(key, v)] =>
    have hlen : (write k v).length ≤ (entriesText k [(key, v)]).length := by
      simp only [entriesText, writeEntries, List.length_append, List.length_cons]
      omega
    rw [entriesText, writeEntries, List.append_nil, List.append_assoc, List.cons_append,
      List.cons_append]
    exact readEntries_last hentries.1 ((startsValue_write k v).append _)
      (readValue_write v k depth _ hentries.2.1 (endsNumber_newLine j _) (by omega))
  | (key, v) :: (key', w) :: es =>
    have hlen : (write k v).length + (entriesText k ((key', w) :: es)).length <
        (entriesText k ((key, v) :: (key', w) :: es)).length := by
      show _ < (encode key ++ ':' :: ' ' ::
        (write k v ++ writeEntries k ((key', w) :: es))).length
      rw [writeEntries_cons]
      simp only [List.length_append, List.length_cons]
      omega
    rw [entriesText, writeEntries_cons, List.append_assoc, List.cons_append, List.cons_append,
      List.append_assoc, List.cons_append, List.append_assoc]
    refine readEntries_cons (k := k) hentries.1 ((startsValue_write k v).append _)
      (readValue_write v k depth _ hentries.2.1 (endsNumber_cons (by decide) _) (by omega))
      ((startsValue_entriesText k key' w es).append _) ?_
    exact readEntries_write ((key', w) :: es) k j depth r hentries.2.2 (List.cons_ne_nil _ es)
      (by omega)

end

/-! ## Whole texts -/

theorem plain_newLine (k : Nat) : Text.Plain (newLine k) := by
  refine .cons (by decide) ?_
  intro c hc
  rw [List.eq_of_mem_replicate hc]
  decide

mutual

theorem plain_write (v : Value) (k : Nat) : Text.Plain (write k v) := by
  match v with
  | .nil => exact (by decide : Text.Plain "null".toList)
  | .bool true => exact (by decide : Text.Plain "true".toList)
  | .bool false => exact (by decide : Text.Plain "false".toList)
  | .list [] => exact (by decide : Text.Plain ['[', ']'])
  | .dict [] => exact (by decide : Text.Plain ['\x7b', '\x7d'])
  | .int i => exact (numberText_ofInt i).plain
  | .num x => exact (numberText_written x).plain
  | .str s => exact plain_encode s
  | .list (v :: vs) =>
    rw [← List.append_nil (write k _), write_list]
    exact .cons (by decide) ((plain_newLine _).append ((plain_itemsText (v :: vs) _).append
      ((plain_newLine k).append (by decide))))
  | .dict ((key, v) :: es) =>
    rw [← List.append_nil (write k _), write_dict]
    exact .cons (by decide) ((plain_newLine _).append ((plain_entriesText ((key, v) :: es) _).append
      ((plain_newLine k).append (by decide))))

theorem plain_itemsText (items : List Value) (k : Nat) : Text.Plain (itemsText k items) := by
  match items with
  | [] => exact nofun
  | [v] =>
    rw [itemsText, writeItems, List.append_nil]
    exact plain_write v k
  | v :: w :: ws =>
    rw [itemsText, writeItems_cons]
    exact (plain_write v k).append (.cons (by decide) ((plain_newLine k).append
      (plain_itemsText (w :: ws) k)))

theorem plain_entriesText (entries : List (Str × Value)) (k : Nat) :
    Text.Plain (entriesText k entries) := by
  match entries with
  | [] => exact nofun
  | [(key, v)] =>
    rw [entriesText, writeEntries, List.append_nil]
    exact (plain_encode _).append (.cons (by decide) (.cons (by decide) (plain_write v k)))
  | (key, v) :: (key', w) :: es =>
    rw [entriesText, writeEntries_cons]
    exact (plain_encode _).append (.cons (by decide) (.cons (by decide) ((plain_write v k).append
      (.cons (by decide) ((plain_newLine k).append (plain_entriesText ((key', w) :: es) k))))))

end

/-- **Texts.** The text of a value is read as the value, whatever blanks follow. -/
theorem readText_write_append {v : Value} (hv : Writable v) {r : List Char} (hend : EndsNumber r)
    (hr : skipBlanks r = []) : readText (write 0 v ++ r) = .ok v := by
  have hread := readValue_write v 0 (2 * (write 0 v ++ r).length + 1) r hv hend (by
    rw [List.length_append]
    omega)
  obtain ⟨c, t, hw, -⟩ := startsValue_write 0 v
  unfold readText
  split
  · next heq =>
    have hplain := plain_write v 0
    rw [hw] at heq hplain
    cases heq
    exact absurd (hplain '\ufeff' List.mem_cons_self) (by decide)
  · rw [((startsValue_write 0 v).append _).skipBlanks_eq, hread]
    dsimp only [bind, Except.bind]
    rw [hr]
    rfl

theorem readText_write {v : Value} (hv : Writable v) : readText (write 0 v ++ ['\n']) = .ok v :=
  readText_write_append hv (endsNumber_cons (by decide) []) rfl

end LoxMachine.Json
