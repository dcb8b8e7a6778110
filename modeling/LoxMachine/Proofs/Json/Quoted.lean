import LoxMachine.Json.Quoted
import LoxMachine.Proofs.Text.Ascii
import Mathlib.Data.List.Chain

/-!
# Written strings are read back

Each code point is written so that the reader takes it as pieces that join to it again. Only a high
surrogate takes something from the pieces that follow, namely a low one; so a string in which none
has a low one after it is read as itself, and all that is read is such a string.

    Joined s → readString (s.flatMap encodePoint ++ '"' :: r) = .ok (s, r)      (readString_encode)

An `\uXXXX` escape is never the last thing in a text, since the closing quote follows it.
-/

namespace LoxMachine.Json

/-! ## Hexadecimal digits -/

theorem hexValue?_digitChar {d : Nat} (h : d < 16) : hexValue? d.digitChar = some d := by
  have hall : ∀ d, d < 16 → hexValue? d.digitChar = some d := by decide
  exact hall d h

theorem hex_one {n : Nat} (h : n < 16) : Text.hex 1 n = [n.digitChar] := by
  rw [Text.hex, Nat.toDigits_of_lt_base h]
  rfl

/-- All digits but the last are those of the sixteenth part. -/
theorem hex_succ {width : Nat} (h : 0 < width) (n : Nat) :
    Text.hex (width + 1) n = Text.hex width (n / 16) ++ [(n % 16).digitChar] := by
  unfold Text.hex List.leftpad
  by_cases hn : n < 16
  · obtain ⟨k, rfl⟩ : ∃ k, width = k + 1 := ⟨width - 1, by omega⟩
    rw [Nat.div_eq_of_lt hn, Nat.mod_eq_of_lt hn, Nat.toDigits_of_lt_base hn, Nat.toDigits_zero]
    simp [List.replicate_succ']
  · rw [Nat.toDigits_of_base_le (by decide) (Nat.le_of_not_lt hn), List.length_append,
      List.length_singleton, Nat.add_sub_add_right, List.append_assoc]

theorem hex_four {u : Nat} (h : u < 0x10000) :
    Text.hex 4 u = [(u / 16 / 16 / 16).digitChar, (u / 16 / 16 % 16).digitChar,
      (u / 16 % 16).digitChar, (u % 16).digitChar] := by
  rw [hex_succ (by decide), hex_succ (by decide), hex_succ (by decide), hex_one (by omega)]
  rfl

theorem unit?_hex {u : Nat} (h : u < 0x10000) :
    ∃ a b c d, Text.hex 4 u = [a, b, c, d] ∧ unit? a b c d = some u := by
  refine ⟨_, _, _, _, hex_four h, ?_⟩
  unfold unit?
  rw [hexValue?_digitChar (by omega), hexValue?_digitChar (by omega),
    hexValue?_digitChar (by omega), hexValue?_digitChar (by omega)]
  show some (((u / 16 / 16 / 16 * 16 + u / 16 / 16 % 16) * 16 + u / 16 % 16) * 16 + u % 16) =
    some u
  congr 1
  omega

/-! ## Code units -/

/-- Characters are below U+110000, and none of them is a surrogate. -/
theorem toNat_char (c : Char) : c.toNat < 0xd800 ∨ 0xdfff < c.toNat ∧ c.toNat < 0x110000 := c.valid

theorem codeUnits_lt {c : Char} {u : Nat} (h : u ∈ codeUnits c) : u < 0x10000 := by
  have hvalid := toNat_char c
  simp only [codeUnits] at h
  split at h
  · rw [List.mem_singleton.mp h]
    assumption
  · rcases List.mem_cons.mp h with rfl | h
    · omega
    · rw [List.mem_singleton.mp h]
      omega

theorem isHighSurrogate_iff {u : Nat} : isHighSurrogate u = true ↔ 0xd800 ≤ u ∧ u < 0xdc00 := by
  simp [isHighSurrogate]

theorem isLowSurrogate_iff {u : Nat} : isLowSurrogate u = true ↔ 0xdc00 ≤ u ∧ u < 0xe000 := by
  simp [isLowSurrogate]

theorem isHighSurrogate_char (c : Char) : isHighSurrogate c.toNat = false := by
  have hvalid := toNat_char c
  rw [← Bool.not_eq_true, isHighSurrogate_iff]
  omega

theorem isLowSurrogate_char (c : Char) : isLowSurrogate c.toNat = false := by
  have hvalid := toNat_char c
  rw [← Bool.not_eq_true, isLowSurrogate_iff]
  omega

theorem loneUnit_toNat (p : CodePoint) : loneUnit p.toNat = p := by
  unfold loneUnit
  cases p with
  | char c =>
    have hvalid := toNat_char c
    rw [dif_neg (by simp only [CodePoint.toNat]; omega)]
    exact congrArg CodePoint.char (Char.ofNat_toNat c)
  | surrogate index =>
    have hlt := index.isLt
    rw [dif_pos (by simp only [CodePoint.toNat]; omega)]
    exact congrArg CodePoint.surrogate (Fin.ext (Nat.add_sub_cancel_left ..))

theorem surrogate_loneUnit (u : Nat) :
    isHighSurrogate (loneUnit u).toNat = isHighSurrogate u ∧
      isLowSurrogate (loneUnit u).toNat = isLowSurrogate u := by
  unfold loneUnit
  split
  · next h =>
    have htoNat : (CodePoint.surrogate ⟨u - 0xd800, by omega⟩).toNat = u :=
      Nat.add_sub_cancel' h.1
    rw [htoNat]
    exact ⟨rfl, rfl⟩
  · next h =>
    have hhigh : isHighSurrogate u = false := by
      rw [← Bool.not_eq_true, isHighSurrogate_iff]
      omega
    have hlow : isLowSurrogate u = false := by
      rw [← Bool.not_eq_true, isLowSurrogate_iff]
      omega
    rw [hhigh, hlow]
    exact ⟨isHighSurrogate_char _, isLowSurrogate_char _⟩

/-- The pieces begin with a unit that a high surrogate before them would take. -/
def BeginsLow : List Piece → Prop
  | .unit u :: _ => isLowSurrogate u = true
  | _ => False

theorem joinPieces_unit {u : Nat} {more : List Piece}
    (h : isHighSurrogate u = true → ¬ BeginsLow more) :
    joinPieces (.unit u :: more) = loneUnit u :: joinPieces more := by
  cases more with
  | nil => rfl
  | cons p r =>
    cases p with
    | char c => rfl
    | unit l =>
      have hnot : ¬ (isHighSurrogate u && isLowSurrogate l) = true := by
        rw [Bool.and_eq_true]
        exact fun hboth => h hboth.1 hboth.2
      rw [joinPieces, if_neg hnot]

/-- The code units of a character join to it, whatever follows. -/
theorem joinPieces_codeUnits (c : Char) (more : List Piece) :
    joinPieces ((codeUnits c).map .unit ++ more) = .char c :: joinPieces more := by
  have hvalid := toNat_char c
  unfold codeUnits
  dsimp only
  by_cases h : c.toNat < 0x10000
  · have hhigh : ¬ isHighSurrogate c.toNat = true := by
      rw [isHighSurrogate_char]
      exact Bool.false_ne_true
    rw [if_pos h]
    show joinPieces (.unit c.toNat :: more) = _
    rw [joinPieces_unit fun hc => absurd hc hhigh]
    exact congrArg (· :: _) (loneUnit_toNat (.char c))
  · have hhigh : isHighSurrogate (0xd800 + (c.toNat - 0x10000) / 0x400) = true := by
      rw [isHighSurrogate_iff]
      omega
    have hlow : isLowSurrogate (0xdc00 + (c.toNat - 0x10000) % 0x400) = true := by
      rw [isLowSurrogate_iff]
      omega
    have hcode : 0x10000 + (0xd800 + (c.toNat - 0x10000) / 0x400 - 0xd800) * 0x400 +
        (0xdc00 + (c.toNat - 0x10000) % 0x400 - 0xdc00) = c.toNat := by omega
    rw [if_neg h]
    show joinPieces (.unit _ :: .unit _ :: more) = _
    rw [joinPieces, hhigh, hlow, hcode, Char.ofNat_toNat]
    rfl

/-- The first unit of a character is no low surrogate. -/
theorem not_beginsLow_codeUnits (c : Char) (more : List Piece) :
    ¬ BeginsLow ((codeUnits c).map .unit ++ more) := by
  have hvalid := toNat_char c
  unfold codeUnits
  dsimp only
  by_cases h : c.toNat < 0x10000
  · rw [if_pos h]
    show ¬ isLowSurrogate c.toNat = true
    rw [isLowSurrogate_char]
    exact Bool.false_ne_true
  · rw [if_neg h]
    show ¬ isLowSurrogate (0xd800 + (c.toNat - 0x10000) / 0x400) = true
    rw [isLowSurrogate_iff]
    omega

/-! ## Joined strings -/

/-- No high surrogate has a low one after it, since such a pair is read as one character. -/
def Joined (s : Str) : Prop :=
  List.IsChain (fun p q =>
    ¬ (isHighSurrogate p.toNat = true ∧ isLowSurrogate q.toNat = true)) s

instance : DecidablePred Joined := fun s => by unfold Joined; infer_instance

theorem joined_cons {p : CodePoint} {s : Str} : Joined (p :: s) ↔
    (∀ q ∈ s.head?, ¬ (isHighSurrogate p.toNat = true ∧ isLowSurrogate q.toNat = true)) ∧
      Joined s :=
  List.isChain_cons

theorem joined_char {c : Char} {s : Str} (hs : Joined s) : Joined (.char c :: s) := by
  refine joined_cons.mpr ⟨fun q _ hboth => ?_, hs⟩
  rw [show (CodePoint.char c).toNat = c.toNat from rfl, isHighSurrogate_char] at hboth
  cases hboth.1

/-- A string that can be encoded has no surrogates to join. -/
theorem joined_of_encodable {s : Str} (h : s.Encodable) : Joined s := by
  obtain ⟨cs, rfl⟩ := Str.encodable_iff.mp h
  induction cs with
  | nil => exact .nil
  | cons c cs ih => exact joined_char (ih (Str.encodable_ofChars cs))

/-- A low surrogate comes of a unit that is one. -/
theorem beginsLow_of_mem_head? {ps : List Piece} {q : CodePoint} (hq : q ∈ (joinPieces ps).head?)
    (hlow : isLowSurrogate q.toNat = true) : BeginsLow ps := by
  have hchar (c : Char) : q ≠ .char c := by
    rintro rfl
    rw [show (CodePoint.char c).toNat = c.toNat from rfl, isLowSurrogate_char] at hlow
    cases hlow
  have hunit {u : Nat} (h : loneUnit u = q) : isLowSurrogate u = true := by
    rwa [← (surrogate_loneUnit u).2, h]
  revert hq
  fun_cases joinPieces ps with
  | case1 h l r hpair => exact fun hq => absurd (Option.some.inj hq).symm (hchar _)
  | case2 h l r hpair => exact fun hq => hunit (Option.some.inj hq)
  | case3 u r _ => exact fun hq => hunit (Option.some.inj hq)
  | case4 c r => exact fun hq => absurd (Option.some.inj hq).symm (hchar c)
  | case5 => nofun

/-- What pieces are joined to is joined. -/
theorem joined_joinPieces (ps : List Piece) : Joined (joinPieces ps) := by
  fun_induction joinPieces ps with
  | case1 h l r hpair ih => exact joined_char ih
  | case2 h l r hpair ih =>
    refine joined_cons.mpr ⟨fun q hq hboth => hpair ?_, ih⟩
    rw [Bool.and_eq_true, ← (surrogate_loneUnit h).1]
    exact ⟨hboth.1, beginsLow_of_mem_head? hq hboth.2⟩
  | case3 u r hr ih =>
    refine joined_cons.mpr ⟨fun q hq hboth => ?_, ih⟩
    have hbegins := beginsLow_of_mem_head? hq hboth.2
    cases r with
    | nil => exact hbegins
    | cons p r =>
      cases p with
      | char c => exact hbegins
      | unit l => exact hr l r rfl
  | case4 c r ih => exact joined_char ih
  | case5 => exact .nil

/-! ## Characters -/

/-- What a reader makes of a text in front of another one that is not empty: the pieces come first.
-/
def ReadsAs (text : List Char) (ps : List Piece) : Prop :=
  ∀ {start : Nat} {e : Char} {r : List Char} {pieces : List Piece} {rest : List Char},
    readPieces start (e :: r) = .ok (pieces, rest) →
      readPieces start (text ++ e :: r) = .ok (ps ++ pieces, rest)

theorem readsAs_nil : ReadsAs [] [] := fun h => h

theorem ReadsAs.append {s t : List Char} {ps qs : List Piece} (hs : ReadsAs s ps)
    (ht : ReadsAs t qs) : ReadsAs (s ++ t) (ps ++ qs) := by
  intro start e r pieces rest h
  have htail := ht h
  rw [List.append_assoc, List.append_assoc]
  cases hcons : t ++ e :: r with
  | nil => simp at hcons
  | cons e' r' =>
    rw [hcons] at htail
    exact hs htail

theorem readsAs_short {c x : Char} (h : shortEscape? c = some x) :
    ReadsAs ['\\', c] [.char x] := by
  have hu : c ≠ 'u' := by
    rintro rfl
    cases h
  intro start e r pieces rest hr
  show readPieces start ('\\' :: c :: e :: r) = _
  rw [readPieces, h]
  · dsimp only
    rw [hr]
    rfl
  · simp [hu]
  · simp [hu]

theorem readsAs_digits {a b c d : Char} {u : Nat} (h : unit? a b c d = some u) :
    ReadsAs ['\\', 'u', a, b, c, d] [.unit u] := by
  intro start e r pieces rest hr
  simp only [List.cons_append, List.nil_append]
  rw [readPieces, h]
  dsimp only
  rw [hr]
  rfl

theorem readsAs_unit {u : Nat} (h : u < 0x10000) :
    ReadsAs ('\\' :: 'u' :: Text.hex 4 u) [.unit u] := by
  obtain ⟨a, b, c, d, hhex, hunit⟩ := unit?_hex h
  rw [hhex]
  exact readsAs_digits hunit

theorem readsAs_char {c : Char} (h : 0x20 ≤ c.toNat) (hquote : c ≠ '"') (hslash : c ≠ '\\') :
    ReadsAs [c] [.char c] := by
  intro start e r pieces rest hr
  show readPieces start (c :: e :: r) = _
  rw [readPieces, if_neg (by omega), hr]
  · rfl
  · simp [hquote]
  · simp [hslash]
  · simp [hslash]
  · simp [hslash]
  · simp [hslash]

theorem readsAs_units {us : List Nat} (h : ∀ u ∈ us, u < 0x10000) :
    ReadsAs (us.flatMap fun u => '\\' :: 'u' :: Text.hex 4 u) (us.map .unit) := by
  induction us with
  | nil => exact readsAs_nil
  | cons u us ih =>
    rw [List.flatMap_cons, List.map_cons, ← List.singleton_append]
    exact ReadsAs.append (readsAs_unit (h u List.mem_cons_self))
      (ih fun v hv => h v (List.mem_cons_of_mem u hv))

/-- Each character is read as pieces that join to it and take nothing from before them. -/
theorem exists_readsAs_encodeChar (c : Char) :
    ∃ ps, ReadsAs (encodeChar c) ps ∧ ∀ more, ¬ BeginsLow (ps ++ more) ∧
      joinPieces (ps ++ more) = .char c :: joinPieces more := by
  unfold encodeChar
  split
  · exact ⟨_, readsAs_short rfl, fun _ => ⟨id, rfl⟩⟩
  · exact ⟨_, readsAs_short rfl, fun _ => ⟨id, rfl⟩⟩
  · exact ⟨_, readsAs_short rfl, fun _ => ⟨id, rfl⟩⟩
  · exact ⟨_, readsAs_short rfl, fun _ => ⟨id, rfl⟩⟩
  · exact ⟨_, readsAs_short rfl, fun _ => ⟨id, rfl⟩⟩
  · exact ⟨_, readsAs_short rfl, fun _ => ⟨id, rfl⟩⟩
  · exact ⟨_, readsAs_short rfl, fun _ => ⟨id, rfl⟩⟩
  · next hquote hslash _ _ _ _ _ =>
    split
    · next h => exact ⟨[.char c], readsAs_char h.1 hquote hslash, fun _ => ⟨id, rfl⟩⟩
    · exact ⟨(codeUnits c).map .unit, readsAs_units fun u hu => codeUnits_lt hu,
        fun more => ⟨not_beginsLow_codeUnits c more, joinPieces_codeUnits c more⟩⟩

/-- Each code point is read as pieces that join to it, unless it is a high surrogate that takes a
low one from what follows. -/
theorem exists_readsAs_encodePoint (p : CodePoint) :
    ∃ ps, ReadsAs (encodePoint p) ps ∧ ∀ more,
      (BeginsLow (ps ++ more) → isLowSurrogate p.toNat = true) ∧
        ((isHighSurrogate p.toNat = true → ¬ BeginsLow more) →
          joinPieces (ps ++ more) = p :: joinPieces more) := by
  cases p with
  | char c =>
    obtain ⟨ps, hreads, hjoin⟩ := exists_readsAs_encodeChar c
    exact ⟨ps, hreads, fun more => ⟨fun h => absurd h (hjoin more).1, fun _ => (hjoin more).2⟩⟩
  | surrogate index =>
    have hlt : 0xd800 + index.val < 0x10000 := by omega
    refine ⟨[.unit (0xd800 + index)], readsAs_unit hlt, fun more => ⟨id, fun h => ?_⟩⟩
    show joinPieces (.unit (CodePoint.surrogate index).toNat :: more) = _
    rw [joinPieces_unit h, loneUnit_toNat]

/-! ## Strings -/

theorem exists_readsAs_encode {s : Str} (hs : Joined s) :
    ∃ ps, ReadsAs (s.flatMap encodePoint) ps ∧ ∀ more, ¬ BeginsLow more →
      (BeginsLow (ps ++ more) → ∃ p ∈ s.head?, isLowSurrogate p.toNat = true) ∧
        joinPieces (ps ++ more) = s ++ joinPieces more := by
  induction s with
  | nil => exact ⟨[], readsAs_nil, fun more hmore => ⟨fun h => absurd h hmore, rfl⟩⟩
  | cons p s ih =>
    obtain ⟨hnext, hs⟩ := joined_cons.mp hs
    obtain ⟨ps, hreads, hjoin⟩ := exists_readsAs_encodePoint p
    obtain ⟨qs, hreads', hjoin'⟩ := ih hs
    refine ⟨ps ++ qs, ?_, fun more hmore => ?_⟩
    · rw [List.flatMap_cons]
      exact hreads.append hreads'
    · obtain ⟨hlow, heq⟩ := hjoin' more hmore
      have hapart : isHighSurrogate p.toNat = true → ¬ BeginsLow (qs ++ more) := by
        intro hhigh hbegins
        obtain ⟨q, hq, hqlow⟩ := hlow hbegins
        exact hnext q hq ⟨hhigh, hqlow⟩
      rw [List.append_assoc]
      refine ⟨fun h => ⟨p, rfl, (hjoin _).1 h⟩, ?_⟩
      rw [(hjoin _).2 hapart, heq]
      rfl

/-- **Strings.** A written string is read back, from behind its opening quote. -/
theorem readString_encode {s : Str} (hs : Joined s) (r : List Char) :
    readString (s.flatMap encodePoint ++ '"' :: r) = .ok (s, r) := by
  obtain ⟨ps, hreads, hjoin⟩ := exists_readsAs_encode hs
  have hend (start : Nat) : readPieces start ('"' :: r) = .ok ([], r) := by rw [readPieces]
  have hpieces := hreads (hend ((s.flatMap encodePoint ++ '"' :: r).length + 1))
  have heq := (hjoin [] id).2
  rw [joinPieces, List.append_nil, List.append_nil] at heq
  unfold readString
  rw [hpieces, List.append_nil]
  dsimp only [bind, Except.bind, pure, Except.pure]
  rw [heq]

/-! ## Plain text -/

theorem plain_hex {u : Nat} (h : u < 0x10000) : Text.Plain (Text.hex 4 u) := by
  have hdigit {d : Nat} (hd : d < 16) : Text.IsPlain d.digitChar := by
    have hall : ∀ d, d < 16 → Text.IsPlain d.digitChar := by decide
    exact hall d hd
  rw [hex_four h]
  refine .cons (hdigit (by omega)) (.cons (hdigit (by omega)) (.cons (hdigit (by omega))
    (.cons (hdigit (by omega)) nofun)))

theorem plain_encodeChar (c : Char) : Text.Plain (encodeChar c) := by
  unfold encodeChar
  split
  iterate 7 decide
  split
  · next h => exact .cons (.inr h) nofun
  · refine .flatMap ?_
    intro u hu
    exact .cons (by decide) (.cons (by decide) (plain_hex (codeUnits_lt hu)))

theorem plain_encodePoint (p : CodePoint) : Text.Plain (encodePoint p) := by
  cases p with
  | char c => exact plain_encodeChar c
  | surrogate index =>
    exact .cons (by decide) (.cons (by decide) (plain_hex (by omega)))

theorem plain_encode (s : Str) : Text.Plain (encode s) := by
  have hs : Text.Plain (s.flatMap encodePoint) := .flatMap fun p _ => plain_encodePoint p
  exact .cons (by decide) (hs.append (by decide))

end LoxMachine.Json
