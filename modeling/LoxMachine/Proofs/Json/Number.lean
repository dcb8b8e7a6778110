import LoxMachine.Json.Reader
import LoxMachine.Json.Writer
import LoxMachine.Proofs.Number.Digits
import LoxMachine.Proofs.Number.ReadBack
import LoxMachine.Proofs.Text.Ascii
import LoxMachine.Proofs.Text.Blank

/-!
# Written numbers are read back

Each written number is a number of JSON's grammar that the reader takes off whole, as long as what
follows does not go on with it (`EndsNumber`). A binary64 is written by its shortest decimal, with
zeros or an exponent that rounding does not see; a whole number by its digits.

    EndsNumber r → readPlain (x.written numberWords ++ r) = .ok (.num x, r)   (readPlain_written)
    EndsNumber r → readPlain (Numeral.ofInt i ++ r) = .ok (.int i, r)         (readPlain_ofInt)
-/

namespace LoxMachine.Json

open Numeral Binary64

/-- A text that does not go on with a number before it. -/
def EndsNumber (s : List Char) : Prop :=
  ∀ c, s.head? = some c → isDigit c = false ∧ c ≠ '.' ∧ c ≠ 'e' ∧ c ≠ 'E'

theorem EndsNumber.startsNoDigit {s : List Char} (h : EndsNumber s) : StartsNoDigit s :=
  fun c hc => (h c hc).1

/-- The whole part of a number: zero, or digits that begin with another one. -/
structure WholePart (s : List Char) : Prop where
  digits : Digits s
  ne_nil : s ≠ []
  noZero : s.head? = some '0' → s = ['0']

theorem wholePart_ofNat (n : Nat) : WholePart (ofNat n) := by
  refine ⟨digits_ofNat n, ofNat_ne_nil n, ?_⟩
  intro h
  by_cases hn : n = 0
  · rw [hn]
    rfl
  · exact absurd h (head?_ofNat_ne hn)

namespace Number

/-! ## Parts -/

theorem scanWhole_append {ds r : List Char} (hds : WholePart ds) (hr : StartsNoDigit r) :
    scanWhole (ds ++ r) = some (ds, r) := by
  obtain ⟨c, cs, rfl⟩ := List.exists_cons_of_ne_nil hds.ne_nil
  by_cases h0 : c = '0'
  · subst h0
    have := hds.noZero rfl
    cases this
    rfl
  · rw [← spanDigits_append hds.digits hr, List.cons_append]
    unfold scanWhole
    split
    · next h =>
      cases h
      exact absurd rfl h0
    · next h =>
      cases h
      rw [if_pos (hds.digits c List.mem_cons_self)]
    · next h => cases h

theorem exists_digit_of_scanWhole {s : List Char} {found : List Char × List Char}
    (h : scanWhole s = some found) : ∃ c r, s = c :: r ∧ isDigit c = true := by
  unfold scanWhole at h
  split at h
  · exact ⟨_, _, rfl, by decide⟩
  · split at h
    · exact ⟨_, _, rfl, by assumption⟩
    · cases h
  · cases h

theorem scanFraction_append {ds r : List Char} (hds : Digits ds) (hne : ds ≠ [])
    (hr : StartsNoDigit r) : scanFraction ('.' :: (ds ++ r)) = (ds, r) := by
  simp only [scanFraction, spanDigits_append hds hr]
  split
  · next h =>
    cases h
    exact absurd rfl hne
  · rfl

theorem scanFraction_of_ne {s : List Char} (h : s.head? ≠ some '.') : scanFraction s = ([], s) := by
  unfold scanFraction
  split
  · exact absurd rfl h
  · rfl

theorem scanExponentDigits_append {ds r : List Char} (negative : Bool) (hds : Digits ds)
    (hne : ds ≠ []) (hr : StartsNoDigit r) :
    scanExponentDigits negative (ds ++ r) =
      some (if negative then -(toNat ds : Int) else toNat ds, r) := by
  unfold scanExponentDigits
  rw [spanDigits_append hds hr]
  split
  · next h =>
    cases h
    exact absurd rfl hne
  · next h =>
    cases h
    rfl

theorem scanExponent_append {ds r : List Char} (negative : Bool) (hds : Digits ds)
    (hne : ds ≠ []) (hr : StartsNoDigit r) :
    scanExponent ('e' :: (if negative then '-' else '+') :: (ds ++ r)) =
      (some (if negative then -(toNat ds : Int) else toNat ds), r) := by
  have := scanExponentDigits_append negative hds hne hr
  unfold scanExponent
  cases negative <;> simp_all

theorem scanExponent_of_endsNumber {s : List Char} (h : EndsNumber s) :
    scanExponent s = (none, s) := by
  unfold scanExponent
  cases s with
  | nil => rfl
  | cons c r =>
    have hc := (h c rfl).2.2
    dsimp only
    rw [if_neg (by rintro (he | he) <;> simp_all)]

/-- A number is scanned part by part, after its sign. -/
theorem scan_eq {negative : Bool} {s r₁ r₂ r₃ whole fraction : List Char} {exponent : Option Int}
    (hwhole : scanWhole s = some (whole, r₁)) (hfraction : scanFraction r₁ = (fraction, r₂))
    (hexponent : scanExponent r₂ = (exponent, r₃)) :
    scan ((if negative then ['-'] else []) ++ s) =
      some (⟨negative, whole, fraction, exponent⟩, r₃) := by
  obtain ⟨c, r, rfl, hc⟩ := exists_digit_of_scanWhole hwhole
  have hminus : c ≠ '-' := by
    rintro rfl
    cases hc
  unfold scan
  cases negative with
  | true =>
    simp [hwhole, hfraction, hexponent]
  | false =>
    simp only [Bool.false_eq_true, if_false, List.nil_append]
    split
    · next h =>
      cases h
      exact absurd rfl hminus
    · simp [hwhole, hfraction, hexponent]

theorem isPrefixOf?_of_ne {a c : Char} (h : (a == c) = false) (w r : List Char) :
    (a :: w).isPrefixOf? (c :: r) = none := by
  show (if (a == c) = true then w.isPrefixOf? r else none) = none
  rw [h]
  rfl

theorem isPrefixOf?_cons (a : Char) (w r : List Char) :
    (a :: w).isPrefixOf? (a :: r) = w.isPrefixOf? r := by
  show (if (a == a) = true then w.isPrefixOf? r else none) = _
  rw [beq_self_eq_true]
  rfl

/-- No word begins with a digit, also after a minus sign. -/
theorem readWord?_of_scanWhole {s : List Char} {found : List Char × List Char} (negative : Bool)
    (h : scanWhole s = some found) :
    readWord? ((if negative then ['-'] else []) ++ s) = none := by
  obtain ⟨c, r, rfl, hc⟩ := exists_digit_of_scanWhole h
  have hne (d : Char) (hd : isDigit d = false) : (d == c) = false := by
    rw [beq_eq_false_iff_ne]
    rintro rfl
    rw [hc] at hd
    cases hd
  have hI := hne 'I' rfl
  have hN := hne 'N' rfl
  have hf := hne 'f' rfl
  have hn := hne 'n' rfl
  have ht := hne 't' rfl
  have hminus := hne '-' rfl
  cases negative <;> simp [readWord?, words, isPrefixOf?_of_ne, isPrefixOf?_cons, *]

/-! ## Written decimals -/

/-- A text with a point in it that stands for a decimal of the given rank. -/
structure Pointed (s whole fraction : List Char) (rank : Nat) : Prop where
  text : s = whole ++ '.' :: fraction
  isWhole : WholePart whole
  digits : Digits fraction
  ne_nil : fraction ≠ []
  rank_eq : Decimal.exactRank ⟨toNat (whole ++ fraction), 0 - fraction.length⟩ = rank

theorem eq_zero_of_head? {n : Nat} (h : (ofNat n).head? = some '0') : n = 0 :=
  Classical.byContradiction fun hn => head?_ofNat_ne hn h

/-- Zeros up to the point, and one after it. -/
theorem pointed_zeros {n k : Nat} (h : n = 0 → k = 0) :
    Pointed (ofNat n ++ List.replicate k '0' ++ ['.', '0']) (ofNat n ++ List.replicate k '0') ['0']
      (Decimal.exactRank ⟨n, k⟩) := by
  refine ⟨rfl, ⟨(digits_ofNat n).append (digits_replicate k), ?_, ?_⟩, digits_replicate 1,
    nofun, ?_⟩
  · simp [ofNat_ne_nil]
  · intro h0
    obtain ⟨c, cs, hcs⟩ := List.exists_cons_of_ne_nil (ofNat_ne_nil n)
    have hn : n = 0 := eq_zero_of_head? (by
      rw [hcs] at h0 ⊢
      exact h0)
    rw [hn, h hn]
    rfl
  · have hvalue : toNat (ofNat n ++ List.replicate k '0' ++ ['0']) = n * 10 ^ (k + 1) := by
      rw [List.append_assoc, show ['0'] = List.replicate 1 '0' from rfl,
        List.replicate_append_replicate, toNat_append_zeros, toNat_ofNat]
    rw [hvalue, Decimal.exactRank_shift]
    congr 2
    rw [List.length_singleton]
    omega

/-- The point among the digits. -/
theorem pointed_split {n k : Nat} (h0 : 0 < k) (hk : k < (ofNat n).length) :
    Pointed ((ofNat n).take ((ofNat n).length - k) ++ '.' :: (ofNat n).drop ((ofNat n).length - k))
      ((ofNat n).take ((ofNat n).length - k)) ((ofNat n).drop ((ofNat n).length - k))
      (Decimal.exactRank ⟨n, -k⟩) := by
  have hdigits := digits_ofNat n
  refine ⟨rfl, ⟨hdigits.take _, ?_, ?_⟩, hdigits.drop _, ?_, ?_⟩
  · simp only [ne_eq, List.take_eq_nil_iff, ofNat_ne_nil, or_false]
    omega
  · intro hhead
    rw [List.head?_take, if_neg (by omega)] at hhead
    have hn := eq_zero_of_head? hhead
    rw [hn, ofNat_zero, List.length_singleton] at hk
    omega
  · simp only [ne_eq, List.drop_eq_nil_iff]
    omega
  · rw [List.take_append_drop, toNat_ofNat, List.length_drop]
    congr 2
    omega

/-- Zeros after the point. -/
theorem pointed_zero (n k : Nat) :
    Pointed ('0' :: '.' :: (List.replicate k '0' ++ ofNat n)) ['0']
      (List.replicate k '0' ++ ofNat n) (Decimal.exactRank ⟨n, -(k + (ofNat n).length : Nat)⟩) := by
  refine ⟨rfl, wholePart_ofNat 0, (digits_replicate k).append (digits_ofNat n), ?_, ?_⟩
  · simp [ofNat_ne_nil]
  · have hvalue : toNat (['0'] ++ (List.replicate k '0' ++ ofNat n)) = n := by
      rw [← List.append_assoc, show ['0'] = List.replicate 1 '0' from rfl,
        List.replicate_append_replicate, toNat_zeros_append, toNat_ofNat]
    rw [hvalue, List.length_append, List.length_replicate]
    congr 2
    omega

theorem exists_pointed {d : Decimal} (hd : d.digits = 0 → d.exponent ≤ 0) :
    ∃ whole fraction, Pointed d.positional whole fraction d.exactRank := by
  obtain ⟨n, e⟩ := d
  unfold Decimal.positional Decimal.leading
  dsimp only at hd ⊢
  by_cases he : 0 ≤ e
  · rw [if_pos he]
    have := pointed_zeros (n := n) (k := e.toNat) (fun hn => by have := hd hn; omega)
    rw [Int.toNat_of_nonneg he] at this
    exact ⟨_, _, this⟩
  · rw [if_neg he]
    by_cases hleading : 0 ≤ ((ofNat n).length : Int) - 1 + e
    · rw [if_pos hleading]
      have := pointed_split (n := n) (k := (-e).toNat) (by omega) (by omega)
      rw [Int.toNat_of_nonneg (by omega), Int.neg_neg] at this
      exact ⟨_, _, this⟩
    · rw [if_neg hleading]
      have := pointed_zero n (-((ofNat n).length - 1 + e) - 1 : Int).toNat
      rw [show -(((-((ofNat n).length - 1 + e) - 1 : Int).toNat + (ofNat n).length : Nat) : Int) = e
        by omega] at this
      exact ⟨_, _, this⟩

/-! ## Reading -/

theorem readPlain_eq {negative : Bool} {s r₁ r₂ r₃ whole fraction : List Char}
    {exponent : Option Int} (hwhole : scanWhole s = some (whole, r₁))
    (hfraction : scanFraction r₁ = (fraction, r₂)) (hexponent : scanExponent r₂ = (exponent, r₃)) :
    readPlain ((if negative then ['-'] else []) ++ s) =
      (toValue ⟨negative, whole, fraction, exponent⟩).map (·, r₃) := by
  unfold readPlain
  rw [readWord?_of_scanWhole negative hwhole, scan_eq hwhole hfraction hexponent]
  dsimp only
  cases toValue ⟨negative, whole, fraction, exponent⟩ <;> rfl

theorem toValue_of_not_isWhole {n : Number} (h : n.isWhole = false) :
    n.toValue = .ok (.num (.ofRank n.negative n.toDecimal.exactRank)) := by
  unfold toValue
  rw [h, if_neg Bool.false_ne_true, Decimal.toBinary64_eq]

theorem toValue_of_isWhole {n : Number} (h : n.isWhole = true) (hn : n.whole.length ≤ maxDigits) :
    n.toValue = .ok (.int (if n.negative then -(toNat n.whole : Int) else toNat n.whole)) := by
  unfold toValue
  rw [if_pos h, if_neg (by omega)]

theorem startsNoDigit_cons {c : Char} {r : List Char} (h : isDigit c = false) :
    StartsNoDigit (c :: r) := by
  intro d hd
  cases hd
  exact h

section
variable {r : List Char} (negative : Bool) (hr : EndsNumber r)

include hr

theorem readPlain_pointed {s whole fraction : List Char} {rank : Nat}
    (h : Pointed s whole fraction rank) :
    readPlain ((if negative then ['-'] else []) ++ (s ++ r)) =
      .ok (.num (.ofRank negative rank), r) := by
  have hpoint : StartsNoDigit ('.' :: (fraction ++ r)) := startsNoDigit_cons rfl
  rw [h.text, List.append_assoc, List.cons_append,
    readPlain_eq (scanWhole_append h.isWhole hpoint)
      (scanFraction_append h.digits h.ne_nil hr.startsNoDigit) (scanExponent_of_endsNumber hr),
    toValue_of_not_isWhole]
  · rw [← h.rank_eq]
    rfl
  · simp [isWhole, h.ne_nil]

theorem readPlain_scientific (d : Decimal) :
    readPlain ((if negative then ['-'] else []) ++ (d.scientific ++ r)) =
      .ok (.num (.ofRank negative d.exactRank), r) := by
  obtain ⟨c, cs, hcs⟩ := List.exists_cons_of_ne_nil (ofNat_ne_nil d.digits)
  have hdigits := digits_ofNat d.digits
  have hvalue := toNat_ofNat d.digits
  rw [hcs] at hdigits hvalue
  have hhead : WholePart [c] := by
    refine ⟨?_, nofun, ?_⟩
    · exact hdigits.take 1
    · intro h0
      cases h0
      rfl
  have hsign : (if d.leading < 0 then -(d.leading.natAbs : Int) else d.leading.natAbs) =
      d.leading := by
    split <;> omega
  have hexponent := scanExponent_append (decide (d.leading < 0)) (digits_padded 2 d.leading.natAbs)
    (padded_ne_nil 2 d.leading.natAbs) hr.startsNoDigit
  simp only [toNat_padded, decide_eq_true_eq, hsign] at hexponent
  have hleading : d.leading - cs.length = d.exponent := by
    rw [Decimal.leading, hcs, List.length_cons]
    omega
  have hrank : Decimal.exactRank ⟨toNat (c :: cs), d.leading - cs.length⟩ = d.exactRank := by
    rw [hvalue, hleading]
  unfold Decimal.scientific
  rw [hcs]
  cases cs with
  | nil =>
    show readPlain (_ ++ ([c] ++ 'e' :: (if d.leading < 0 then '-' else '+') ::
      (padded 2 d.leading.natAbs ++ r))) = _
    rw [readPlain_eq (scanWhole_append hhead (startsNoDigit_cons rfl))
      (show scanFraction ('e' :: _) = ([], 'e' :: _) from rfl) hexponent,
      toValue_of_not_isWhole rfl, ← hrank]
    rfl
  | cons c' cs =>
    have htext (e sign : Char) (t : List Char) : c :: '.' :: c' :: cs ++ e :: sign :: t ++ r =
        [c] ++ '.' :: ((c' :: cs) ++ e :: sign :: (t ++ r)) := by
      simp
    dsimp only
    rw [htext, readPlain_eq
      (scanWhole_append hhead (startsNoDigit_cons rfl))
      (scanFraction_append hdigits.tail nofun (startsNoDigit_cons rfl)) hexponent,
      toValue_of_not_isWhole rfl, ← hrank]
    rfl

theorem readPlain_decimal {d : Decimal} (hd : d.digits = 0 → d.exponent ≤ 0) :
    readPlain ((if negative then ['-'] else []) ++ (d.written ++ r)) =
      .ok (.num (.ofRank negative d.exactRank), r) := by
  unfold Decimal.written
  by_cases h : -4 ≤ d.leading ∧ d.leading < 16
  · obtain ⟨whole, fraction, hpointed⟩ := exists_pointed hd
    rw [if_pos h]
    exact readPlain_pointed negative hr hpointed
  · rw [if_neg h]
    exact readPlain_scientific negative hr d

end

end Number

/-- Zero has a shortest decimal without zeros to add. -/
theorem exponent_shortest_le {rank : Nat} (hlt : rank < rankLimit)
    (h0 : (Shortest.shortest rank).digits = 0) : (Shortest.shortest rank).exponent ≤ 0 := by
  have hrank : rank = 0 :=
    Classical.byContradiction fun hne => Shortest.digits_shortest_ne_zero hne hlt h0
  exact Int.le_of_eq (by rw [hrank, Shortest.shortest_zero])

/-- **Numbers.** A written binary64 is read back, minus zero, the infinities and nan included. -/
theorem readPlain_written {r : List Char} (hr : EndsNumber r) (x : Binary64) :
    readPlain (x.written numberWords ++ r) = .ok (.num x, r) := by
  cases x with
  | nan => rfl
  | infinite negative => cases negative <;> rfl
  | finite negative rank =>
    have hlt : rank.val < rankLimit := rank.isLt
    unfold written
    rw [List.append_assoc, Number.readPlain_decimal negative hr (exponent_shortest_le hlt),
      Shortest.exactRank_shortest hlt, Shortest.ofRank_fin]

theorem readPlain_ofInt {r : List Char} (hr : EndsNumber r) {i : Int}
    (hi : (ofNat i.natAbs).length ≤ maxDigits) :
    readPlain (ofInt i ++ r) = .ok (.int i, r) := by
  have hfraction : Number.scanFraction r = ([], r) :=
    Number.scanFraction_of_ne fun h => (hr _ h).2.1 rfl
  have htext : ofInt i ++ r = (if decide (i < 0) then ['-'] else []) ++ (ofNat i.natAbs ++ r) := by
    unfold ofInt
    by_cases hneg : i < 0 <;> simp [hneg]
  have hsign : (if i < 0 then -(i.natAbs : Int) else i.natAbs) = i := by
    split <;> omega
  rw [htext, Number.readPlain_eq (Number.scanWhole_append (wholePart_ofNat _) hr.startsNoDigit)
    hfraction (Number.scanExponent_of_endsNumber hr)]
  rw [Number.toValue_of_isWhole rfl hi]
  simp only [toNat_ofNat, decide_eq_true_eq, hsign]
  rfl

/-! ## Characters of numbers -/

/-- The characters that numbers are written with. -/
def IsNumberChar (c : Char) : Prop :=
  isDigit c = true ∨ c ∈ ['-', '+', '.', 'e', 'N', 'a', 'I', 'n', 'f', 'i', 't', 'y']

def NumberText (s : List Char) : Prop := s ≠ [] ∧ ∀ c ∈ s, IsNumberChar c

instance (c : Char) : Decidable (IsNumberChar c) := inferInstanceAs (Decidable (_ ∨ _))

instance (s : List Char) : Decidable (NumberText s) :=
  @instDecidableAnd _ _ inferInstance (List.decidableBAll IsNumberChar s)

theorem IsNumberChar.ne {c d : Char} (h : IsNumberChar c) (hd : isDigit d = false)
    (hmem : d ∉ ['-', '+', '.', 'e', 'N', 'a', 'I', 'n', 'f', 'i', 't', 'y']) : c ≠ d := by
  rintro rfl
  rcases h with h | h
  · rw [hd] at h
    cases h
  · exact hmem h

theorem IsNumberChar.isPlain {c : Char} (h : IsNumberChar c) : Text.IsPlain c := by
  rcases h with h | h
  · rw [isDigit_eq, Char.isDigit_iff_toNat] at h
    have h0 : '0'.toNat = 48 := rfl
    have h9 : '9'.toNat = 57 := rfl
    exact .inr (by omega)
  · have hall : Text.Plain ['-', '+', '.', 'e', 'N', 'a', 'I', 'n', 'f', 'i', 't', 'y'] := by
      decide
    exact hall c h

theorem NumberText.plain {s : List Char} (h : NumberText s) : Text.Plain s :=
  fun c hc => (h.2 c hc).isPlain

theorem NumberText.bare {s : List Char} (h : NumberText s) : Text.Bare s := by
  intro c hc
  rcases h.2 c hc with hdigit | hmem
  · rw [isDigit_eq, Char.isDigit_iff_toNat] at hdigit
    have h0 : '0'.toNat = 48 := rfl
    have h9 : '9'.toNat = 57 := rfl
    exact ⟨by omega, by omega⟩
  · have hall : Text.Bare ['-', '+', '.', 'e', 'N', 'a', 'I', 'n', 'f', 'i', 't', 'y'] := by decide
    exact hall c hmem

theorem NumberText.isWord {s : List Char} (h : NumberText s) : Text.IsWord s :=
  ⟨h.1, h.bare.noBlanks⟩

theorem numberText_of_digits {s : List Char} (hne : s ≠ []) (h : Digits s) : NumberText s :=
  ⟨hne, fun c hc => .inl (h c hc)⟩

theorem NumberText.append {s t : List Char} (hs : NumberText s) (ht : NumberText t) :
    NumberText (s ++ t) := by
  refine ⟨by simp [hs.1], ?_⟩
  intro c hc
  rcases List.mem_append.mp hc with hc | hc
  · exact hs.2 c hc
  · exact ht.2 c hc

theorem NumberText.cons {c : Char} {s : List Char} (hc : IsNumberChar c) (hs : NumberText s) :
    NumberText (c :: s) := by
  refine ⟨nofun, ?_⟩
  intro d hd
  rcases List.mem_cons.mp hd with rfl | hd
  · exact hc
  · exact hs.2 d hd

theorem numberText_ofInt (i : Int) : NumberText (ofInt i) := by
  have hdigits := numberText_of_digits (ofNat_ne_nil i.natAbs) (digits_ofNat i.natAbs)
  unfold ofInt
  split
  · exact hdigits.cons (.inr (by decide))
  · exact hdigits

theorem numberText_scientific (d : Decimal) : NumberText d.scientific := by
  obtain ⟨c, cs, hcs⟩ := List.exists_cons_of_ne_nil (ofNat_ne_nil d.digits)
  have hdigits := digits_ofNat d.digits
  rw [hcs] at hdigits
  have hexponent : NumberText ('e' :: (if d.leading < 0 then '-' else '+') ::
      padded 2 d.leading.natAbs) := by
    have hpadded := numberText_of_digits (padded_ne_nil 2 d.leading.natAbs) (digits_padded _ _)
    refine .cons (.inr (by decide)) (.cons ?_ hpadded)
    split <;> exact .inr (by decide)
  have hhead : IsNumberChar c := .inl (hdigits c List.mem_cons_self)
  unfold Decimal.scientific
  rw [hcs]
  cases cs with
  | nil => exact .append ⟨nofun, by simpa using hhead⟩ hexponent
  | cons c' cs =>
    have hfraction := numberText_of_digits (List.cons_ne_nil c' cs) hdigits.tail
    exact .append (.cons hhead (.cons (.inr (by decide)) hfraction)) hexponent

theorem numberText_written (x : Binary64) : NumberText (x.written numberWords) := by
  cases x with
  | nan => exact (by decide : NumberText "NaN".toList)
  | infinite negative =>
    cases negative with
    | true => exact (by decide : NumberText "-Infinity".toList)
    | false => exact (by decide : NumberText "Infinity".toList)
  | finite negative rank =>
    have hdecimal : NumberText (Shortest.shortest rank).written := by
      unfold Decimal.written
      split
      · obtain ⟨whole, fraction, h⟩ := Number.exists_pointed (exponent_shortest_le rank.isLt)
        rw [h.text]
        exact (numberText_of_digits h.isWhole.ne_nil h.isWhole.digits).append
          ((numberText_of_digits h.ne_nil h.digits).cons (.inr (by decide)))
      · exact numberText_scientific _
    unfold written
    cases negative with
    | true => exact hdecimal.cons (.inr (by decide))
    | false => exact hdecimal

end LoxMachine.Json
