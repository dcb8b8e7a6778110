import LoxMachine.Proofs.Assembly.Rendering
import LoxMachine.Proofs.Literal.Grammar

/-!
# Where a quotation ends

The scan for a comment takes a backslash in quotes for the start of an escape, whatever comes after
it. A literal between single quotes knows no escape but that of the quote. So the two disagree
about where a string with backslashes ends, unless each backslash has a character of its own to
take along: the literal is always read as the string, but a line with it is assembled to the string
if and only if the scan leaves the literal by its last quote.

    Literal.read (quoted s) = .ok (.str s)                                       (read_quoted)
    assemble [constantLine (quoted s) comment] = … s ↔ Closed s          (assemble_quoted_iff)
-/

namespace LoxMachine.Assembly

open Text

/-- A line that puts a literal into the pool, with a comment at its end. -/
def constantLine (literal comment : List Char) : List Char :=
  "1 OP_CONSTANT ".toList ++ (literal ++ ' ' :: '#' :: ' ' :: comment)

/-- The chunk of such a line. -/
def constantChunk (v : Value) : Chunk where
  cells := #[⟨Opcode.constant.tag, 1⟩, ⟨0, 1⟩]
  constants := #[v]

/-- The scan finds no comment in the quoted string, and it is outside of quotes after it. -/
def Closed (s : List Char) : Prop := Clear (Literal.quoted s)

instance (s : List Char) : Decidable (Closed s) := inferInstanceAs (Decidable (Clear _))

/-- Each backslash takes a character along, and this is no quote. -/
inductive Paired : List Char → Prop
  | nil : Paired []
  | plain {c : Char} {s : List Char} (hc : c ≠ '\\') (h : Paired s) : Paired (c :: s)
  | pair {c : Char} {s : List Char} (hc : c ≠ '\'') (h : Paired s) : Paired ('\\' :: c :: s)

/-- A string without backslashes is paired, and so is one in which all of them are doubled. -/
theorem Paired.closed {s : List Char} (h : Paired s) : Closed s := by
  apply clear_iff_passes.mpr
  apply Scan.outside_passes_quoted (.inr rfl)
  induction h with
  | nil => exact Scan.passes_nil _
  | @plain c s hc _ ih =>
    rw [List.flatMap_cons]
    refine Scan.Passes.append ?_ ih
    unfold Literal.escapeQuote
    split
    · exact Scan.inside_passes_escape _ _
    · next hquote => exact Scan.inside_passes_char hc hquote
  | @pair c s hc _ ih =>
    have htext : ('\\' :: c :: s).flatMap Literal.escapeQuote =
        ['\\', c] ++ s.flatMap Literal.escapeQuote := by
      simp [Literal.escapeQuote, hc]
    rw [htext]
    exact (Scan.inside_passes_escape _ _).append ih

/-! ## Lines with a constant -/

/-- What is before the comment has three parts, of which the last is the operand. -/
theorem hasParts_constant (u : List Char) :
    HasParts ("1 OP_CONSTANT ".toList ++ u) ⟨['1'], Opcode.constant.mnemonic.toList, strip u⟩ := by
  obtain ⟨b, b', hb, hb', hu⟩ := exists_surround u
  have hblank : Blanks [' '] := by decide
  have hline : IsWord ['1'] := ⟨by decide, by decide⟩
  have hmnemonic : IsWord Opcode.constant.mnemonic.toList := ⟨by decide, by decide⟩
  have hnone : Blanks [] := nofun
  have hparts := HasParts.intro hnone hline hblank (by decide) hmnemonic
    (hblank.append hb) (by simp) (trimmed_strip u) hb'
  have htext : "1 OP_CONSTANT ".toList ++ u =
      [] ++ (['1'] ++ [' '] ++ (Opcode.constant.mnemonic.toList ++ ([' '] ++ b) ++ strip u)) ++
        b' := by
    have hhead : "1 OP_CONSTANT ".toList =
        ['1'] ++ [' '] ++ (Opcode.constant.mnemonic.toList ++ [' ']) := by decide
    conv => lhs; rw [hu, hhead]
    simp only [List.append_assoc, List.nil_append]
  rwa [htext]

theorem read_strip (u : List Char) : Literal.read (strip u) = Literal.read u := by
  show Literal.ofToken (strip (strip u)) = Literal.ofToken (strip u)
  rw [(trimmed_strip u).strip_eq]

theorem spells_constant_iff {u : List Char} {s : Statement} :
    Spells ("1 OP_CONSTANT ".toList ++ u) s ↔
      ∃ v, Literal.read u = .ok v ∧ s = ⟨1, .constant v⟩ := by
  have hone : Numeral.read? ['1'] = some 1 := by decide
  have hopcode : Statement.readOpcode Opcode.constant.mnemonic.toList = .ok .constant :=
    Statement.readOpcode_eq_ok_iff.mpr (by decide)
  obtain ⟨hparts, -, hmnemonic⟩ := Statement.hasParts_iff.mp (hasParts_constant u)
  rw [← Statement.ofParts_eq_ok_iff_spells, hparts, Statement.ofParts_eq_ok_iff]
  obtain ⟨line, i⟩ := s
  constructor
  · rintro ⟨-, hn, op, hop, hi⟩
    obtain rfl : Opcode.constant = op := Except.ok.inj (hopcode.symm.trans hop)
    obtain rfl : 1 = line := Option.some.inj (hone.symm.trans hn)
    rcases Statement.readInstruction_eq_ok_iff.mp hi with ⟨hplain, -⟩ | ⟨-, -, v, hv, rfl⟩
    · cases hplain
    · exact ⟨v, (read_strip u).symm.trans hv, rfl⟩
  · rintro ⟨v, hv, hs⟩
    obtain ⟨rfl, rfl⟩ := Statement.mk.inj hs
    refine ⟨hmnemonic, hone, .constant, hopcode, ?_⟩
    refine Statement.readInstruction_eq_ok_iff.mpr (.inr ⟨rfl, ?_, v, ?_, rfl⟩)
    · show strip u ≠ []
      intro hempty
      rw [← read_strip, hempty] at hv
      cases hv
    · exact (read_strip u).trans hv

theorem beforeComment_constantLine (literal comment : List Char) :
    beforeComment (constantLine literal comment) =
      "1 OP_CONSTANT ".toList ++ beforeComment (literal ++ ' ' :: '#' :: ' ' :: comment) := by
  have hpasses := Scan.passes_of_eq (s := .outside) (t := "1 OP_CONSTANT ".toList) (by decide)
  have hrun : Scan.outside.run "1 OP_CONSTANT ".toList = .outside := by decide
  rw [hrun] at hpasses
  exact hpasses _

/-- Such a line is assembled if what is left of the literal is one, to that value's chunk. -/
theorem assemble_constantLine_eq_ok_iff {literal comment : List Char} {c : Chunk} :
    assemble [constantLine literal comment] = .ok c ↔
      ∃ v, Literal.read (beforeComment (literal ++ ' ' :: '#' :: ' ' :: comment)) = .ok v ∧
        c = constantChunk v := by
  have hline := beforeComment_constantLine literal comment
  have hchunk (v : Value) : Program.chunk [⟨1, .constant v⟩] = constantChunk v := rfl
  rw [assemble_eq_ok_iff]
  constructor
  · rintro ⟨program, hspells, -, rfl⟩
    cases hspells with
    | skip hblank _ =>
      rw [hline] at hblank
      have hone := hblank '1' (by simp)
      cases hone
    | cons hs hrest =>
      cases hrest
      rw [hline, spells_constant_iff] at hs
      obtain ⟨v, hv, rfl⟩ := hs
      exact ⟨v, hv, hchunk v⟩
  · rintro ⟨v, hv, rfl⟩
    refine ⟨[⟨1, .constant v⟩], .cons ?_ .nil, ?_, (hchunk v).symm⟩
    · rw [hline]
      exact spells_constant_iff.mpr ⟨v, hv, rfl⟩
    · show 1 ≤ 256
      omega

/-! ## Quotes before the end -/

/-- The quotes of an escaped text have a backslash before them. -/
theorem exists_of_escaped_eq {s x y : List Char}
    (h : s.flatMap Literal.escapeQuote = x ++ '\'' :: y) :
    ∃ s' r, s = s' ++ '\'' :: r ∧ x = s'.flatMap Literal.escapeQuote ++ ['\\'] := by
  induction s generalizing x with
  | nil => simp at h
  | cons c s ih =>
    by_cases hc : c = '\''
    · subst hc
      change '\\' :: '\'' :: s.flatMap Literal.escapeQuote = x ++ '\'' :: y at h
      rcases List.cons_eq_append_iff.mp h with ⟨-, hy⟩ | ⟨x, rfl, hquote⟩
      · cases hy
      rcases List.cons_eq_append_iff.mp hquote with ⟨rfl, -⟩ | ⟨x, rfl, hx⟩
      · exact ⟨[], s, rfl, rfl⟩
      · obtain ⟨s', r, rfl, rfl⟩ := ih hx
        exact ⟨'\'' :: s', r, rfl, rfl⟩
    · have hescape : Literal.escapeQuote c = [c] := if_neg hc
      rw [List.flatMap_cons, hescape, List.singleton_append] at h
      rcases List.cons_eq_append_iff.mp h with ⟨-, hy⟩ | ⟨x, rfl, hx⟩
      · exact absurd (List.cons.inj hy).1.symm hc
      · obtain ⟨s', r, rfl, rfl⟩ := ih hx
        refine ⟨c :: s', r, rfl, ?_⟩
        rw [List.flatMap_cons, hescape, List.singleton_append, List.cons_append]

/-- A literal that ends at a quote of the string itself is read as what is before that quote, and
the backslash of the quote's escape. -/
theorem unescape_ne_of_escaped_eq {s x y : List Char}
    (h : s.flatMap Literal.escapeQuote = x ++ '\'' :: y) : Literal.unescape x ≠ s := by
  obtain ⟨s', r, rfl, rfl⟩ := exists_of_escaped_eq h
  rw [Literal.unescape_escaped_append fun _ => by decide]
  intro heq
  have hcons := List.append_cancel_left heq
  cases hcons

/-! ## Quotes after the end -/

/-- At a quote after an escaped text, no more than the text's last backslash is lost. -/
theorem exists_unescape_escaped_quote (s x : List Char) :
    ∃ s', Literal.unescape (s.flatMap Literal.escapeQuote ++ '\'' :: x) =
      s' ++ '\'' :: Literal.unescape x ∧ s.length ≤ s'.length + 1 := by
  by_cases hlast : s.getLast? = some '\\'
  · -- the backslash and the quote after it are read as one quote
    obtain ⟨s', rfl⟩ := List.getLast?_eq_some_iff.mp hlast
    refine ⟨s', ?_, by simp⟩
    have htext : (s' ++ ['\\']).flatMap Literal.escapeQuote ++ '\'' :: x =
        s'.flatMap Literal.escapeQuote ++ '\\' :: '\'' :: x := by
      simp [Literal.escapeQuote]
    rw [htext, Literal.unescape_escaped_append (by simp), Literal.unescape]
  · refine ⟨s, ?_, by omega⟩
    rw [Literal.unescape_escaped_append fun h => absurd h hlast, Literal.unescape_cons (by simp)]

/-! ## The scan -/

/-- A blank and a comment after it are kept if they come inside of quotes. -/
theorem Scan.Quotes.beforeCommentFrom_eq {s : Scan} (hs : s.Quotes) (h : s ≠ .outside)
    (r : List Char) : ∃ w, beforeCommentFrom s (' ' :: '#' :: r) = ' ' :: '#' :: w := by
  have hnext : s.next ' ' ≠ .outside := by
    cases s with
    | outside => exact absurd rfl h
    | inside q => rcases hs with rfl | rfl <;> decide
    | escaped q => nofun
  rw [beforeCommentFrom, if_neg fun hc => h hc.1, beforeCommentFrom, if_neg fun hc => hnext hc.1]
  exact ⟨_, rfl⟩

/-! ## Where both end -/

section
variable {s : List Char}

/-- If the scan finds a comment in the literal, what is before it is not read as the string. -/
theorem read_ne_of_cut (h : beforeComment (Literal.quoted s) ≠ Literal.quoted s) :
    Literal.read (beforeComment (Literal.quoted s)) ≠ .ok (.str (.ofChars s)) := by
  obtain ⟨rest, hrest⟩ := beforeCommentFrom_isPrefix .outside (Literal.quoted s)
  obtain ⟨u, hu⟩ : ∃ u, beforeComment (Literal.quoted s) = '\'' :: u := ⟨_, rfl⟩
  change Literal.quoted s = beforeComment (Literal.quoted s) ++ rest at hrest
  have hne : rest ≠ [] := by
    intro hempty
    rw [hempty, List.append_nil] at hrest
    exact h hrest.symm
  rw [hu] at hrest ⊢
  have htail : s.flatMap Literal.escapeQuote ++ ['\''] = u ++ rest := (List.cons.inj hrest).2
  intro hread
  obtain ⟨t, b, -, rfl, hv⟩ := Literal.read_quote_eq_ok_iff.mp hread
  have hs : s = Literal.unescape t := Str.ofChars_inj.mp (Value.str.inj hv)
  have hdrop := congrArg List.dropLast htail
  rw [List.dropLast_concat, List.dropLast_append_of_ne_nil hne, List.append_assoc,
    List.cons_append] at hdrop
  exact unescape_ne_of_escaped_eq hdrop hs.symm

/-- The mark of a comment is neither a quote nor a blank: it belongs to what is before the quote at
the end. -/
theorem exists_of_append_eq {e w t b : List Char} (hb : Blanks b)
    (h : e ++ ['\'', ' ', '#'] ++ w = t ++ '\'' :: b) : ∃ w', t = e ++ ['\'', ' ', '#'] ++ w' := by
  rcases List.append_eq_append_iff.mp h with ⟨w', ht, -⟩ | ⟨u, hu, hrest⟩
  · exact ⟨w', ht⟩
  rcases List.eq_nil_or_concat u with rfl | ⟨u, c, rfl⟩
  · exact ⟨[], by simpa using hu.symm⟩
  · have hmark : c = '#' := by
      have hlast := congrArg List.getLast? hu
      rw [List.concat_eq_append, ← List.append_assoc, List.getLast?_concat,
        List.getLast?_append] at hlast
      exact (Option.some.inj hlast).symm
    have hmem : '#' ∈ '\'' :: b := by
      rw [hrest, hmark]
      simp
    rcases List.mem_cons.mp hmem with hquote | hblank
    · cases hquote
    · cases hb '#' hblank

/-- If the scan goes on in quotes, the literal is read with some of the comment. -/
theorem read_ne_of_inside {w : List Char} :
    Literal.read (Literal.quoted s ++ ' ' :: '#' :: w) ≠ .ok (.str (.ofChars s)) := by
  have htext : Literal.quoted s ++ ' ' :: '#' :: w =
      '\'' :: (s.flatMap Literal.escapeQuote ++ ['\'', ' ', '#'] ++ w) := by
    simp [Literal.quoted]
  rw [htext]
  intro hread
  obtain ⟨t, b, hb, htail, hv⟩ := Literal.read_quote_eq_ok_iff.mp hread
  have hs : s = Literal.unescape t := Str.ofChars_inj.mp (Value.str.inj hv)
  obtain ⟨w', rfl⟩ := exists_of_append_eq hb htail
  obtain ⟨s', hunescape, hlength⟩ := exists_unescape_escaped_quote s (' ' :: '#' :: w')
  have htail' : s.flatMap Literal.escapeQuote ++ ['\'', ' ', '#'] ++ w' =
      s.flatMap Literal.escapeQuote ++ '\'' :: ' ' :: '#' :: w' := by simp
  rw [htail', hunescape, Literal.unescape_cons (by simp), Literal.unescape_cons (by simp)] at hs
  have hsize := congrArg List.length hs
  simp only [List.length_append, List.length_cons] at hsize
  omega

/-- **The end of a literal.** What is before the comment is read as the string if the scan leaves
the literal by its last quote, and not otherwise. -/
theorem read_beforeComment_eq_ok_iff (comment : List Char) :
    Literal.read (beforeComment (Literal.quoted s ++ ' ' :: '#' :: ' ' :: comment)) =
      .ok (.str (.ofChars s)) ↔ Closed s := by
  by_cases hwhole : beforeComment (Literal.quoted s) = Literal.quoted s
  · have hpasses := Scan.passes_of_eq hwhole (' ' :: '#' :: ' ' :: comment)
    have hquotes := (show Scan.outside.Quotes from trivial).run (Literal.quoted s)
    unfold beforeComment
    rw [hpasses]
    by_cases hout : Scan.outside.run (Literal.quoted s) = .outside
    · have hend : beforeCommentFrom .outside (' ' :: '#' :: ' ' :: comment) = [' '] := rfl
      have htrimmed : Trimmed (Literal.quoted s) := Literal.trimmed_of_ends (by decide) _
      have hstrip : strip ([] ++ Literal.quoted s ++ [' ']) = Literal.quoted s :=
        strip_surrounded (by decide) htrimmed (by decide)
      rw [List.nil_append] at hstrip
      rw [hout, hend, ← read_strip, hstrip]
      exact iff_of_true (Literal.read_quoted s) (Clear.mk hwhole hout)
    · obtain ⟨w, hw⟩ := hquotes.beforeCommentFrom_eq hout (' ' :: comment)
      rw [hw]
      exact iff_of_false read_ne_of_inside fun h => hout h.outside
  · have hcut := Scan.beforeCommentFrom_append_of_ne hwhole (' ' :: '#' :: ' ' :: comment)
    unfold beforeComment
    rw [hcut]
    exact iff_of_false (read_ne_of_cut hwhole) fun h => hwhole h.whole

/-- **Quotations.** The literal of a string is read as the string. A line with it is assembled to
the string if the scan for a comment leaves the literal by its last quote, and not otherwise; it
does so if each backslash is paired. -/
theorem assemble_quoted_iff (s comment : List Char) :
    Literal.read (Literal.quoted s) = .ok (.str (.ofChars s)) ∧
      (assemble [constantLine (Literal.quoted s) comment] =
        .ok (constantChunk (.str (.ofChars s))) ↔ Closed s) ∧
      (Paired s → Closed s) := by
  refine ⟨Literal.read_quoted s, ?_, Paired.closed⟩
  rw [assemble_constantLine_eq_ok_iff, ← read_beforeComment_eq_ok_iff comment]
  constructor
  · rintro ⟨v, hv, hchunk⟩
    have hpool := congrArg Chunk.constants hchunk
    obtain rfl : Value.str (.ofChars s) = v := by simpa [constantChunk] using hpool
    exact hv
  · intro hread
    exact ⟨_, hread, rfl⟩

/-- A line may also be assembled to another string, which goes on with the comment. -/
example : assemble [constantLine (Literal.quoted ['\\', '\'']) ['\'']] =
    .ok (constantChunk (.str "\\'' # ")) := by
  decide

/-- A string that is one backslash: the literal is read, and a line with it is not assembled, since
there is no quote where its comment ends. -/
theorem assemble_quoted_backslash :
    Literal.read (Literal.quoted ['\\']) = .ok (.str "\\") ∧
      assemble [constantLine (Literal.quoted ['\\']) ['c']] =
        .error (.bytecode (.line 1 (.literal (.notLiteral "'\\' # c")))) := by
  decide

end

end LoxMachine.Assembly
