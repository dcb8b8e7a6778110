import LoxMachine.Proofs.Assembly.Cut
import LoxMachine.Proofs.Assembly.Emission
import LoxMachine.Proofs.Literal

/-!
# Programs are read back

A program is rendered line by line: the digits of the source line, the mnemonic in letters of either
case and a literal for the constant, with any blanks between and around them and any comment at the
end. Lines of blanks and comments may stand anywhere. However a program is rendered, assembling the
text yields the chunk to which its instructions are written by hand.

    RendersProgram lines program → … → assemble lines = build program       (assemble_rendered)
-/

namespace LoxMachine.Assembly

open Text

/-! ## Renderings -/

/-- What may end a line. -/
inductive IsComment : List Char → Prop
  | none : IsComment []
  | text (s : List Char) : IsComment ('#' :: s)

/-- A line of text renders a statement. -/
inductive Renders : List Char → Statement → Prop
  | plain {b₀ b₁ mnemonic b₂ comment : List Char} {n : Int} {op : Opcode} {i : Instruction}
      (hb₀ : Blanks b₀) (hn : (Numeral.ofNat n.natAbs).length ≤ Numeral.maxDigits)
      (hb₁ : Blanks b₁) (hne₁ : b₁ ≠ []) (hop : mnemonic.map Char.toUpper = op.mnemonic.toList)
      (hi : Statement.plain? op = some i) (hb₂ : Blanks b₂) (hcomment : IsComment comment) :
      Renders (b₀ ++ Numeral.ofInt n ++ b₁ ++ mnemonic ++ b₂ ++ comment) ⟨n, i⟩
  | constant {b₀ b₁ mnemonic b₂ literal b₃ comment : List Char} {n : Int} {v : Value}
      (hb₀ : Blanks b₀) (hn : (Numeral.ofNat n.natAbs).length ≤ Numeral.maxDigits)
      (hb₁ : Blanks b₁) (hne₁ : b₁ ≠ [])
      (hop : mnemonic.map Char.toUpper = Opcode.constant.mnemonic.toList)
      (hb₂ : Blanks b₂) (hne₂ : b₂ ≠ []) (hv : Literal.Denotes literal v)
      (hb₃ : Blanks b₃) (hcomment : IsComment comment) :
      Renders (b₀ ++ Numeral.ofInt n ++ b₁ ++ mnemonic ++ b₂ ++ literal ++ b₃ ++ comment)
        ⟨n, .constant v⟩

/-- Lines of text render a program. -/
inductive RendersProgram : List (List Char) → List Statement → Prop
  | nil : RendersProgram [] []
  | skip {b comment : List Char} {lines : List (List Char)} {program : List Statement}
      (hb : Blanks b) (hcomment : IsComment comment) (h : RendersProgram lines program) :
      RendersProgram ((b ++ comment) :: lines) program
  | cons {raw : List Char} {lines : List (List Char)} {s : Statement} {program : List Statement}
      (hraw : Renders raw s) (h : RendersProgram lines program) :
      RendersProgram (raw :: lines) (s :: program)

/-- Writes a statement to a chunk: the index of a constant is the one that the pool gives it. -/
def writeStatement (c : Chunk) (s : Statement) : Except Fault Chunk :=
  match s.instruction with
  | .ret => c.write Opcode.ret.tag.toNat s.line
  | .negate => c.write Opcode.negate.tag.toNat s.line
  | .constant v => do
    let index := c.constants.size
    let c ← c.pushConstant v
    let c ← c.write Opcode.constant.tag.toNat s.line
    c.write index s.line

/-- The chunk of a program, written by hand. -/
def build (program : List Statement) : Except Fault Chunk := program.foldlM writeStatement {}

/-! ## Comments -/

theorem beforeComment_append {t comment : List Char} (h : Scan.outside.Passes t .outside)
    (hcomment : IsComment comment) : beforeComment (t ++ comment) = t := by
  have hnil : beforeCommentFrom .outside comment = [] := by
    cases hcomment with
    | none => rfl
    | text s => exact if_pos ⟨rfl, rfl⟩
  rw [beforeComment, h, hnil, List.append_nil]

/-- What looks like a comment in a literal is none. -/
theorem passes_of_denotes {text : List Char} {v : Value} (h : Literal.Denotes text v) :
    Scan.outside.Passes text .outside := by
  cases h with
  | written hv hw =>
    cases v with
    | str s =>
      have hread := Json.readText_write_append hw (r := []) nofun rfl
      rw [List.append_nil, ← Json.read_eq_ok_iff_readText] at hread
      exact clear_iff_passes.mp (clear_of_read_eq_str hread)
    | nil | bool _ | num _ | int _ | list _ | dict _ =>
      exact Scan.outside_passes_bare (Literal.bare_write hv nofun)
  | nil => exact Scan.outside_passes_bare (by decide)
  | quoted hs =>
    refine Scan.outside_passes_quoted (.inr rfl) (Scan.passes_flatMap fun c hc => ?_)
    unfold Literal.escapeQuote
    split
    · exact Scan.inside_passes_escape _ _
    · next hquote =>
      refine Scan.inside_passes_char ?_ hquote
      rintro rfl
      exact hs hc

/-! ## Words -/

theorem bare_ofInt (n : Int) : Bare (Numeral.ofInt n) := (Json.numberText_ofInt n).bare

theorem isWord_ofInt (n : Int) : IsWord (Numeral.ofInt n) := (Json.numberText_ofInt n).isWord

theorem isBare_of_toUpper {c : Char} (h : 0x41 ≤ c.toUpper.toNat ∧ c.toUpper.toNat ≤ 0x5f) :
    IsBare c := by
  unfold Char.toUpper at h
  split at h
  · next hc =>
    have h0 : 'a'.val ≤ c.val := hc.1
    have h1 : c.val ≤ 'z'.val := hc.2
    rw [UInt32.le_iff_toNat_le] at h0 h1
    exact ⟨Nat.le_trans (by decide) h0, Nat.le_trans h1 (by decide)⟩
  · exact ⟨by omega, by omega⟩

section
variable {mnemonic : List Char} {op : Opcode}
  (h : mnemonic.map Char.toUpper = op.mnemonic.toList)

include h

theorem bare_of_mnemonic : Bare mnemonic := by
  intro c hc
  have hall : ∀ op : Opcode,
      op.mnemonic.toList.all (fun d => 0x41 ≤ d.toNat && d.toNat ≤ 0x5f) = true := by
    intro op
    cases op <;> decide
  have hmem : c.toUpper ∈ op.mnemonic.toList := by
    rw [← h]
    exact List.mem_map_of_mem hc
  have hupper := List.all_eq_true.mp (hall op) c.toUpper hmem
  simp only [Bool.and_eq_true, decide_eq_true_eq] at hupper
  exact isBare_of_toUpper hupper

theorem isWord_of_mnemonic : IsWord mnemonic := by
  refine ⟨?_, (bare_of_mnemonic h).noBlanks⟩
  rintro rfl
  cases op <;> exact absurd h (by decide)

theorem toUpper_of_mnemonic : toUpper mnemonic = op.mnemonic.toList := by
  have hbare := bare_of_mnemonic h
  have hupper : ∀ c ∈ mnemonic, upperChar c = [c.toUpper] := fun c hc =>
    if_pos (Nat.lt_of_le_of_lt (hbare c hc).2 (by decide))
  rw [← h, toUpper, List.map_eq_flatMap, List.flatMap_def, List.flatMap_def,
    List.map_congr_left hupper]

end

/-! ## Reading -/

/-- There is no comment before the operand. -/
theorem passes_mnemonic {b₀ b₁ mnemonic b₂ : List Char} {op : Opcode} (hb₀ : Blanks b₀) (n : Int)
    (hb₁ : Blanks b₁) (hop : mnemonic.map Char.toUpper = op.mnemonic.toList) (hb₂ : Blanks b₂) :
    Scan.outside.Passes (b₀ ++ Numeral.ofInt n ++ b₁ ++ mnemonic ++ b₂) .outside := by
  have hline := (Scan.outside_passes_blanks hb₀).append (Scan.outside_passes_bare (bare_ofInt n))
  have hword := hline.append (Scan.outside_passes_blanks hb₁) |>.append
    (Scan.outside_passes_bare (bare_of_mnemonic hop))
  exact hword.append (Scan.outside_passes_blanks hb₂)

/-- **Lines.** A line spells the statement that it renders. -/
theorem Renders.spells {raw : List Char} {s : Statement} (h : Renders raw s) :
    Spells (beforeComment raw) s := by
  cases h with
  | @plain b₀ b₁ mnemonic b₂ comment n op i hb₀ hn hb₁ hne₁ hop hi hb₂ hcomment =>
    have hnil : Blanks [] := nofun
    have hparts := HasParts.intro hb₀ (isWord_ofInt n) hb₁ hne₁ (isWord_of_mnemonic hop) hb₂
      (absurd rfl) ⟨nofun, nofun⟩ hnil
    have htext : b₀ ++ (Numeral.ofInt n ++ b₁ ++ (mnemonic ++ b₂ ++ [])) ++ [] =
        b₀ ++ Numeral.ofInt n ++ b₁ ++ mnemonic ++ b₂ := by simp
    rw [beforeComment_append (passes_mnemonic hb₀ n hb₁ hop hb₂) hcomment, ← htext]
    exact .plain hparts (Numeral.read?_ofInt hn) (toUpper_of_mnemonic hop) hi
  | @constant b₀ b₁ mnemonic b₂ literal b₃ comment n v hb₀ hn hb₁ hne₁ hop hb₂ hne₂ hv hb₃
      hcomment =>
    have hpasses := ((passes_mnemonic hb₀ n hb₁ hop hb₂).append (passes_of_denotes hv)).append
      (Scan.outside_passes_blanks hb₃)
    have hparts := HasParts.intro hb₀ (isWord_ofInt n) hb₁ hne₁ (isWord_of_mnemonic hop) hb₂
      (fun _ => hne₂) hv.trimmed hb₃
    have htext : b₀ ++ (Numeral.ofInt n ++ b₁ ++ (mnemonic ++ b₂ ++ literal)) ++ b₃ =
        b₀ ++ Numeral.ofInt n ++ b₁ ++ mnemonic ++ b₂ ++ literal ++ b₃ := by simp
    rw [beforeComment_append hpasses hcomment, ← htext]
    exact .constant hparts (Numeral.read?_ofInt hn) (toUpper_of_mnemonic hop) hv.ne_nil hv.read_eq

theorem RendersProgram.spells {lines : List (List Char)} {program : List Statement}
    (h : RendersProgram lines program) : SpellsProgram lines program := by
  induction h with
  | nil => exact .nil
  | skip hb hcomment _ ih =>
    refine .skip ?_ ih
    rw [beforeComment_append (Scan.outside_passes_blanks hb) hcomment]
    exact hb
  | cons hraw _ ih => exact .cons hraw.spells ih

/-! ## Writing by hand -/

/-- The assembler writes as it is done by hand, up to the check that the index fits in a byte. -/
theorem append_eq_writeStatement {c : Chunk} {s : Statement}
    (hfits : c.constants.size + (Program.constants [s]).length ≤ maxConstants) :
    append c s = (writeStatement c s).mapError .other := by
  obtain ⟨line, i⟩ := s
  cases i with
  | ret | negate => rfl
  | constant v =>
    have hlt : ¬ maxConstants ≤ c.constants.size := by
      simp only [Program.constants, List.length_singleton] at hfits
      omega
    show appendConstant c v line = _
    unfold appendConstant writeStatement
    dsimp only
    rw [if_neg hlt]
    cases c.pushConstant v with
    | error f => rfl
    | ok d =>
      show (put d Opcode.constant.tag.toNat line >>= fun e => put e c.constants.size line) =
        (d.write Opcode.constant.tag.toNat line >>= fun e =>
          e.write c.constants.size line).mapError .other
      unfold put
      cases d.write Opcode.constant.tag.toNat line <;> rfl

theorem writeStatement_eq {c : Chunk} (hc : c.isSealed = false) {s : Statement}
    (hfits : c.constants.size + (Program.constants [s]).length ≤ maxConstants) :
    writeStatement c s = .ok (Program.extend c [s]) := by
  have happend := (append_eq_ok_iff hc (by omega)).mpr ⟨hfits, rfl⟩
  rw [append_eq_writeStatement hfits] at happend
  cases hw : writeStatement c s with
  | error f =>
    rw [hw] at happend
    cases happend
  | ok d =>
    rw [hw] at happend
    exact congrArg Except.ok (Except.ok.inj happend)

theorem foldlM_writeStatement {c : Chunk} (hc : c.isSealed = false) {program : List Statement}
    (hfits : c.constants.size + (Program.constants program).length ≤ maxConstants) :
    program.foldlM writeStatement c = .ok (Program.extend c program) := by
  induction program generalizing c with
  | nil => rw [Program.extend_nil]; rfl
  | cons s rest ih =>
    rw [Program.length_constants_cons] at hfits
    have hrest := Program.size_constants_extend c [s]
    rw [List.foldlM_cons, writeStatement_eq hc (by omega), Program.extend_cons c rest s]
    exact ih hc (by omega)

/-- **Renderings.** However a program is rendered, it is assembled to the open chunk to which its
instructions are written by hand. -/
theorem assemble_rendered {lines : List (List Char)} {program : List Statement}
    (h : RendersProgram lines program)
    (hfits : (Program.constants program).length ≤ maxConstants) :
    ∃ c, assemble lines = .ok c ∧ build program = .ok c ∧ c.isSealed = false := by
  refine ⟨Program.chunk program, assemble_eq_ok_iff.mpr ⟨program, h.spells, hfits, rfl⟩, ?_, rfl⟩
  exact foldlM_writeStatement rfl (by simpa using hfits)

/-- A quoted string with a quote and a `#` in it, before a comment. -/
theorem assemble_rendered_quoted :
    let lines := ["\t-7 Op_CONSTANT 'it\\'s #1' # one".toList, " # two".toList,
      "3 op_return".toList]
    let program : List Statement := [⟨-7, .constant (.str "it's #1")⟩, ⟨3, .ret⟩]
    (RendersProgram lines program ∧ (Program.constants program).length ≤ maxConstants) ∧
      ∃ c, assemble lines = .ok c ∧ build program = .ok c ∧ c.isSealed = false := by
  have hconstant : Renders "\t-7 Op_CONSTANT 'it\\'s #1' # one".toList
      ⟨-7, .constant (.str "it's #1")⟩ := by
    have htext : "\t-7 Op_CONSTANT 'it\\'s #1' # one".toList =
        ['\t'] ++ Numeral.ofInt (-7) ++ [' '] ++ "Op_CONSTANT".toList ++ [' '] ++
          Literal.quoted "it's #1".toList ++ [' '] ++ '#' :: " one".toList := by
      decide +kernel
    rw [htext]
    exact .constant (by decide) (by decide) (by decide) (by decide) (by decide) (by decide)
      (by decide) (.quoted (by decide)) (by decide) (.text _)
  have hskip : RendersProgram [" # two".toList, "3 op_return".toList] [⟨3, .ret⟩] := by
    have htext : " # two".toList = [' '] ++ '#' :: " two".toList := by decide +kernel
    have htext' : "3 op_return".toList =
        [] ++ Numeral.ofInt 3 ++ [' '] ++ "op_return".toList ++ [] ++ [] := by decide +kernel
    have hop : "op_return".toList.map Char.toUpper = Opcode.ret.mnemonic.toList := by decide
    rw [htext, htext']
    exact .skip (by decide) (.text _) (.cons (.plain (by decide) (by decide) (by decide) (by decide)
      hop rfl (by decide) .none) .nil)
  have hlines := RendersProgram.cons hconstant hskip
  exact ⟨⟨hlines, by decide⟩, assemble_rendered hlines (by decide)⟩

end LoxMachine.Assembly
