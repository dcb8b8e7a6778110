import LoxMachine.Document
import LoxMachine.Proofs.Decoding
import LoxMachine.Proofs.Json.RoundTrip
import LoxMachine.Proofs.Traversal

/-!
# Documents are read back

The file of a document holds all of its chunk but whether it is sealed. Reading the file yields the
name and the chunk again, open: the same bytes, lines and constants, in order and of the same types.

    Savable d → ofBytes d.text.toUTF8 = .ok ⟨d.name, d.chunk.opened⟩              (ofBytes_text)
-/

namespace LoxMachine

/-- The same chunk, open. -/
def Chunk.opened (c : Chunk) : Chunk := { c with isSealed := false }

namespace Document

open Numeral

/-! ## Reading what was written -/

theorem readConstant_of_isLox {v : Value} (h : v.IsLox) : readConstant v = .ok v := by
  rw [readConstant, Value.toConstant_of_isLox h]

theorem readCell_cell (cell : Cell) :
    readCell (.int cell.byte.toNat) (.int cell.line) = .ok cell := by
  have hbyte := cell.byte.toNat_lt
  have hrange : 0 ≤ (cell.byte.toNat : Int) ∧ (cell.byte.toNat : Int) ≤ 255 := by omega
  unfold readCell
  dsimp only
  rw [if_pos hrange, Int.toNat_natCast, UInt8.ofNat_toNat]

theorem zip_cells (c : Chunk) :
    (c.code.map fun b => Value.int b.toNat).zip (c.lines.map Value.int) =
      c.cells.toList.map fun cell => (Value.int cell.byte.toNat, Value.int cell.line) := by
  rw [Chunk.code, Chunk.lines, List.map_map, List.map_map]
  exact List.zip_map' ..

theorem readChunk_eq (code lines constants : List Value) : readChunk code lines constants =
    if code.length ≠ lines.length then refuse (.lengths code.length lines.length)
    else if maxConstants < constants.length then refuse (.tooManyConstants constants.length)
    else do
      let constants ← constants.mapM readConstant
      let cells ← (code.zip lines).mapM fun pair => readCell pair.1 pair.2
      return { cells := cells.toArray, constants := constants.toArray } :=
  rfl

theorem readChunk_chunk {c : Chunk} (hp : c.LoxPool) (hpool : c.constants.size ≤ maxConstants) :
    readChunk (c.code.map fun b => .int b.toNat) (c.lines.map .int) c.constants.toList =
      .ok c.opened := by
  have hconstants : c.constants.toList.mapM readConstant = .ok c.constants.toList := by
    have hread : (c.constants.toList.map id).mapM readConstant = .ok c.constants.toList :=
      mapM_map_eq_ok fun v hv => readConstant_of_isLox (hp v hv)
    rwa [List.map_id] at hread
  have hcells : ((c.code.map fun b => Value.int b.toNat).zip (c.lines.map Value.int)).mapM
      (fun pair => readCell pair.1 pair.2) = .ok c.cells.toList := by
    rw [zip_cells]
    exact mapM_map_eq_ok fun cell _ => readCell_cell cell
  rw [readChunk_eq, if_neg (by simp), if_neg (by simpa using hpool), hconstants]
  dsimp only [bind, Except.bind]
  rw [hcells]
  rfl

theorem ofValue_toValue {d : Document} (hp : d.chunk.LoxPool)
    (hpool : d.chunk.constants.size ≤ maxConstants) :
    ofValue d.toValue = .ok ⟨d.name, d.chunk.opened⟩ := by
  change (do let chunk ← readChunk _ _ _; return ⟨d.name, chunk⟩ : Except Fault Document) = _
  rw [readChunk_chunk hp hpool]
  rfl

/-! ## Files -/

/-- What may be written and is read again: the digits of a line are counted without its sign, and
strings are as JSON reads them. -/
structure Savable (d : Document) : Prop where
  name : Json.Joined d.name
  loxPool : d.chunk.LoxPool
  size_le : d.chunk.constants.size ≤ maxConstants
  lines : ∀ l ∈ d.chunk.lines, (ofNat l.natAbs).length ≤ maxDigits
  strings : ∀ s, .str s ∈ d.chunk.constants.toList → Json.Joined s

theorem writable_byte (b : UInt8) : Json.Writable (.int b.toNat) := by
  have hb := b.toNat_lt
  have hlen : (ofNat b.toNat).length ≤ 3 :=
    (Nat.length_toDigits_le_iff (by decide) (by decide)).mpr (by omega)
  exact Nat.le_trans hlen (by decide)

theorem writable_toValue {d : Document} (h : Savable d) : Json.Writable d.toValue := by
  have hkeys : (["name", "code", "lines", "constants"] : List Str).Nodup := by decide
  refine ⟨hkeys, by decide, h.name, by decide, ?_, by decide, ?_, by decide, ?_, trivial⟩
  · refine Json.writableItems_iff.mpr ?_
    intro v hv
    obtain ⟨b, -, rfl⟩ := List.mem_map.mp hv
    exact writable_byte b
  · refine Json.writableItems_iff.mpr ?_
    intro v hv
    obtain ⟨l, hl, rfl⟩ := List.mem_map.mp hv
    exact h.lines l hl
  · refine Json.writableItems_iff.mpr ?_
    intro v hv
    refine Json.writable_of_isLox (h.loxPool v hv) ?_
    rintro s rfl
    exact h.strings s hv

/-- **Documents.** The file of a document is read as its name and its chunk, open. -/
theorem ofBytes_text {d : Document} (h : Savable d) :
    ofBytes d.text.toUTF8 = .ok ⟨d.name, d.chunk.opened⟩ := by
  have hplain : Text.Plain (Json.write 0 d.toValue ++ ['\n']) :=
    (Json.plain_write _ 0).append (by decide)
  have hread : Json.read (Json.write 0 d.toValue ++ ['\n']) = .ok d.toValue := by
    rw [Json.read, Json.readText_write (writable_toValue h)]
    rfl
  unfold ofBytes text
  rw [Text.ofBytes_of_plain hplain]
  dsimp only
  rw [ofText, hread]
  exact ofValue_toValue h.loxPool h.size_le

/-- A sealed chunk with a negative line, minus zero, nan and a string to escape. -/
theorem ofBytes_text_minus_zero :
    let c : Chunk :=
      { cells := #[⟨2, -7⟩, ⟨0, -7⟩, ⟨255, 0⟩],
        constants := #[.nil, .num (.finite true 0), .num .nan, .str "\"\\\n"], isSealed := true }
    Savable ⟨"a b", c⟩ ∧ ofBytes (text ⟨"a b", c⟩).toUTF8 = .ok ⟨"a b", c.opened⟩ := by
  intro c
  have h : Savable ⟨"a b", c⟩ := by
    refine ⟨by decide, by decide, by decide, by decide, ?_⟩
    intro s hs
    obtain rfl : s = "\"\\\n" := by simpa [c] using hs
    decide
  exact ⟨h, ofBytes_text h⟩

end Document
end LoxMachine
