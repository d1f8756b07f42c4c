import I8085.Console.Dump
import I8085.Proofs.Memory.Load
import I8085.Proofs.Text.Numerals
import I8085.Proofs.Text.Words
import Mathlib.Algebra.Order.Floor.Div
import Mathlib.Data.List.Intervals
import Mathlib.GroupTheory.GroupAction.Ring

/-!
# A dump shows its range

What is printed of a range can be read back: every line gives the address in front of its colon and
the bytes behind it, and the bytes of all lines one after another are the cells of the range in the
order of their addresses.  The reader asks for the digits as they are printed, four for an address
and two for a byte, all in upper case, so that what it reads off a line says how the line is
written.

The addresses are read as numbers.  A range ends at `FFFF` at the latest, and so no line is led by
an address that has gone round.
-/

namespace I8085
namespace Console

/-! ## Reading a line of a dump -/

/-- A line of a dump as it is read: the address in front and the bytes behind it. -/
structure DumpRow where
  address : Nat
  cells : List Byte
deriving DecidableEq

namespace DumpRow

/-- The number that so many upper-case digits write. -/
def number? (width : Nat) (s : List Char) : Option Nat :=
  if Hex.IsUpperNumeral width s then some (Hex.value s) else none

def cell? (s : List Char) : Option Byte := (number? 2 s).map (BitVec.ofNat 8)

/-- A line has four digits, a colon, and behind it numerals of two digits, each after one blank. -/
def ofLine? (line : String) : Option DumpRow :=
  match Text.cut? ':' line.toList with
  | some (head, ' ' :: body) => do
    let address ← number? 4 head
    let cells ← (Text.fields ' ' body).mapM cell?
    return { address, cells }
  | _ => none

theorem number?_print {width n : Nat} (h : n < 16 ^ width) :
    number? width (Hex.print width n) = some n := by
  rw [number?, if_pos (Hex.isUpperNumeral_print width n), Hex.value_print h]

theorem cell?_print (b : Byte) : cell? (Hex.print 2 b.toNat) = some b := by
  rw [cell?, number?_print b.isLt, Option.map_some, BitVec.ofNat_toNat, BitVec.setWidth_eq]

end DumpRow

/-- What was written item by item is read item by item. -/
theorem mapM_map_eq_some {α β γ : Type} {read : β → Option γ} {write : α → β} {value : α → γ}
    {xs : List α} (h : ∀ x ∈ xs, read (write x) = some (value x)) :
    (xs.map write).mapM read = some (xs.map value) := by
  induction xs with
  | nil => rfl
  | cons x xs ih =>
    rw [List.forall_mem_cons] at h
    rw [List.map_cons, List.mapM_cons, h.1, ih h.2]
    rfl

/-! ## One line -/

theorem toList_dumpLine (m : Memory) (address : Word) (count : Nat) :
    (dumpLine m address count).toList =
      Hex.print 4 address.toNat ++
        ':' :: ' ' :: List.intercalate [' ']
          ((m.bytes address count).map fun b => Hex.print 2 b.toNat) := by
  have numerals : ((m.bytes address count).map Hex.byte).map String.toList =
      (m.bytes address count).map fun b => Hex.print 2 b.toNat := by
    rw [List.map_map]
    exact List.map_congr_left fun b _ => String.toList_ofList
  rw [dumpLine, String.toList_append, String.toList_append, String.toList_intercalate, numerals,
    Hex.word, String.toList_ofList, List.append_assoc]
  rfl

/-- A separator that is no digit stands in no numeral. -/
theorem not_mem_print {c : Char} (h : c ∉ Hex.upperDigits) (width n : Nat) :
    c ∉ Hex.print width n := fun hc => h (Hex.mem_upperDigits_of_mem_print hc)

/-- A line is read as its address and its bytes, if it has any. -/
theorem ofLine?_dumpLine (m : Memory) (address : Word) {count : Nat} (h : 0 < count) :
    DumpRow.ofLine? (dumpLine m address count) =
      some { address := address.toNat, cells := m.bytes address count } := by
  have some_cells : (m.bytes address count).map (fun b => Hex.print 2 b.toNat) ≠ [] := by
    rw [← List.length_pos_iff, List.length_map, Memory.length_bytes]
    exact h
  have whole : ∀ numeral ∈ (m.bytes address count).map (fun b => Hex.print 2 b.toNat),
      ' ' ∉ numeral := by
    rw [List.forall_mem_map]
    exact fun b _ => not_mem_print (by decide) 2 b.toNat
  have head : DumpRow.number? 4 (Hex.print 4 address.toNat) = some address.toNat :=
    DumpRow.number?_print (show address.toNat < 65536 from address.isLt)
  have cells : ((m.bytes address count).map fun b => Hex.print 2 b.toNat).mapM DumpRow.cell? =
      some (m.bytes address count) := by
    rw [mapM_map_eq_some fun b _ => DumpRow.cell?_print b, List.map_id']
  rw [DumpRow.ofLine?, toList_dumpLine, Text.cut?_append _ (not_mem_print (by decide) 4 _)]
  simp only [head, Text.fields_intercalate some_cells whole, cells]
  rfl

/-! ## All lines -/

def rangeSize (first last : Word) : Nat := last.toNat + 1 - first.toNat

/-- The cells that a line of a range shows, `row` counting the lines from zero. -/
def dumpRow (m : Memory) (first last : Word) (row : Nat) : DumpRow :=
  { address := first.toNat + 16 * row
    cells := m.bytes (Memory.cell first (16 * row)) (min 16 (rangeSize first last - 16 * row)) }

def dumpRows (m : Memory) (first last : Word) : List DumpRow :=
  (List.range (rangeSize first last ⌈/⌉ 16)).map (dumpRow m first last)

section

variable {m : Memory} {first last : Word} {i : Nat}

theorem length_dumpRows (m : Memory) (first last : Word) :
    (dumpRows m first last).length = rangeSize first last ⌈/⌉ 16 := by
  rw [dumpRows, List.length_map, List.length_range]

theorem getElem?_dumpRows {row : DumpRow} (h : (dumpRows m first last)[i]? = some row) :
    i < rangeSize first last ⌈/⌉ 16 ∧ row = dumpRow m first last i := by
  obtain ⟨hlt, hrow⟩ := List.getElem?_eq_some_iff.1 h
  rw [length_dumpRows] at hlt
  refine ⟨hlt, ?_⟩
  rw [← hrow]
  simp only [dumpRows, List.getElem_map, List.getElem_range]

/-- A line that is printed begins inside the range. -/
theorem row_inside (hrow : i < rangeSize first last ⌈/⌉ 16) :
    first.toNat + 16 * i ≤ last.toNat := by
  rw [Nat.ceilDiv_eq_add_pred_div, rangeSize] at hrow
  omega

/-- The address in front of a line does not go round. -/
theorem toNat_cell_row (hrow : i < rangeSize first last ⌈/⌉ 16) :
    (Memory.cell first (16 * i)).toNat = first.toNat + 16 * i := by
  have inside := row_inside hrow
  have top : last.toNat < 65536 := last.isLt
  rw [Memory.cell, BitVec.toNat_add, BitVec.toNat_ofNat]
  omega

/-- The lines of a dump are read as the rows of its range. -/
theorem mapM_ofLine?_dump (m : Memory) (first last : Word) :
    (dump m first last).mapM DumpRow.ofLine? = some (dumpRows m first last) := by
  refine mapM_map_eq_some (fun row hmem => ?_)
  have hrow : row < rangeSize first last ⌈/⌉ 16 := List.mem_range.1 hmem
  have inside := row_inside hrow
  have nonempty : 0 < min 16 (last.toNat + 1 - first.toNat - 16 * row) := by omega
  rw [ofLine?_dumpLine m _ nonempty, dumpRow, ← toNat_cell_row hrow]
  rfl

/-- The first lines show the cells of the range that come first, sixteen for each line. -/
theorem flatMap_dumpRow (m : Memory) (first last : Word) (lines : Nat) :
    ((List.range lines).flatMap fun row => (dumpRow m first last row).cells) =
      m.bytes first (min (16 * lines) (rangeSize first last)) := by
  induction lines with
  | zero => rw [Nat.mul_zero, Nat.zero_min]; rfl
  | succ lines ih =>
    rw [List.range_succ, List.flatMap_append, List.flatMap_singleton, ih, dumpRow]
    by_cases h : 16 * lines ≤ rangeSize first last
    · have upTo : min (16 * (lines + 1)) (rangeSize first last) =
          16 * lines + min 16 (rangeSize first last - 16 * lines) := by omega
      rw [upTo, Memory.bytes_add, Nat.min_eq_left h]
    · have nothing : min 16 (rangeSize first last - 16 * lines) = 0 := by omega
      have whole : min (16 * lines) (rangeSize first last) = rangeSize first last := by omega
      have still : min (16 * (lines + 1)) (rangeSize first last) = rangeSize first last := by omega
      rw [nothing, whole, still]
      exact List.append_nil _

/-- The cells above an address, by the numbers of their addresses. -/
theorem bytes_eq_map_range' (m : Memory) (n count : Nat) :
    m.bytes (BitVec.ofNat 16 n) count =
      (List.range' n count).map fun i => m.read (BitVec.ofNat 16 i) := by
  induction count generalizing n with
  | zero => rfl
  | succ count ih =>
    have next : BitVec.ofNat 16 n + 1 = BitVec.ofNat 16 (n + 1) := (BitVec.ofNat_add n 1).symm
    rw [Memory.bytes, next, ih, List.range'_succ, List.map_cons]

theorem flatMap_cells_dumpRows (m : Memory) (first last : Word) :
    (dumpRows m first last).flatMap DumpRow.cells =
      (List.Ico first.toNat (last.toNat + 1)).map fun n => m.read (BitVec.ofNat 16 n) := by
  have whole : min (16 * (rangeSize first last ⌈/⌉ 16)) (rangeSize first last) =
      rangeSize first last := by
    rw [Nat.ceilDiv_eq_add_pred_div]
    omega
  have start : BitVec.ofNat 16 first.toNat = first := by
    rw [BitVec.ofNat_toNat, BitVec.setWidth_eq]
  rw [dumpRows, List.flatMap_map, flatMap_dumpRow, whole, List.Ico, ← bytes_eq_map_range', start]
  rfl

/-- Read back, a dump has a line for every sixteen cells of its range, begun or whole; each is led
by the address of its first cell, which is `FFFF` at the most, and holds sixteen cells, the last
one to sixteen; and together they hold the cells of the range, each once and in order. -/
theorem dump_reads_back (m : Memory) (h : first ≤ last) :
    ∃ rows, (dump m first last).mapM DumpRow.ofLine? = some rows ∧
      (dump m first last).length = (last.toNat - first.toNat + 1) ⌈/⌉ 16 ∧
      rows.length = (dump m first last).length ∧
      (∀ i row, rows[i]? = some row →
        row.address = first.toNat + 16 * i ∧ row.address ≤ 0xFFFF ∧
        1 ≤ row.cells.length ∧ row.cells.length ≤ 16 ∧
        (i + 1 < rows.length → row.cells.length = 16)) ∧
      rows.flatMap DumpRow.cells =
        (List.Ico first.toNat (last.toNat + 1)).map fun n => m.read (BitVec.ofNat 16 n) := by
  have order : first.toNat ≤ last.toNat := h
  have top : last.toNat < 65536 := last.isLt
  have lines : (dump m first last).length = rangeSize first last ⌈/⌉ 16 := by
    rw [dump, List.length_map, List.length_range]
    rfl
  have size : last.toNat - first.toNat + 1 = rangeSize first last := by
    rw [rangeSize]
    omega
  refine ⟨dumpRows m first last, mapM_ofLine?_dump m first last, by rw [lines, size],
    by rw [lines, length_dumpRows], fun i row hi => ?_, flatMap_cells_dumpRows m first last⟩
  obtain ⟨hlt, rfl⟩ := getElem?_dumpRows hi
  have inside := row_inside hlt
  have cells : (dumpRow m first last i).cells.length = min 16 (rangeSize first last - 16 * i) :=
    Memory.length_bytes m _ _
  refine ⟨rfl, inside.trans (Nat.le_of_lt_succ top), ?_, ?_, fun hnext => ?_⟩
  · rw [cells, ← size]
    omega
  · rw [cells]
    exact Nat.min_le_left 16 _
  · rw [length_dumpRows, Nat.ceilDiv_eq_add_pred_div] at hnext
    rw [cells]
    omega

/-- All of memory takes 4096 lines, and the last of them begins at `FFF0`. -/
theorem dump_reads_back_all_of_memory :
    (0x0000 : Word) ≤ 0xFFFF ∧
      ∃ rows, (dump Memory.zero 0x0000 0xFFFF).mapM DumpRow.ofLine? = some rows ∧
        (∃ row, rows[4095]? = some row ∧ row.address = 0xFFF0) ∧
        rows.flatMap DumpRow.cells = List.replicate 65536 0 := by
  have order : (0x0000 : Word) ≤ 0xFFFF := by decide
  obtain ⟨rows, hread, hlines, hlength, hrows, hcells⟩ := dump_reads_back Memory.zero order
  have lines : rows.length = 4096 := hlength.trans hlines
  have inside : 4095 < rows.length := by
    rw [lines]
    decide
  obtain ⟨row, hrow⟩ : ∃ row, rows[4095]? = some row := ⟨_, List.getElem?_eq_getElem inside⟩
  refine ⟨order, rows, hread, ⟨row, hrow, (hrows 4095 row hrow).1⟩, hcells.trans ?_⟩
  simp only [Memory.read_zero, List.map_const', List.Ico.length]
  rfl

end

end Console
end I8085
