import I8085.Memory
import Mathlib.Order.Bounds.Basic

/-!
# The last write to a cell stands

A block of any length can be loaded, also one that goes round the address space and overwrites its
own beginning.  Each of its places is written to the cell that stands so many above the start,
modulo 65536, and what a cell holds afterwards is the byte of the last place that was written to
it.  Cutting the block in two and storing a word are the cases that everything else asks for.
-/

namespace I8085
namespace Memory

/-- The places of a block that are written to the cell `x` when it is loaded at `a`. -/
def writers (a : Word) (block : List Byte) (x : Word) : Set Nat :=
  {i | i < block.length ∧ (a.toNat + i) % 65536 = x.toNat}

variable {a x : Word} {b : Byte} {block rest : List Byte} {i : Nat}

theorem mem_writers :
    i ∈ writers a block x ↔ i < block.length ∧ (a.toNat + i) % 65536 = x.toNat := Iff.rfl

theorem zero_mem_writers : 0 ∈ writers a (b :: rest) x ↔ a = x := by
  have ha : a.toNat < 65536 := a.isLt
  rw [mem_writers, Nat.add_zero a.toNat, Nat.mod_eq_of_lt ha, BitVec.toNat_inj, List.length_cons]
  exact and_iff_right (Nat.succ_pos rest.length)

theorem succ_mem_writers : i + 1 ∈ writers a (b :: rest) x ↔ i ∈ writers (a + 1) rest x := by
  have next : (a + 1).toNat = (a.toNat + 1) % 65536 := BitVec.toNat_add a 1
  rw [mem_writers, mem_writers, next, List.length_cons, Nat.mod_add_mod]
  have shift : a.toNat + (i + 1) = a.toNat + 1 + i := by omega
  rw [shift, Nat.succ_lt_succ_iff]

theorem writers_cons_eq_empty (hrest : writers (a + 1) rest x = ∅) (hne : a ≠ x) :
    writers a (b :: rest) x = ∅ := by
  refine Set.eq_empty_of_forall_notMem (fun i hi => ?_)
  cases i with
  | zero => exact hne (zero_mem_writers.1 hi)
  | succ i => exact (hrest ▸ succ_mem_writers.1 hi : i ∈ (∅ : Set Nat))

theorem isGreatest_writers_zero (hrest : writers (a + 1) rest x = ∅) (heq : a = x) :
    IsGreatest (writers a (b :: rest) x) 0 := by
  refine ⟨zero_mem_writers.2 heq, fun i hi => ?_⟩
  cases i with
  | zero => exact Nat.le_refl 0
  | succ i => exact absurd (succ_mem_writers.1 hi) (hrest ▸ Set.notMem_empty i)

theorem isGreatest_writers_succ (h : IsGreatest (writers (a + 1) rest x) i) :
    IsGreatest (writers a (b :: rest) x) (i + 1) := by
  refine ⟨succ_mem_writers.2 h.1, fun j hj => ?_⟩
  cases j with
  | zero => exact Nat.zero_le (i + 1)
  | succ j => exact Nat.succ_le_succ (h.2 (succ_mem_writers.1 hj))

/-- A cell holds what the last place written to it brought, and keeps its own value if there is no
such place. -/
theorem read_load (m : Memory) (a x : Word) (block : List Byte) :
    (writers a block x = ∅ ∧ (m.load a block).read x = m.read x) ∨
      ∃ i, IsGreatest (writers a block x) i ∧ block[i]? = some ((m.load a block).read x) := by
  induction block generalizing m a with
  | nil =>
    refine .inl ⟨Set.eq_empty_of_forall_notMem (fun i hi => ?_), rfl⟩
    exact Nat.not_lt_zero i hi.1
  | cons b rest ih =>
    rcases ih (m.write a b) (a + 1) with ⟨hrest, hread⟩ | ⟨i, hgreatest, hbyte⟩
    · -- The rest leaves the cell alone, so it is the first byte's or nobody's.
      by_cases heq : a = x
      · refine .inr ⟨0, isGreatest_writers_zero hrest heq, ?_⟩
        rw [load, hread, heq, read_write_self]
        rfl
      · refine .inl ⟨writers_cons_eq_empty hrest heq, ?_⟩
        rw [load, hread, read_write_of_ne m b heq]
    · exact .inr ⟨i + 1, isGreatest_writers_succ hgreatest, hbyte⟩

theorem writeWord_eq_load_toNat (m : Memory) (a w : Word) :
    m.writeWord a w =
      m.load a [BitVec.ofNat 8 (w.toNat % 256), BitVec.ofNat 8 (w.toNat / 256)] := by
  have low : Word.low w = BitVec.ofNat 8 (w.toNat % 256) := by
    rw [← Word.toNat_low, BitVec.ofNat_toNat, BitVec.setWidth_eq]
  have high : Word.high w = BitVec.ofNat 8 (w.toNat / 256) := by
    rw [← Word.toNat_high, BitVec.ofNat_toNat, BitVec.setWidth_eq]
  rw [writeWord_eq_load, low, high]

/-- After a load every cell holds the byte of the greatest place that was written to it, and its
old value if none was; so a block can be loaded in two parts, the second where the first ended, and
a word is the load of its low and its high byte and is read back, at `FFFF` too. -/
theorem load_last_write_stands (m : Memory) (a : Word) :
    (∀ (block : List Byte) (x : Word),
      (writers a block x = ∅ ∧ (m.load a block).read x = m.read x) ∨
        ∃ i, IsGreatest (writers a block x) i ∧ block[i]? = some ((m.load a block).read x)) ∧
    (∀ p q : List Byte,
      m.load a (p ++ q) =
        (m.load a p).load (BitVec.ofNat 16 ((a.toNat + p.length) % 65536)) q) ∧
    ∀ w : Word,
      m.writeWord a w =
        m.load a [BitVec.ofNat 8 (w.toNat % 256), BitVec.ofNat 8 (w.toNat / 256)] ∧
      (m.writeWord a w).readWord a = w := by
  refine ⟨fun block x => read_load m a x block, fun p q => ?_, fun w => ?_⟩
  · have cursor : a + BitVec.ofNat 16 p.length =
        BitVec.ofNat 16 ((a.toNat + p.length) % 65536) := by
      apply BitVec.eq_of_toNat_eq
      rw [BitVec.toNat_add, BitVec.toNat_ofNat, BitVec.toNat_ofNat, Nat.add_mod_mod, Nat.mod_mod]
    rw [load_append, cursor]
  · exact ⟨writeWord_eq_load_toNat m a w, readWord_writeWord m a w⟩

end Memory
end I8085
