import I8085.Memory

/-!
# Reading what was loaded

A block of bytes loaded at an address can be read back from it, also where the
block runs past `FFFF`.  The one condition is that the block fits the address
space: a longer one overwrites its own beginning.
-/

namespace I8085
namespace Memory

/-- The cell `i` places above an address. -/
def cell (x : Word) (i : Nat) : Word := x + BitVec.ofNat 16 i

@[simp]
theorem cell_zero (x : Word) : cell x 0 = x := BitVec.add_zero x

theorem cell_add (x : Word) (i j : Nat) : cell (cell x i) j = cell x (i + j) := by
  rw [cell, cell, cell, BitVec.ofNat_add, BitVec.add_assoc]

theorem cell_succ (x : Word) (i : Nat) : cell (x + 1) i = cell x (i + 1) := by
  rw [Nat.add_comm i 1]
  exact cell_add x 1 i

theorem cell_ne_self {i : Nat} (x : Word) (h : 0 < i) (h' : i < 65536) : cell x i ≠ x := by
  intro e
  have hx := congrArg BitVec.toNat e
  rw [cell, BitVec.toNat_add, BitVec.toNat_ofNat] at hx
  have := x.isLt
  omega

@[simp]
theorem length_bytes (m : Memory) (x : Word) (count : Nat) : (m.bytes x count).length = count := by
  induction count generalizing x with
  | zero => rfl
  | succ count ih => rw [bytes, List.length_cons, ih]

theorem bytes_add (m : Memory) (x : Word) (p q : Nat) :
    m.bytes x (p + q) = m.bytes x p ++ m.bytes (cell x p) q := by
  induction p generalizing x with
  | zero => rw [Nat.zero_add, cell_zero, bytes, List.nil_append]
  | succ p ih =>
    rw [Nat.succ_add, bytes, bytes, List.cons_append, ih, cell_succ]

theorem bytes_congr {m n : Memory} {x : Word} {count : Nat}
    (h : ∀ i < count, m.read (cell x i) = n.read (cell x i)) :
    m.bytes x count = n.bytes x count := by
  induction count generalizing x with
  | zero => rfl
  | succ count ih =>
    have first : m.read x = n.read x := by simpa using h 0 (Nat.succ_pos count)
    have rest : m.bytes (x + 1) count = n.bytes (x + 1) count := by
      refine ih (fun i hi => ?_)
      rw [cell_succ]
      exact h (i + 1) (Nat.succ_lt_succ hi)
    rw [bytes, bytes, first, rest]

theorem read_load_of_ne {m : Memory} {x y : Word} {block : List Byte}
    (h : ∀ i < block.length, cell x i ≠ y) : (m.load x block).read y = m.read y := by
  induction block generalizing m x with
  | nil => rfl
  | cons b rest ih =>
    have first : x ≠ y := by simpa using h 0 (Nat.succ_pos _)
    rw [load, ih, read_write_of_ne m b first]
    intro i hi
    rw [cell_succ]
    exact h (i + 1) (Nat.succ_lt_succ hi)

/-- A block that fits the address space can be read back. -/
theorem bytes_load (m : Memory) (x : Word) {block : List Byte} (h : block.length ≤ 65536) :
    (m.load x block).bytes x block.length = block := by
  induction block generalizing m x with
  | nil => rfl
  | cons b rest ih =>
    rw [List.length_cons] at h
    have first : ((m.write x b).load (x + 1) rest).read x = b := by
      rw [read_load_of_ne, read_write_self]
      intro i hi
      rw [cell_succ]
      exact cell_ne_self x (Nat.succ_pos i) (by omega)
    rw [load, List.length_cons, bytes, first, ih _ _ (by omega)]

end Memory
end I8085
