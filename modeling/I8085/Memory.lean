import I8085.Word

/-!
# Memory

65536 cells, one for every word, so that no access can miss.  A word in memory
has its low byte first, and whatever runs past `FFFF` continues at `0000`.
-/

namespace I8085

structure Memory where
  cells : Vector Byte 65536
deriving DecidableEq

namespace Memory

def zero : Memory := ⟨Vector.replicate 65536 0⟩

instance : Inhabited Memory := ⟨zero⟩

def read (m : Memory) (address : Word) : Byte := getElem m.cells address.toNat address.isLt

def write (m : Memory) (address : Word) (value : Byte) : Memory :=
  ⟨m.cells.set address.toNat value address.isLt⟩

/-- The word whose low byte is at the address and whose high byte follows it. -/
def readWord (m : Memory) (address : Word) : Word :=
  Word.ofBytes (m.read (address + 1)) (m.read address)

def writeWord (m : Memory) (address : Word) (value : Word) : Memory :=
  (m.write address (Word.low value)).write (address + 1) (Word.high value)

def load (m : Memory) (address : Word) : List Byte → Memory
  | [] => m
  | b :: rest => (m.write address b).load (address + 1) rest

/-- As many cells as asked for, from the address up. -/
def bytes (m : Memory) (address : Word) : (count : Nat) → List Byte
  | 0 => []
  | count + 1 => m.read address :: m.bytes (address + 1) count

def nonZeroCells (m : Memory) : Nat := m.cells.toArray.countP (· != 0)

/-- What is shown of a memory for inspection, its cells being too many to print. -/
def debugText (m : Memory) : String :=
  "Memory \x7b size: 65536, non_zero_cells: " ++ m.nonZeroCells.repr ++ " \x7d"

@[simp]
theorem read_zero (x : Word) : zero.read x = 0 := by
  simp [zero, read]

theorem read_write (m : Memory) (x y : Word) (v : Byte) :
    (m.write x v).read y = if x = y then v else m.read y := by
  simp only [read, write, Vector.getElem_set, BitVec.toNat_inj]

@[simp]
theorem read_write_self (m : Memory) (x : Word) (v : Byte) : (m.write x v).read x = v := by
  rw [read_write, if_pos rfl]

theorem read_write_of_ne (m : Memory) {x y : Word} (v : Byte) (h : x ≠ y) :
    (m.write x v).read y = m.read y := by
  rw [read_write, if_neg h]

theorem ext_read {m n : Memory} (h : ∀ x, m.read x = n.read x) : m = n := by
  obtain ⟨c⟩ := m
  obtain ⟨d⟩ := n
  congr 1
  apply Vector.ext
  intro i hi
  have hx := h (BitVec.ofNat 16 i)
  simp only [read, BitVec.toNat_ofNat] at hx
  have : i % 2 ^ 16 = i := Nat.mod_eq_of_lt hi
  simpa only [this] using hx

theorem load_append (m : Memory) (x : Word) (p q : List Byte) :
    m.load x (p ++ q) = (m.load x p).load (x + BitVec.ofNat 16 p.length) q := by
  induction p generalizing m x with
  | nil => simp [load]
  | cons b rest ih =>
    simp only [List.cons_append, load, ih, List.length_cons]
    congr 1
    rw [Nat.add_comm rest.length 1, BitVec.ofNat_add, ← BitVec.add_assoc]
    rfl

theorem writeWord_eq_load (m : Memory) (x w : Word) :
    m.writeWord x w = m.load x [Word.low w, Word.high w] := rfl

@[simp]
theorem readWord_writeWord (m : Memory) (x w : Word) : (m.writeWord x w).readWord x = w := by
  have h : x + 1 ≠ x := by
    intro e
    have := congrArg BitVec.toNat e
    rw [BitVec.toNat_add] at this
    have hx : x.toNat < 65536 := x.isLt
    simp at this
    omega
  rw [readWord, writeWord, read_write_self, read_write_of_ne _ _ h, read_write_self,
    Word.ofBytes_high_low]

end Memory
end I8085
