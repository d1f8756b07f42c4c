import I8085.Instruction
import I8085.Proofs.Memory.Load
import Mathlib.Algebra.GroupWithZero.Nat

/-!
# What is fetched where

An instruction is fetched at an address exactly when its bytes stand there, and
nothing is fetched exactly where no opcode stands.  The first statement needs the
literal to be one that its bytes can carry, which `Instruction.Fits` says.
-/

namespace I8085

theorem Operation.length_cases (o : Operation) : o.length = 1 ∨ o.length = 2 ∨ o.length = 3 := by
  cases o <;> simp [length, slots, Slot.width]

namespace Word

@[simp]
theorem high_ofByte (b : Byte) : high (ofByte b) = 0 := high_ofBytes 0 b

@[simp]
theorem low_ofByte (b : Byte) : low (ofByte b) = b := low_ofBytes 0 b

theorem toNat_ofByte (b : Byte) : (ofByte b).toNat = b.toNat := by
  rw [ofByte, toNat_ofBytes]
  simp

theorem ofByte_low {w : Word} (h : w.toNat < 256) : ofByte (low w) = w := by
  apply BitVec.eq_of_toNat_eq
  rw [toNat_ofByte, toNat_low, Nat.mod_eq_of_lt h]

end Word

namespace Instruction

/-- The literal needs no more bytes than the instruction has for it. -/
def Fits (i : Instruction) : Prop := i.data.toNat < 256 ^ (i.length - 1)

instance (i : Instruction) : Decidable i.Fits := inferInstanceAs (Decidable (_ < _))

theorem length_pos (i : Instruction) : 0 < i.length :=
  Nat.lt_of_lt_of_le Nat.one_pos (Nat.le_add_right 1 _)

theorem length_le (i : Instruction) : i.length ≤ 3 := by
  have hl : i.length = 1 ∨ i.length = 2 ∨ i.length = 3 := i.operation.length_cases
  omega

@[simp]
theorem length_bytes (i : Instruction) : i.bytes.length = i.length := by
  have hl : i.length = 1 ∨ i.length = 2 ∨ i.length = 3 := i.operation.length_cases
  rcases hl with hl | hl | hl <;> simp [bytes, operandBytes, hl]

end Instruction

namespace Memory

theorem fetch_eq_error_iff {m : Memory} {x : Word} {fault : Fault} :
    m.fetch x = .error fault ↔
      Opcode.chart (m.read x) = none ∧ fault = .illegalOpcode (m.read x) x := by
  rw [← Entry.ofOpcode?_eq_none_iff]
  unfold fetch
  cases h : Entry.ofOpcode? (m.read x) with
  | none => simp [eq_comm]
  | some e => simp

theorem fetch_eq_ok_iff {m : Memory} {x : Word} {f : Fetched} :
    m.fetch x = .ok f ↔
      f.entry.opcode = m.read x ∧ f.data = m.literal (x + 1) (f.length - 1) ∧ f.address = x := by
  rw [← Entry.ofOpcode?_eq_some_iff]
  unfold fetch
  cases h : Entry.ofOpcode? (m.read x) with
  | none => simp
  | some e =>
    obtain ⟨⟨entry, data⟩, address⟩ := f
    constructor
    · intro hf
      cases hf
      exact ⟨rfl, rfl, rfl⟩
    · rintro ⟨he, hd, ha⟩
      simp only [Option.some.injEq] at he
      subst he
      simp only at hd ha
      rw [hd, ha]
      rfl

theorem toNat_literal_lt (m : Memory) (x : Word) {width : Nat} (h : width ≤ 2) :
    (m.literal x width).toNat < 256 ^ width := by
  have hw : width = 0 ∨ width = 1 ∨ width = 2 := by omega
  rcases hw with rfl | rfl | rfl
  · exact Nat.one_pos
  · show (Word.ofByte (m.read x)).toNat < 256 ^ 1
    rw [Word.toNat_ofByte]
    exact (m.read x).isLt
  · exact (m.readWord x).isLt

theorem bytes_literal (m : Memory) (x : Word) {width : Nat} (h : width ≤ 2) :
    m.bytes x width =
      [Word.low (m.literal x width), Word.high (m.literal x width)].take width := by
  have hw : width = 0 ∨ width = 1 ∨ width = 2 := by omega
  rcases hw with rfl | rfl | rfl
  · rfl
  · simp [bytes, literal]
  · simp [bytes, literal, readWord]

theorem eq_of_take_bytes_eq {v w : Word} {width : Nat} (h : width ≤ 2)
    (hv : v.toNat < 256 ^ width) (hw : w.toNat < 256 ^ width)
    (he : [Word.low v, Word.high v].take width = [Word.low w, Word.high w].take width) :
    v = w := by
  have hc : width = 0 ∨ width = 1 ∨ width = 2 := by omega
  rcases hc with rfl | rfl | rfl
  · apply BitVec.eq_of_toNat_eq
    omega
  · have low : Word.low v = Word.low w := by simpa using he
    rw [← Word.ofByte_low hv, low, Word.ofByte_low hw]
  · have both : Word.low v = Word.low w ∧ Word.high v = Word.high w := by simpa using he
    rw [← Word.ofBytes_high_low v, both.1, both.2, Word.ofBytes_high_low]

/-- An instruction is fetched where its bytes stand, and nowhere else. -/
theorem fetch_eq_ok_iff_bytes {m : Memory} {x : Word} {f : Fetched} :
    m.fetch x = .ok f ↔ f.address = x ∧ f.Fits ∧ m.bytes x f.length = f.bytes := by
  have room : f.length - 1 ≤ 2 := Nat.sub_le_sub_right f.length_le 1
  have split : f.length = 1 + (f.length - 1) := by
    have := f.length_pos
    omega
  have stands : m.bytes x f.length = f.bytes ↔
      f.entry.opcode = m.read x ∧ m.bytes (x + 1) (f.length - 1) = f.operandBytes := by
    rw [split, Nat.add_comm, bytes, Instruction.bytes, List.cons.injEq]
    exact and_congr_left' eq_comm
  rw [fetch_eq_ok_iff, stands]
  constructor
  · rintro ⟨hop, hdata, haddress⟩
    refine ⟨haddress, ?_, hop, ?_⟩
    · rw [Instruction.Fits, hdata]
      exact toNat_literal_lt m (x + 1) room
    · rw [bytes_literal m (x + 1) room, Instruction.operandBytes, hdata]
  · rintro ⟨haddress, hfits, hop, hbytes⟩
    refine ⟨hop, ?_, haddress⟩
    rw [bytes_literal m (x + 1) room] at hbytes
    exact (eq_of_take_bytes_eq room (toNat_literal_lt m (x + 1) room) hfits hbytes).symm

/-- Only the cells of an instruction are looked at to fetch it. -/
theorem fetch_congr {m n : Memory} {x : Word} {f : Fetched} (hf : m.fetch x = .ok f)
    (h : ∀ i < f.length, n.read (cell x i) = m.read (cell x i)) : n.fetch x = .ok f := by
  obtain ⟨haddress, hfits, hbytes⟩ := fetch_eq_ok_iff_bytes.1 hf
  exact fetch_eq_ok_iff_bytes.2 ⟨haddress, hfits, (bytes_congr h).trans hbytes⟩

/-- An instruction is fetched where its bytes were loaded. -/
theorem fetch_load {i : Instruction} (h : i.Fits) (m : Memory) (a : Word) :
    (m.load a i.bytes).fetch a = .ok { i with address := a } := by
  have room : i.bytes.length ≤ 65536 := by
    have := i.length_le
    rw [Instruction.length_bytes]
    omega
  have stands := bytes_load m a room
  rw [Instruction.length_bytes] at stands
  exact fetch_eq_ok_iff_bytes.2 ⟨rfl, h, stands⟩

end Memory
end I8085
