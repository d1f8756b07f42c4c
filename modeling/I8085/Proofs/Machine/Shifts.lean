import I8085.Proofs.Machine.Columns

/-!
# Shifts of many bytes

A number of many bytes is shifted by one place as its bytes are rotated through the carry one
after another, each in A: from the least significant byte up the number is doubled, and from the
most significant down it is halved.  The bit that leaves one byte waits in the carry for the next.

One byte and the carry are together as much as the byte and the carry that they are rotated into,
if the carry is weighed as the bit beside the byte.  By induction on the bytes the same holds of the
whole number, in the order in which the carry passes through it.  All that is said of a shift is
read off this one equation, also that the two shifts undo each other.
-/

namespace I8085

/-! ## One byte -/

namespace Registers

theorem toNat_rotateLeftThroughCarry (r : Registers) :
    r.rotateLeftThroughCarry.a.toNat + 256 * r.rotateLeftThroughCarry.flags.cy.toNat =
      2 * r.a.toNat + r.flags.cy.toNat := by
  have all : ∀ (a : Byte) (cy : Bool),
      (a <<< 1 ||| BitVec.ofNat 8 cy.toNat).toNat + 256 * a.msb.toNat =
        2 * a.toNat + cy.toNat := by decide +kernel
  exact all r.a r.flags.cy

theorem toNat_rotateRightThroughCarry (r : Registers) :
    2 * r.rotateRightThroughCarry.a.toNat + r.rotateRightThroughCarry.flags.cy.toNat =
      r.a.toNat + 256 * r.flags.cy.toNat := by
  have all : ∀ (a : Byte) (cy : Bool),
      2 * (a >>> 1 ||| BitVec.ofNat 8 (128 * cy.toNat)).toNat + (a.getLsbD 0).toNat =
        a.toNat + 256 * cy.toNat := by decide +kernel
  exact all r.a r.flags.cy

end Registers

/-! ## Bytes as numbers -/

namespace Radix

theorem number_binary_lt (bytes : List Byte) : binary.number bytes < 256 ^ bytes.length :=
  binary.number_lt fun _ _ => trivial

/-- As many bytes that write the same number are the same bytes. -/
theorem eq_of_number_binary_eq {xs ys : List Byte} (hlength : xs.length = ys.length)
    (h : binary.number xs = binary.number ys) : xs = ys := by
  have hdigits (zs : List Byte) : ∀ d ∈ zs.map binary.value, d < binary.base := by
    intro d hd
    obtain ⟨b, -, rfl⟩ := List.mem_map.1 hd
    exact b.isLt
  have hvalues : xs.map BitVec.toNat = ys.map BitVec.toNat :=
    Nat.ofDigits_inj_of_len_eq binary.one_lt_base (by simpa using hlength) (hdigits xs)
      (hdigits ys) h
  exact List.map_injective_iff.2 (fun _ _ => BitVec.eq_of_toNat_eq) hvalues

end Radix

namespace Machine

open Radix (binary number_binary_lt eq_of_number_binary_eq)

/-! ## All bytes -/

/-- The bytes rotated left through A and the carry, from the first up, and the machine behind the
last. -/
def shiftUp : List Byte → Machine → List Byte × Machine
  | [], m => ([], m)
  | b :: higher, m =>
    let rotated := Action.ral.apply (m.setReg .a b)
    let rest := shiftUp higher rotated
    (rotated.reg .a :: rest.1, rest.2)

/-- The bytes rotated right through A and the carry, from the last down, and the machine behind the
first. -/
def shiftDown : List Byte → Machine → List Byte × Machine
  | [], m => ([], m)
  | b :: higher, m =>
    let rest := shiftDown higher m
    let rotated := Action.rar.apply (rest.2.setReg .a b)
    (rotated.reg .a :: rest.1, rotated)

theorem length_shiftUp (bytes : List Byte) (m : Machine) :
    (shiftUp bytes m).1.length = bytes.length := by
  induction bytes generalizing m with
  | nil => rfl
  | cons b higher ih => exact congrArg Nat.succ (ih _)

theorem length_shiftDown (bytes : List Byte) (m : Machine) :
    (shiftDown bytes m).1.length = bytes.length := by
  induction bytes with
  | nil => rfl
  | cons b higher ih => exact congrArg Nat.succ ih

theorem number_shiftUp (bytes : List Byte) (m : Machine) :
    binary.number (shiftUp bytes m).1 +
        256 ^ bytes.length * (shiftUp bytes m).2.registers.flags.cy.toNat =
      2 * binary.number bytes + m.registers.flags.cy.toNat := by
  induction bytes generalizing m with
  | nil => simp [shiftUp, Radix.number_nil]
  | cons b higher ih =>
    let rotated := Action.ral.apply (m.setReg .a b)
    have hbyte : (rotated.reg .a).toNat + 256 * rotated.registers.flags.cy.toNat =
        2 * b.toNat + m.registers.flags.cy.toNat :=
      Registers.toNat_rotateLeftThroughCarry (m.setReg .a b).registers
    have hrest := ih rotated
    show binary.number (rotated.reg .a :: (shiftUp higher rotated).1) +
      256 ^ (higher.length + 1) * (shiftUp higher rotated).2.registers.flags.cy.toNat = _
    rw [Radix.number_cons, Radix.number_cons, pow_succ', Nat.mul_assoc]
    show (rotated.reg .a).toNat + 256 * _ + 256 * _ = 2 * (b.toNat + 256 * _) + _
    omega

theorem number_shiftDown (bytes : List Byte) (m : Machine) :
    2 * binary.number (shiftDown bytes m).1 +
        (shiftDown bytes m).2.registers.flags.cy.toNat =
      binary.number bytes + 256 ^ bytes.length * m.registers.flags.cy.toNat := by
  induction bytes with
  | nil => simp [shiftDown, Radix.number_nil]
  | cons b higher ih =>
    let rest := shiftDown higher m
    let rotated := Action.rar.apply (rest.2.setReg .a b)
    have hbyte : 2 * (rotated.reg .a).toNat + rotated.registers.flags.cy.toNat =
        b.toNat + 256 * rest.2.registers.flags.cy.toNat :=
      Registers.toNat_rotateRightThroughCarry (rest.2.setReg .a b).registers
    have hrest : 2 * binary.number rest.1 + rest.2.registers.flags.cy.toNat =
        binary.number higher + 256 ^ higher.length * m.registers.flags.cy.toNat := ih
    show 2 * binary.number (rotated.reg .a :: rest.1) + rotated.registers.flags.cy.toNat = _
    rw [Radix.number_cons, Radix.number_cons, List.length_cons, pow_succ', Nat.mul_assoc]
    show 2 * ((rotated.reg .a).toNat + 256 * _) + _ = b.toNat + 256 * _ + 256 * _
    omega

/-- The carry is the only flag that a shift touches. -/
theorem flags_shiftUp (bytes : List Byte) (m : Machine) :
    (shiftUp bytes m).2.registers.flags =
      { m.registers.flags with cy := (shiftUp bytes m).2.registers.flags.cy } := by
  induction bytes generalizing m with
  | nil => rfl
  | cons b higher ih => exact ih (Action.ral.apply (m.setReg .a b))

theorem flags_shiftDown (bytes : List Byte) (m : Machine) :
    (shiftDown bytes m).2.registers.flags =
      { m.registers.flags with cy := (shiftDown bytes m).2.registers.flags.cy } := by
  induction bytes with
  | nil => rfl
  | cons b higher ih =>
    let rotated := Action.rar.apply ((shiftDown higher m).2.setReg .a b)
    calc rotated.registers.flags
      _ = { (shiftDown higher m).2.registers.flags with cy := rotated.registers.flags.cy } := rfl
      _ = { m.registers.flags with cy := rotated.registers.flags.cy } := by rw [ih]

/-! ## What is read off -/

/-- A bit that is added at the bottom does not decide whether the double of a number runs over. -/
theorem testBit_top_iff {x n : Nat} (hn : 0 < n) (hx : x < 256 ^ n) (c : Bool) :
    x.testBit (8 * n - 1) = true ↔ 256 ^ n ≤ 2 * x + c.toNat := by
  have hc := c.toNat_lt
  have hpow : 256 ^ n = 2 ^ (8 * n - 1 + 1) := by
    rw [show 256 = 2 ^ 8 from rfl, ← Nat.pow_mul]
    congr 1
    omega
  rw [hpow] at hx ⊢
  by_cases htop : 2 ^ (8 * n - 1) ≤ x
  · refine iff_of_true (Nat.testBit_of_two_pow_le_and_two_pow_add_one_gt htop hx) ?_
    omega
  · refine iff_of_false ?_ ?_
    · rw [Nat.testBit_lt_two_pow (Nat.not_le.1 htop)]
      exact Bool.false_ne_true
    · omega

theorem eq_of_toNat_eq {c d : Bool} (h : c.toNat = d.toNat) : c = d := by
  rw [Bool.eq_iff_iff, ← Bool.toNat_eq_one, ← Bool.toNat_eq_one, h]

/-- A number and the bit that has left it at the top are known from their sum. -/
theorem eq_of_carried {x y modulus : Nat} {c d : Bool} (hx : x < modulus) (hy : y < modulus)
    (h : x + modulus * c.toNat = y + modulus * d.toNat) : x = y ∧ c = d := by
  have hnumber : x = y := by
    have hmod := congrArg (· % modulus) h
    simpa [Nat.add_mul_mod_self_left, Nat.mod_eq_of_lt hx, Nat.mod_eq_of_lt hy] using hmod
  subst hnumber
  exact ⟨rfl, eq_of_toNat_eq (Nat.eq_of_mul_eq_mul_left (Nat.zero_lt_of_lt hx)
    (Nat.add_left_cancel h))⟩

/-- The same of the bit that has left it at the bottom. -/
theorem eq_of_halved {x y : Nat} {c d : Bool} (h : 2 * x + c.toNat = 2 * y + d.toNat) :
    x = y ∧ c = d := by
  have hc := c.toNat_lt
  have hd := d.toNat_lt
  exact ⟨by omega, eq_of_toNat_eq (by omega)⟩

/-- A bit that comes in with an even weight does not decide which bit leaves at the bottom. -/
theorem halves_of_balance {x y modulus : Nat} {c d : Bool} (heven : 2 ∣ modulus)
    (h : 2 * x + c.toNat = y + modulus * d.toNat) :
    x = (y + d.toNat * modulus) / 2 ∧ c.toNat = y % 2 := by
  obtain ⟨half, rfl⟩ := heven
  have hc := c.toNat_lt
  rw [Nat.mul_comm d.toNat]
  rw [Nat.mul_assoc] at h ⊢
  constructor <;> omega

theorem shiftDown_shiftUp (bytes : List Byte) (m : Machine) :
    let up := shiftUp bytes m
    (shiftDown up.1 up.2).1 = bytes ∧
      (shiftDown up.1 up.2).2.registers.flags.cy = m.registers.flags.cy := by
  intro up
  let back := shiftDown up.1 up.2
  have hlength : up.1.length = bytes.length := length_shiftUp bytes m
  have whole : 2 * binary.number back.1 + back.2.registers.flags.cy.toNat =
      2 * binary.number bytes + m.registers.flags.cy.toNat :=
    calc 2 * binary.number back.1 + back.2.registers.flags.cy.toNat
      _ = binary.number up.1 + 256 ^ up.1.length * up.2.registers.flags.cy.toNat :=
        number_shiftDown up.1 up.2
      _ = 2 * binary.number bytes + m.registers.flags.cy.toNat := by
        rw [hlength]
        exact number_shiftUp bytes m
  -- The bytes are read off the number they make, so no bit need be followed there and back.
  obtain ⟨hnumber, hcarry⟩ := eq_of_halved whole
  exact ⟨eq_of_number_binary_eq ((length_shiftDown up.1 up.2).trans hlength) hnumber, hcarry⟩

theorem shiftUp_shiftDown (bytes : List Byte) (m : Machine) :
    let down := shiftDown bytes m
    (shiftUp down.1 down.2).1 = bytes ∧
      (shiftUp down.1 down.2).2.registers.flags.cy = m.registers.flags.cy := by
  intro down
  let back := shiftUp down.1 down.2
  have hlength : down.1.length = bytes.length := length_shiftDown bytes m
  have hback : back.1.length = bytes.length := (length_shiftUp down.1 down.2).trans hlength
  have whole : binary.number back.1 + 256 ^ bytes.length * back.2.registers.flags.cy.toNat =
      binary.number bytes + 256 ^ bytes.length * m.registers.flags.cy.toNat :=
    calc binary.number back.1 + 256 ^ bytes.length * back.2.registers.flags.cy.toNat
      _ = 2 * binary.number down.1 + down.2.registers.flags.cy.toNat := by
        rw [← hlength]
        exact number_shiftUp down.1 down.2
      _ = binary.number bytes + 256 ^ bytes.length * m.registers.flags.cy.toNat :=
        number_shiftDown bytes m
  have hsmall : binary.number back.1 < 256 ^ bytes.length := hback ▸ number_binary_lt back.1
  obtain ⟨hnumber, hcarry⟩ := eq_of_carried hsmall (number_binary_lt bytes) whole
  exact ⟨eq_of_number_binary_eq hback hnumber, hcarry⟩

/-- Shifts through the carry are exact at every length.  A number of at least one byte that is
shifted up with a carry in is doubled, the carry added, and its top bit is the carry out; one that
is shifted down is halved, with the carry in as its new top bit, and its lowest bit is the carry
out.  Each shift undoes the other, down to the carry, and neither touches another flag. -/
theorem shifts_exact {bytes : List Byte} (hbytes : bytes ≠ []) (m : Machine) :
    let n := bytes.length
    let x := binary.number bytes
    let c := m.registers.flags.cy
    let up := shiftUp bytes m
    let down := shiftDown bytes m
    (up.1.length = n ∧ binary.number up.1 = (2 * x + c.toNat) % 256 ^ n ∧
      up.2.registers.flags.cy = x.testBit (8 * n - 1)) ∧
    (down.1.length = n ∧ binary.number down.1 = (x + c.toNat * 256 ^ n) / 2 ∧
      down.2.registers.flags.cy.toNat = x % 2) ∧
    ((shiftDown up.1 up.2).1 = bytes ∧ (shiftDown up.1 up.2).2.registers.flags.cy = c) ∧
    ((shiftUp down.1 down.2).1 = bytes ∧ (shiftUp down.1 down.2).2.registers.flags.cy = c) ∧
    up.2.registers.flags = { m.registers.flags with cy := up.2.registers.flags.cy } ∧
    down.2.registers.flags = { m.registers.flags with cy := down.2.registers.flags.cy } := by
  intro n x c up down
  have hn : 0 < n := List.length_pos_of_ne_nil hbytes
  have hup : binary.number up.1 + 256 ^ n * up.2.registers.flags.cy.toNat =
    2 * x + c.toNat := number_shiftUp bytes m
  have heven : 2 ∣ 256 ^ n := dvd_pow (by decide) hn.ne'
  refine ⟨⟨length_shiftUp bytes m, ?_⟩,
    ⟨length_shiftDown bytes m, halves_of_balance heven (number_shiftDown bytes m)⟩,
    shiftDown_shiftUp bytes m, shiftUp_shiftDown bytes m, flags_shiftUp bytes m,
    flags_shiftDown bytes m⟩
  have hsmall : binary.number up.1 < 256 ^ n := by
    have h := number_binary_lt up.1
    rwa [show up.1.length = n from length_shiftUp bytes m] at h
  have hbalance : (binary.number up.1 : ℤ) +
      1 * ((256 ^ n : ℕ) * up.2.registers.flags.cy.toNat) = (2 * x + c.toNat : ℕ) := by
    rw [← hup]
    push_cast
    ring
  obtain ⟨hnumber, hcarry⟩ := sum_of_balance hsmall hbalance
  refine ⟨hnumber, ?_⟩
  rw [Bool.eq_iff_iff, hcarry, testBit_top_iff hn (number_binary_lt bytes)]

/-- `80FF` with a carry is `01FF` and a carry when it is shifted up, and `C07F` and a carry when it
is shifted down. -/
theorem shifts_exact_of_two_bytes :
    ∃ m : Machine, m.registers.flags.cy = true ∧ [0xFF, 0x80] ≠ ([] : List Byte) ∧
      binary.number (shiftUp [0xFF, 0x80] m).1 = 0x01FF ∧
      (shiftUp [0xFF, 0x80] m).2.registers.flags.cy = true ∧
      binary.number (shiftDown [0xFF, 0x80] m).1 = 0xC07F ∧
      (shiftDown [0xFF, 0x80] m).2.registers.flags.cy.toNat = 1 := by
  let m : Machine := { memory := Memory.zero, registers := { flags := { cy := true } } }
  have nonempty : [0xFF, 0x80] ≠ ([] : List Byte) := by decide
  obtain ⟨⟨-, up, top⟩, ⟨-, down, bottom⟩, -⟩ := shifts_exact nonempty m
  exact ⟨m, rfl, nonempty, up.trans (by decide), top.trans (by decide), down.trans (by decide),
    bottom.trans (by decide)⟩

end Machine
end I8085
