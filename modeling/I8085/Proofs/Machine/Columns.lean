import I8085.Machine.Action
import Mathlib.Data.List.Basic
import Mathlib.Data.Nat.Digits.Defs
import Mathlib.Tactic.LinearCombination

/-!
# Numbers of many bytes

A number of many bytes is worked on column by column, the least significant first: the first
byte of a column is put in A, the second is added to it or subtracted from it with the carry
that the column before left, and what A holds then is the byte of the result.

What a column leaves balances what it was given, if the carry is weighed with the base.  The
balances of the columns add up to one of the whole numbers, by induction on the columns, and
the result and the last carry are read off that one.  Binary columns have the base 256, and
decimal ones, which adjust the sum, the base 100.
-/

namespace I8085

/-- How bytes are read as the places of a number. -/
structure Radix where
  base : Nat
  /-- The bytes that can stand in a place. -/
  Digit : Byte → Prop
  value : Byte → Nat
  one_lt_base : 1 < base
  value_lt : ∀ b, Digit b → value b < base

namespace Radix

/-- The number that bytes write, the least significant first. -/
def number (s : Radix) (bytes : List Byte) : Nat := Nat.ofDigits s.base (bytes.map s.value)

theorem number_nil (s : Radix) : s.number [] = 0 := rfl

theorem number_cons (s : Radix) (b : Byte) (bytes : List Byte) :
    s.number (b :: bytes) = s.value b + s.base * s.number bytes := by
  rw [number, List.map_cons, Nat.ofDigits_cons]
  rfl

theorem number_lt (s : Radix) {bytes : List Byte} (h : ∀ b ∈ bytes, s.Digit b) :
    s.number bytes < s.base ^ bytes.length := by
  rw [number, ← List.length_map (f := s.value)]
  apply Nat.ofDigits_lt_base_pow_length s.one_lt_base
  intro d hd
  obtain ⟨b, hb, rfl⟩ := List.mem_map.1 hd
  exact s.value_lt b (h b hb)

/-- Every byte is a place, and counts for itself. -/
def binary : Radix where
  base := 256
  Digit _ := True
  value := BitVec.toNat
  one_lt_base := by decide
  value_lt b _ := b.isLt

end Radix

/-- Both halves of the byte are decimal digits. -/
def IsPacked (b : Byte) : Prop := b.toNat / 16 ≤ 9 ∧ b.toNat % 16 ≤ 9

instance : DecidablePred IsPacked :=
  fun b => inferInstanceAs (Decidable (b.toNat / 16 ≤ 9 ∧ b.toNat % 16 ≤ 9))

/-- Two decimal digits to a byte, the higher one in its high half. -/
def Radix.packed : Radix where
  base := 100
  Digit := IsPacked
  value b := 10 * (b.toNat / 16) + b.toNat % 16
  one_lt_base := by decide
  value_lt b h := by
    have := h.1
    have := h.2
    omega

/-! ## One decimal column -/

namespace Alu

/-- The low digits of a decimal column with the carry that came in, and the high ones with the
carry of the low ones. -/
def lowSum (x y : Byte) (c : Bool) : Nat := x.toNat % 16 + y.toNat % 16 + c.toNat

def highSum (x y : Byte) (c : Bool) : Nat :=
  x.toNat / 16 + y.toNat / 16 + (decide (9 < lowSum x y c)).toNat

variable {x y : Byte} {c : Bool}

theorem lowSum_lt (hx : IsPacked x) (hy : IsPacked y) : lowSum x y c < 20 := by
  have := hx.2
  have := hy.2
  have := c.toNat_lt
  unfold lowSum
  omega

theorem highSum_lt (hx : IsPacked x) (hy : IsPacked y) : highSum x y c < 20 := by
  have := hx.1
  have := hy.1
  have := (decide (9 < lowSum x y c)).toNat_lt
  unfold highSum
  omega

/-- The correction sees every carry in decimal, whether the low digits have carried in binary or
are no decimal digit. -/
theorem lowDigitExceeds_add (hx : IsPacked x) (hy : IsPacked y) :
    lowDigitExceeds (add x y c).value (add x y c).aux = decide (9 < lowSum x y c) := by
  have bound := lowSum_lt (c := c) hx hy
  have low : lowDigit (add x y c).value = lowSum x y c % 16 := by
    simp only [lowDigit, add, BitVec.toNat_ofNat, lowSum]
    omega
  have aux : (add x y c).aux = decide (15 < lowSum x y c) := rfl
  rw [lowDigitExceeds, low, aux, ← Bool.decide_or]
  apply decide_eq_decide.2
  omega

/-- The sum after the correction of its low digits: they are one decimal digit, and what they
carried is with the high ones. -/
theorem lowCorrected_add (hx : IsPacked x) (hy : IsPacked y) :
    lowCorrected (add x y c).value (add x y c).aux + 256 * (add x y c).carry.toNat =
      16 * highSum x y c + lowSum x y c % 10 := by
  have sum := add_value_toNat x y c
  have bound := lowSum_lt (c := c) hx hy
  have digits : x.toNat + y.toNat + c.toNat =
      16 * (x.toNat / 16 + y.toNat / 16) + lowSum x y c := by
    unfold lowSum
    omega
  rw [lowCorrected, lowDigitExceeds_add hx hy, highSum]
  by_cases h : 9 < lowSum x y c
  · rw [decide_eq_true h, if_pos rfl, Bool.toNat_true]
    omega
  · rw [decide_eq_false h, if_neg Bool.false_ne_true, Bool.toNat_false]
    omega

theorem highDigitExceeds_add (hx : IsPacked x) (hy : IsPacked y) :
    highDigitExceeds (add x y c).value (add x y c).carry (add x y c).aux =
      decide (9 < highSum x y c) := by
  have corrected := lowCorrected_add (c := c) hx hy
  rw [highDigitExceeds]
  cases hcarry : (add x y c).carry with
  | false =>
    rw [hcarry, Bool.toNat_false] at corrected
    rw [Bool.or_false]
    apply decide_eq_decide.2
    omega
  | true =>
    rw [hcarry, Bool.toNat_true] at corrected
    rw [Bool.or_true]
    symm
    apply decide_eq_true
    omega

theorem decimalAdjust_value_add (hx : IsPacked x) (hy : IsPacked y) :
    (decimalAdjust (add x y c).value (add x y c).carry (add x y c).aux).value.toNat =
      16 * (highSum x y c % 10) + lowSum x y c % 10 := by
  have corrected := lowCorrected_add (c := c) hx hy
  have bound := highSum_lt (c := c) hx hy
  rw [decimalAdjust, BitVec.toNat_ofNat, highDigitExceeds_add hx hy]
  by_cases h : 9 < highSum x y c
  · rw [decide_eq_true h, if_pos rfl]
    omega
  · rw [decide_eq_false h, if_neg Bool.false_ne_true]
    omega

/-- The corrected sum of two packed bytes is packed, and it is their sum in decimal. -/
theorem decimalAdjust_add (hx : IsPacked x) (hy : IsPacked y) :
    let result := decimalAdjust (add x y c).value (add x y c).carry (add x y c).aux
    IsPacked result.value ∧
      Radix.packed.value result.value + 100 * result.carry.toNat =
        Radix.packed.value x + Radix.packed.value y + c.toNat := by
  intro result
  have value : result.value.toNat = _ := decimalAdjust_value_add hx hy
  have carry : result.carry = decide (9 < highSum x y c) := highDigitExceeds_add hx hy
  have low := lowSum_lt (c := c) hx hy
  have high := highSum_lt (c := c) hx hy
  have decimal (n : Nat) (hn : n < 20) : n = n % 10 + 10 * (decide (9 < n)).toNat := by
    by_cases h : 9 < n
    · rw [decide_eq_true h, Bool.toNat_true]
      omega
    · rw [decide_eq_false h, Bool.toNat_false]
      omega
  have hlow := decimal _ low
  have hhigh := decimal _ high
  constructor
  · unfold IsPacked
    omega
  · have low_eq : lowSum x y c = x.toNat % 16 + y.toNat % 16 + c.toNat := rfl
    have high_eq : highSum x y c =
      x.toNat / 16 + y.toNat / 16 + (decide (9 < lowSum x y c)).toNat := rfl
    rw [carry]
    simp only [Radix.packed]
    omega

end Alu

/-! ## All columns -/

namespace Machine

/-- Two numbers of bytes worked on column by column: the byte that A holds behind each column,
and the machine behind the last. -/
def columns (work : Byte → Machine → Machine) :
    List Byte → List Byte → Machine → List Byte × Machine
  | x :: xs, y :: ys, m =>
    let worked := work y (m.setReg .a x)
    let rest := columns work xs ys worked
    (worked.reg .a :: rest.1, rest.2)
  | _, _, m => ([], m)

/-- The second byte is added with the carry. -/
def addColumn (y : Byte) (m : Machine) : Machine := (Action.add y m.registers.flags.cy).apply m

/-- The second byte is subtracted with the carry, which is a borrow then. -/
def subtractColumn (y : Byte) (m : Machine) : Machine :=
  (Action.sub y m.registers.flags.cy).apply m

/-- The second byte is added with the carry, and the sum is adjusted. -/
def addDecimalColumn (y : Byte) (m : Machine) : Machine := Action.daa.apply (addColumn y m)

end Machine

/-- A column leaves a byte that can stand in a place, and it balances: with the sign 1 the second
byte and the carry are added to the first byte, with -1 they are taken away. -/
structure Radix.Balances (s : Radix) (sign : ℤ) (work : Byte → Machine → Machine) : Prop where
  digit : ∀ (m : Machine) (y : Byte), s.Digit (m.reg .a) → s.Digit y → s.Digit ((work y m).reg .a)
  balance : ∀ (m : Machine) (y : Byte), s.Digit (m.reg .a) → s.Digit y →
    (s.value ((work y m).reg .a) : ℤ) + sign * (s.base * (work y m).registers.flags.cy.toNat) =
      s.value (m.reg .a) + sign * (s.value y + m.registers.flags.cy.toNat)

namespace Machine

theorem addColumn_balances : Radix.binary.Balances 1 addColumn where
  digit _ _ _ _ := trivial
  balance m y _ _ := by
    have sum := Alu.add_value_toNat m.registers.a y m.registers.flags.cy
    show ((Alu.add m.registers.a y m.registers.flags.cy).value.toNat : ℤ) +
      1 * (256 * (Alu.add m.registers.a y m.registers.flags.cy).carry.toNat) =
      m.registers.a.toNat + 1 * (y.toNat + m.registers.flags.cy.toNat)
    omega

theorem subtractColumn_balances : Radix.binary.Balances (-1) subtractColumn where
  digit _ _ _ _ := trivial
  balance m y _ _ := by
    have difference := Alu.subtract_value_toNat m.registers.a y m.registers.flags.cy
    show ((Alu.subtract m.registers.a y m.registers.flags.cy).value.toNat : ℤ) +
      -1 * (256 * (Alu.subtract m.registers.a y m.registers.flags.cy).carry.toNat) =
      m.registers.a.toNat + -1 * (y.toNat + m.registers.flags.cy.toNat)
    omega

theorem addDecimalColumn_balances : Radix.packed.Balances 1 addDecimalColumn where
  digit m y hx hy := (Alu.decimalAdjust_add (c := m.registers.flags.cy) hx hy).1
  balance m y hx hy := by
    let sum := Alu.add m.registers.a y m.registers.flags.cy
    let result := Alu.decimalAdjust sum.value sum.carry sum.aux
    have hresult : Radix.packed.value result.value + 100 * result.carry.toNat = _ :=
      (Alu.decimalAdjust_add hx hy).2
    show (Radix.packed.value result.value : ℤ) + 1 * (100 * result.carry.toNat) =
      Radix.packed.value (m.reg .a) + 1 * (Radix.packed.value y + m.registers.flags.cy.toNat)
    omega

variable {s : Radix} {sign : ℤ} {work : Byte → Machine → Machine}

/-- The balances of the columns add up. -/
theorem balance_columns (h : s.Balances sign work) {xs ys : List Byte}
    (hlength : xs.length = ys.length) (hx : ∀ x ∈ xs, s.Digit x) (hy : ∀ y ∈ ys, s.Digit y)
    (m : Machine) :
    (columns work xs ys m).1.length = xs.length ∧
    (∀ b ∈ (columns work xs ys m).1, s.Digit b) ∧
    (s.number (columns work xs ys m).1 : ℤ) +
        sign * (s.base ^ xs.length * (columns work xs ys m).2.registers.flags.cy.toNat) =
      s.number xs + sign * (s.number ys + m.registers.flags.cy.toNat) := by
  induction xs generalizing ys m with
  | nil =>
    obtain rfl := List.length_eq_zero_iff.1 hlength.symm
    simp [columns, Radix.number_nil]
  | cons x xs ih =>
    cases ys with
    | nil => cases hlength
    | cons y ys =>
      rw [List.forall_mem_cons] at hx hy
      let worked := work y (m.setReg .a x)
      have hdigit := h.digit (m.setReg .a x) y hx.1 hy.1
      have hcolumn : (s.value (worked.reg .a) : ℤ) +
          sign * (s.base * worked.registers.flags.cy.toNat) =
            s.value x + sign * (s.value y + m.registers.flags.cy.toNat) :=
        h.balance (m.setReg .a x) y hx.1 hy.1
      obtain ⟨ihlength, ihdigits, ihbalance⟩ := ih (Nat.succ.inj hlength) hx.2 hy.2 worked
      refine ⟨congrArg Nat.succ ihlength, List.forall_mem_cons.2 ⟨hdigit, ihdigits⟩, ?_⟩
      show (s.number (worked.reg .a :: (columns work xs ys worked).1) : ℤ) +
        sign * (s.base ^ (xs.length + 1) *
          (columns work xs ys worked).2.registers.flags.cy.toNat) = _
      rw [Radix.number_cons, Radix.number_cons, Radix.number_cons]
      push_cast
      -- the carry between the first column and the others cancels
      linear_combination hcolumn + s.base * ihbalance

/-! ## What is read off a balance -/

theorem sum_of_balance {z total modulus : Nat} {carry : Bool} (hz : z < modulus)
    (h : (z : ℤ) + 1 * (modulus * carry.toNat) = total) :
    z = total % modulus ∧ (carry = true ↔ modulus ≤ total) := by
  cases carry with
  | false =>
    have htotal : total = z := by simpa [eq_comm] using h
    subst htotal
    exact ⟨(Nat.mod_eq_of_lt hz).symm, by simp [hz]⟩
  | true =>
    have htotal : total = z + modulus := by
      simp only [Bool.toNat_true] at h
      omega
    rw [htotal, Nat.add_mod_right, Nat.mod_eq_of_lt hz]
    exact ⟨rfl, by simp⟩

theorem difference_of_balance {z x y modulus : Nat} {carry : Bool} (hz : z < modulus)
    (h : (z : ℤ) + -1 * (modulus * carry.toNat) = x + -1 * y) :
    (z : ℤ) = (x - y) % modulus ∧ (carry = true ↔ x < y) := by
  have wrapped : (z : ℤ) = (z : ℤ) % modulus := (Int.emod_eq_of_lt (by omega) (by omega)).symm
  cases carry with
  | false =>
    have hdifference : (x : ℤ) - y = z := by
      simp only [Bool.toNat_false] at h
      omega
    rw [hdifference]
    exact ⟨wrapped, by simp; omega⟩
  | true =>
    have hdifference : (x : ℤ) - y = z - modulus := by
      simp only [Bool.toNat_true] at h
      omega
    rw [hdifference, Int.sub_emod_right]
    exact ⟨wrapped, by simp; omega⟩

/-- A sum of two numbers with as many places is exact up to the carry that leaves it. -/
theorem number_columns_of_sum (h : s.Balances 1 work) {xs ys : List Byte}
    (hlength : xs.length = ys.length) (hx : ∀ x ∈ xs, s.Digit x) (hy : ∀ y ∈ ys, s.Digit y)
    (m : Machine) :
    let sum := columns work xs ys m
    let total := s.number xs + s.number ys + m.registers.flags.cy.toNat
    sum.1.length = xs.length ∧ (∀ b ∈ sum.1, s.Digit b) ∧
      s.number sum.1 = total % s.base ^ xs.length ∧
      (sum.2.registers.flags.cy = true ↔ s.base ^ xs.length ≤ total) := by
  intro sum total
  obtain ⟨length, digits, balance⟩ := balance_columns h hlength hx hy m
  have small := s.number_lt digits
  rw [length] at small
  refine ⟨length, digits, sum_of_balance small ?_⟩
  simp only [total]
  push_cast
  linear_combination balance

theorem number_columns_of_difference (h : s.Balances (-1) work) {xs ys : List Byte}
    (hlength : xs.length = ys.length) (hx : ∀ x ∈ xs, s.Digit x) (hy : ∀ y ∈ ys, s.Digit y)
    (m : Machine) :
    let difference := columns work xs ys m
    let taken := s.number ys + m.registers.flags.cy.toNat
    difference.1.length = xs.length ∧ (∀ b ∈ difference.1, s.Digit b) ∧
      (s.number difference.1 : ℤ) = (s.number xs - taken) % s.base ^ xs.length ∧
      (difference.2.registers.flags.cy = true ↔ s.number xs < taken) := by
  intro difference taken
  obtain ⟨length, digits, balance⟩ := balance_columns h hlength hx hy m
  have small := s.number_lt digits
  rw [length] at small
  have whole : (s.number difference.1 : ℤ) +
      -1 * ((s.base ^ xs.length : ℕ) * difference.2.registers.flags.cy.toNat) =
        s.number xs + -1 * taken := by
    simp only [taken]
    push_cast
    exact balance
  have read := difference_of_balance small whole
  rw [Nat.cast_pow] at read
  exact ⟨length, digits, read⟩

/-! ## Decimal numbers -/

/-- Decimal addition is exact at every length: of two numbers with as many packed bytes, with any
carry to begin with, all bytes of the sum are packed, they write the sum modulo the power of a
hundred, and the last carry tells whether the sum reaches it. -/
theorem columns_addDecimal_exact {n : Nat} (xs ys : Vector Byte n) (m : Machine)
    (hx : ∀ x ∈ xs.toList, IsPacked x) (hy : ∀ y ∈ ys.toList, IsPacked y) :
    let sum := columns addDecimalColumn xs.toList ys.toList m
    let total := Radix.packed.number xs.toList + Radix.packed.number ys.toList +
      m.registers.flags.cy.toNat
    sum.1.length = n ∧ (∀ b ∈ sum.1, IsPacked b) ∧
      Radix.packed.number sum.1 = total % 100 ^ n ∧
      (sum.2.registers.flags.cy = true ↔ 100 ^ n ≤ total) := by
  have hlength : xs.toList.length = n := xs.length_toList
  have exact_sum := number_columns_of_sum addDecimalColumn_balances
    (hlength.trans ys.length_toList.symm) hx hy m
  rw [hlength] at exact_sum
  exact exact_sum

/-- 9958 and 43 and a carry are 2 in four digits, with a carry out of both bytes. -/
theorem columns_addDecimal_carrying :
    ∃ m : Machine, m.registers.flags.cy = true ∧
      (∀ x ∈ (#v[0x58, 0x99] : Vector Byte 2).toList, IsPacked x) ∧
      (∀ y ∈ (#v[0x43, 0x00] : Vector Byte 2).toList, IsPacked y) ∧
      Radix.packed.number (columns addDecimalColumn [0x58, 0x99] [0x43, 0x00] m).1 = 2 ∧
      (columns addDecimalColumn [0x58, 0x99] [0x43, 0x00] m).2.registers.flags.cy = true := by
  let m : Machine := { memory := Memory.zero, registers := { flags := { cy := true } } }
  have hx : ∀ x ∈ (#v[0x58, 0x99] : Vector Byte 2).toList, IsPacked x := by decide
  have hy : ∀ y ∈ (#v[0x43, 0x00] : Vector Byte 2).toList, IsPacked y := by decide
  obtain ⟨-, -, number, carry⟩ := columns_addDecimal_exact #v[0x58, 0x99] #v[0x43, 0x00] m hx hy
  exact ⟨m, rfl, hx, hy, number.trans (by decide), carry.2 (by decide)⟩

/-! ## Binary numbers -/

theorem number_bytes (w : Word) : Radix.binary.number [Word.low w, Word.high w] = w.toNat := by
  rw [Radix.number_cons, Radix.number_cons, Radix.number_nil]
  show (Word.low w).toNat + 256 * ((Word.high w).toNat + 256 * 0) = w.toNat
  rw [Word.toNat_low, Word.toNat_high]
  omega

/-- Two bytes are those of the word that they write. -/
theorem eq_bytes_of_number {bytes : List Byte} {w : Word} (hlength : bytes.length = 2)
    (h : Radix.binary.number bytes = w.toNat) : bytes = [Word.low w, Word.high w] := by
  obtain ⟨low, high, rfl⟩ := List.length_eq_two.1 hlength
  have written := number_bytes (Word.ofBytes high low)
  rw [Word.low_ofBytes, Word.high_ofBytes, h] at written
  rw [BitVec.eq_of_toNat_eq written, Word.low_ofBytes, Word.high_ofBytes]

def clearCarry (m : Machine) : Machine :=
  { m with registers := { m.registers with flags := { m.registers.flags with cy := false } } }

/-- The addition of a word to HL is that of its two bytes to L and H. -/
theorem columns_eq_dad (m : Machine) (pair : Pair) :
    let w := m.registers.pair pair
    let sum := columns addColumn [m.registers.l, m.registers.h] [Word.low w, Word.high w]
      m.clearCarry
    let after := (Action.dad pair).apply m
    sum.1 = [after.registers.l, after.registers.h] ∧
      sum.2.registers.flags.cy = after.registers.flags.cy := by
  intro w sum after
  have hlength : [m.registers.l, m.registers.h].length = [Word.low w, Word.high w].length := rfl
  obtain ⟨length, -, number, carry⟩ := number_columns_of_sum addColumn_balances hlength
    (fun _ _ => trivial) (fun _ _ => trivial) m.clearCarry
  have hhl : Radix.binary.number [m.registers.l, m.registers.h] = m.registers.hl.toNat := by
    rw [← number_bytes, Registers.hl, Word.low_ofBytes, Word.high_ofBytes]
  have hclear : m.clearCarry.registers.flags.cy.toNat = 0 := rfl
  have hmodulus : Radix.binary.base ^ [m.registers.l, m.registers.h].length = 2 ^ 16 :=
    show 256 ^ 2 = 2 ^ 16 by decide
  rw [hhl, number_bytes, hclear, hmodulus, Nat.add_zero] at number carry
  constructor
  · apply eq_bytes_of_number length
    rw [number, BitVec.toNat_add]
  · have hafter : after.registers.flags.cy = decide (65535 < m.registers.hl.toNat + w.toNat) := rfl
    rw [hafter, Bool.eq_iff_iff, carry, decide_eq_true_iff]
    omega

/-- Binary arithmetic is exact at every length: with any carry to begin with, the sum of two
numbers with as many bytes is their sum modulo the power of 256 and the last carry tells whether
the sum reaches it, and the difference is their difference modulo that power and the last carry
tells whether it is below zero.  The addition of a register pair to HL is that of two bytes. -/
theorem columns_binary_exact {n : Nat} (xs ys : Vector Byte n) (m : Machine) :
    let x := Radix.binary.number xs.toList
    let y := Radix.binary.number ys.toList
    let c := m.registers.flags.cy.toNat
    let sum := columns addColumn xs.toList ys.toList m
    let difference := columns subtractColumn xs.toList ys.toList m
    (sum.1.length = n ∧ Radix.binary.number sum.1 = (x + y + c) % 256 ^ n ∧
      (sum.2.registers.flags.cy = true ↔ 256 ^ n ≤ x + y + c)) ∧
    (difference.1.length = n ∧
      (Radix.binary.number difference.1 : ℤ) = (x - y - c) % 256 ^ n ∧
      (difference.2.registers.flags.cy = true ↔ x < y + c)) ∧
    ∀ pair : Pair,
      let w := m.registers.pair pair
      let sum := columns addColumn [m.registers.l, m.registers.h] [Word.low w, Word.high w]
        m.clearCarry
      let after := (Action.dad pair).apply m
      sum.1 = [after.registers.l, after.registers.h] ∧
        sum.2.registers.flags.cy = after.registers.flags.cy := by
  intro x y c sum difference
  have hlength : xs.toList.length = n := xs.length_toList
  have hequal : xs.toList.length = ys.toList.length := hlength.trans ys.length_toList.symm
  refine ⟨?_, ?_, columns_eq_dad m⟩
  · obtain ⟨length, -, number, carry⟩ := number_columns_of_sum addColumn_balances hequal
      (fun _ _ => trivial) (fun _ _ => trivial) m
    rw [hlength] at length number carry
    exact ⟨length, number, carry⟩
  · obtain ⟨length, -, number, carry⟩ := number_columns_of_difference subtractColumn_balances
      hequal (fun _ _ => trivial) (fun _ _ => trivial) m
    rw [hlength] at length number
    refine ⟨length, ?_, carry⟩
    rw [Int.sub_sub]
    exact_mod_cast number

end Machine
end I8085
