import I8085.Word

/-!
# Arithmetic of the accumulator

Addition and subtraction of bytes with a carry in, and the decimal correction
that follows an addition of packed decimal digits.  Each answers with the byte
and two carries, one out of the whole byte and one out of its low digit; what
becomes of the flags is for the instruction to decide.
-/

namespace I8085
namespace Alu

/-- A byte with the carry out of bit 7 and the carry out of bit 3.  After a
subtraction both are borrows. -/
structure Result where
  value : Byte
  carry : Bool
  aux : Bool
deriving DecidableEq

def lowDigit (b : Byte) : Nat := b.toNat % 16

def add (x y : Byte) (carryIn : Bool) : Result where
  value := BitVec.ofNat 8 (x.toNat + y.toNat + carryIn.toNat)
  carry := decide (255 < x.toNat + y.toNat + carryIn.toNat)
  aux := decide (15 < lowDigit x + lowDigit y + carryIn.toNat)

def subtract (x y : Byte) (borrowIn : Bool) : Result where
  value := BitVec.ofNat 8 (256 + x.toNat - (y.toNat + borrowIn.toNat))
  carry := decide (x.toNat < y.toNat + borrowIn.toNat)
  aux := decide (lowDigit x < lowDigit y + borrowIn.toNat)

/-- The low digit needs correction when it is no decimal digit or when the sum
carried out of it. -/
def lowDigitExceeds (x : Byte) (aux : Bool) : Bool := decide (9 < lowDigit x) || aux

/-- The sum after the correction of its low digit, not yet cut to a byte. -/
def lowCorrected (x : Byte) (aux : Bool) : Nat :=
  if lowDigitExceeds x aux then x.toNat + 6 else x.toNat

/-- The high digit is judged after the low correction has rippled into it; a
carry out of the byte, old or new, counts as too large. -/
def highDigitExceeds (x : Byte) (carry aux : Bool) : Bool :=
  decide (9 < lowCorrected x aux / 16) || carry

/-- A binary sum of two packed decimal bytes, corrected to packed decimal.  Each
digit that exceeds nine has six added; correcting the high digit carries. -/
def decimalAdjust (x : Byte) (carry aux : Bool) : Result where
  value := BitVec.ofNat 8
    (if highDigitExceeds x carry aux then lowCorrected x aux + 0x60 else lowCorrected x aux)
  carry := highDigitExceeds x carry aux
  aux := lowDigitExceeds x aux && decide (9 < lowDigit x)

theorem add_value_toNat (x y : Byte) (c : Bool) :
    (add x y c).value.toNat + 256 * (add x y c).carry.toNat = x.toNat + y.toNat + c.toNat := by
  have hx : x.toNat < 256 := x.isLt
  have hy : y.toNat < 256 := y.isLt
  have hc : c.toNat < 2 := c.toNat_lt
  simp only [add, BitVec.toNat_ofNat]
  by_cases h : 255 < x.toNat + y.toNat + c.toNat
  · simp only [h, decide_true, Bool.toNat_true]; omega
  · simp only [h, decide_false, Bool.toNat_false]; omega

theorem subtract_value_toNat (x y : Byte) (b : Bool) :
    (subtract x y b).value.toNat + y.toNat + b.toNat =
      x.toNat + 256 * (subtract x y b).carry.toNat := by
  have hx : x.toNat < 256 := x.isLt
  have hy : y.toNat < 256 := y.isLt
  have hb : b.toNat < 2 := b.toNat_lt
  simp only [subtract, BitVec.toNat_ofNat]
  by_cases h : x.toNat < y.toNat + b.toNat
  · simp only [h, decide_true, Bool.toNat_true]; omega
  · simp only [h, decide_false, Bool.toNat_false]; omega

end Alu
end I8085
