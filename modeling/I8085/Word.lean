/-!
# Bytes, words and counts

The machine stores bytes and addresses them by words.  A word is two bytes; on
paper the high byte comes first, in memory the low one does.  Both readings are
kept here, with the three equations that say the halves and the whole determine
each other.  Instructions are counted in sixty-four bits.
-/

namespace I8085

/-- A memory cell, a register or a port: eight bits, arithmetic modulo 256. -/
abbrev Byte := BitVec 8

/-- An address, a register pair or a stack entry: sixteen bits, arithmetic
modulo 65536, so that an address past `FFFF` is one from `0000` up. -/
abbrev Word := BitVec 16

/-- A count is below this. -/
def countRange : Nat := Nat.pow 2 64

namespace Word

def ofBytes (high low : Byte) : Word := high ++ low

def high (w : Word) : Byte := w.extractLsb' 8 8

def low (w : Word) : Byte := w.extractLsb' 0 8

theorem toNat_high (w : Word) : (high w).toNat = w.toNat / 256 := by
  have h : w.toNat < 65536 := w.isLt
  show (w.extractLsb' 8 8).toNat = _
  rw [BitVec.extractLsb'_toNat, Nat.shiftRight_eq_div_pow]
  omega

theorem toNat_low (w : Word) : (low w).toNat = w.toNat % 256 := by
  show (w.extractLsb' 0 8).toNat = _
  rw [BitVec.extractLsb'_toNat, Nat.shiftRight_zero]

theorem toNat_ofBytes (h l : Byte) : (ofBytes h l).toNat = 256 * h.toNat + l.toNat := by
  show (h ++ l : BitVec (8 + 8)).toNat = _
  rw [BitVec.toNat_append, ← Nat.shiftLeft_add_eq_or_of_lt l.isLt, Nat.shiftLeft_eq, Nat.mul_comm]

@[simp]
theorem high_ofBytes (h l : Byte) : high (ofBytes h l) = h := by
  have hh : h.toNat < 256 := h.isLt
  have hl : l.toNat < 256 := l.isLt
  apply BitVec.eq_of_toNat_eq
  rw [toNat_high, toNat_ofBytes]
  omega

@[simp]
theorem low_ofBytes (h l : Byte) : low (ofBytes h l) = l := by
  have hl : l.toNat < 256 := l.isLt
  apply BitVec.eq_of_toNat_eq
  rw [toNat_low, toNat_ofBytes]
  omega

@[simp]
theorem ofBytes_high_low (w : Word) : ofBytes (high w) (low w) = w := by
  apply BitVec.eq_of_toNat_eq
  rw [toNat_ofBytes, toNat_high, toNat_low]
  omega

/-- A byte as the word of the same value. -/
def ofByte (b : Byte) : Word := ofBytes 0 b

end Word
end I8085
