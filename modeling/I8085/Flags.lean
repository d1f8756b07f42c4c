import I8085.Word

/-!
# Condition flags

Five flags record what the last arithmetic said of its result.  They travel
through memory packed in one byte, the low half of the program status word,
whose three spare bits always read `0`, `0` and `1`.
-/

namespace I8085

def evenParity (b : Byte) : Bool := (BitVec.cpop b).toNat % 2 == 0

/-- Sign, zero, auxiliary carry, parity and carry. -/
structure Flags where
  s : Bool := false
  z : Bool := false
  ac : Bool := false
  p : Bool := false
  cy : Bool := false
deriving DecidableEq, Inhabited

namespace Flags

/-- Sign, zero and parity as a result byte sets them; both carries stay. -/
def withResult (f : Flags) (result : Byte) : Flags :=
  { f with s := result.msb, z := result == 0, p := evenParity result }

/-- The packed flags: `S Z 0 AC 0 P 1 CY` from bit 7 down. -/
def toByte (f : Flags) : Byte :=
  BitVec.ofNat 8 (128 * f.s.toNat + 64 * f.z.toNat + 16 * f.ac.toNat + 4 * f.p.toNat + 2 +
    f.cy.toNat)

/-- The flags a packed byte carries; its three spare bits are not looked at. -/
def ofByte (b : Byte) : Flags where
  s := b.getLsbD 7
  z := b.getLsbD 6
  ac := b.getLsbD 4
  p := b.getLsbD 2
  cy := b.getLsbD 0

@[simp]
theorem ofByte_toByte (f : Flags) : ofByte (toByte f) = f := by
  obtain ⟨s, z, ac, p, cy⟩ := f
  cases s <;> cases z <;> cases ac <;> cases p <;> cases cy <;> rfl

/-- Packing what a byte carries puts the spare bits right and keeps the rest. -/
theorem toByte_ofByte (b : Byte) : toByte (ofByte b) = b &&& 0xD5#8 ||| 0x02#8 := by
  have all : ∀ b : Byte, toByte (ofByte b) = b &&& 0xD5#8 ||| 0x02#8 := by decide +kernel
  exact all b

def digit (flag : Bool) : String := if flag then "1" else "0"

def text (f : Flags) : String :=
  "S=" ++ digit f.s ++ " Z=" ++ digit f.z ++ " AC=" ++ digit f.ac ++ " P=" ++ digit f.p ++
    " CY=" ++ digit f.cy

end Flags
end I8085
