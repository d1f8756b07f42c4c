import I8085.Proofs.Machine.Code
import I8085.Proofs.Machine.Columns
import I8085.Proofs.Sample.Vocabulary
import I8085.Sample

/-!
# The decimal subtraction sample

The program subtracts in decimal without a decimal subtraction: it takes the subtrahend away
from 99, adds one and adds the minuend, and only the last sum is adjusted.  The one in the middle
is added in binary, and it can leave a byte that is no packed number: behind 99 comes `9A`.  Such
a byte is never adjusted.  To add it is to add the byte before it with a carry in, since no packed
digit carries when one is added to it, and so the sum that is adjusted is one of packed numbers
after all.
-/

namespace I8085

namespace Alu

variable {x y : Byte}

/-- To raise a byte by one and then add to it is to add with a carry in, if the one stays in the
low digit. -/
theorem add_raised (hx : x.toNat % 16 < 15) (y : Byte) :
    add (add x 1 false).value y false = add x y true := by
  have raised : (add x 1 false).value.toNat = x.toNat + 1 := by
    have hlt := x.isLt
    show (BitVec.ofNat 8 (x.toNat + 1 + 0)).toNat = _
    rw [BitVec.toNat_ofNat]
    omega
  simp only [add, lowDigit, Bool.toNat_false, Bool.toNat_true, Result.mk.injEq] at raised ⊢
  refine ⟨congrArg (BitVec.ofNat 8) ?_, decide_eq_decide.2 ?_, decide_eq_decide.2 ?_⟩ <;> omega

/-- A packed number is taken from 99 digit by digit, without a borrow. -/
theorem subtract_from_ninetyNine (hy : IsPacked y) :
    IsPacked (subtract 0x99 y false).value ∧
      Radix.packed.value (subtract 0x99 y false).value + Radix.packed.value y = 99 := by
  have difference : (subtract 0x99 y false).value.toNat = 153 - y.toNat := by
    show (BitVec.ofNat 8 (256 + 153 - (y.toNat + 0))).toNat = _
    rw [BitVec.toNat_ofNat]
    have := hy.1
    have := hy.2
    omega
  obtain ⟨hhigh, hlow⟩ := hy
  have high : (153 - y.toNat) / 16 = 9 - y.toNat / 16 := by omega
  have low : (153 - y.toNat) % 16 = 9 - y.toNat % 16 := by omega
  constructor
  · rw [IsPacked, difference, high, low]
    omega
  · simp only [Radix.packed]
    rw [difference, high, low]
    omega

/-- The difference as the program makes it: the nine's complement of the second byte is raised
by one, the first is added, and the sum is adjusted. -/
def decimalDifference (x y : Byte) : Result :=
  let raised := (add (subtract 0x99 y false).value 1 false).value
  let sum := add raised x false
  decimalAdjust sum.value sum.carry sum.aux

/-- It is packed, and it has carried the hundred that complements it if it is not below zero. -/
theorem decimalDifference_exact (hx : IsPacked x) (hy : IsPacked y) :
    IsPacked (decimalDifference x y).value ∧
      (Radix.packed.value (decimalDifference x y).value : ℤ) =
        (Radix.packed.value x - Radix.packed.value y) % 100 ∧
      ((decimalDifference x y).carry = true ↔ Radix.packed.value y ≤ Radix.packed.value x) := by
  obtain ⟨hcomplement, hninetyNine⟩ := subtract_from_ninetyNine hy
  have room : (subtract 0x99 y false).value.toNat % 16 < 15 := by
    have := hcomplement.2
    omega
  have hsum : decimalDifference x y = decimalAdjust
      (add (subtract 0x99 y false).value x true).value
      (add (subtract 0x99 y false).value x true).carry
      (add (subtract 0x99 y false).value x true).aux := by
    rw [decimalDifference, add_raised room x]
  obtain ⟨packed, balance⟩ := decimalAdjust_add (c := true) hcomplement hx
  rw [← hsum] at packed balance
  have small : Radix.packed.value (decimalDifference x y).value < 100 :=
    Radix.packed.value_lt _ packed
  have bound : Radix.packed.value x < 100 := Radix.packed.value_lt x hx
  rw [Bool.toNat_true] at balance
  refine ⟨packed, ?_⟩
  cases hcarry : (decimalDifference x y).carry with
  | false =>
    rw [hcarry, Bool.toNat_false] at balance
    exact ⟨by omega, iff_of_false Bool.false_ne_true (by omega)⟩
  | true =>
    rw [hcarry, Bool.toNat_true] at balance
    exact ⟨by omega, iff_of_true rfl (by omega)⟩

end Alu

namespace Sample
namespace DecimalSubtract

open Assembler Machine Vocabulary

/-! ## The code -/

def body : List Fetched :=
  [⟨lxiHL 0xC051, 0x0000⟩, ⟨mviA 0x99, 0x0003⟩, ⟨subM, 0x0005⟩, ⟨inrA, 0x0006⟩, ⟨dcxHL, 0x0007⟩,
   ⟨addM, 0x0008⟩, ⟨daa, 0x0009⟩, ⟨sta 0xC052, 0x000A⟩]

def halt : Fetched := ⟨hlt, 0x000D⟩

/-- Every line of the source at its address. -/
def code : List Fetched := body ++ [halt]

theorem source : SourceOf bcdSubtract.source origin code where
  located := by decide
  fits := by decide
  texts := by decide
  size_le := by decide

/-! ## What it does -/

variable {memory : Memory} {r : Registers}

theorem leads_body (h : memory.Holds code) (r : Registers) :
    let result := Alu.decimalDifference (memory.read 0xC050) (memory.read 0xC051)
    ∃ r', Leads body { r with pc := origin } memory r' (memory.write 0xC052 result.value) ∧
      r'.pc = 0x000D ∧ r'.flags.cy = result.carry := by
  intro result
  obtain ⟨address, ninetyNine, subtract, raise, back, add, adjust, store, -⟩ := by
    simpa only [code, body, List.cons_append, Memory.holds_cons] using h
  let y := memory.read (Word.ofBytes 0xC0 0x51)
  -- the registers behind each instruction
  let taken : Registers :=
    { ({ r with a := 0x99, h := 0xC0, l := 0x51 } : Registers).subtract y false with pc := 0x0006 }
  let raised : Registers :=
    { taken.commitStep (Alu.add taken.a 1 false) with
      a := (Alu.add taken.a 1 false).value
      pc := 0x0007 }
  let pointed : Registers := { raised.setPair .hl (raised.hl - 1) with pc := 0x0008 }
  have hl : pointed.hl = 0xC050 :=
    (Word.ofBytes_high_low (raised.hl - 1)).trans
      (show Word.ofBytes 0xC0 0x51 - 1 = 0xC050 by decide)
  let x := memory.read pointed.hl
  let added : Registers := { pointed.add x false with pc := 0x0009 }
  let adjusted : Registers := { added.decimalAdjust with pc := 0x000A }
  have hx : x = memory.read 0xC050 := congrArg memory.read hl
  have hresult : result = Alu.decimalDifference x y :=
    congrArg (Alu.decimalDifference · y) hx.symm
  rw [hresult]
  refine ⟨{ adjusted with pc := 0x000D }, ?_, rfl, rfl⟩
  refine .cons address { r with h := 0xC0, l := 0x51, pc := 0x0003 } memory
    (fun _ => ⟨rfl, rfl⟩) ?_
  refine .cons ninetyNine { r with a := 0x99, h := 0xC0, l := 0x51, pc := 0x0005 } memory
    (fun _ => ⟨rfl, rfl⟩) ?_
  refine .cons subtract taken memory (fun _ => ⟨rfl, rfl⟩) ?_
  refine .cons raise raised memory (fun _ => ⟨rfl, rfl⟩) ?_
  refine .cons back pointed memory (fun _ => ⟨rfl, rfl⟩) ?_
  refine .cons add added memory (fun _ => ⟨rfl, rfl⟩) ?_
  refine .cons adjust adjusted memory (fun _ => ⟨rfl, rfl⟩) ?_
  exact .cons store _ _ (fun _ => ⟨rfl, rfl⟩) (.refl _ _)

theorem runFrom_of_holds {m : Machine} (hclear : m.halted = false) (h : m.memory.Holds code) :
    let result := Alu.decimalDifference (m.memory.read 0xC050) (m.memory.read 0xC051)
    ∃ last, runFrom origin none m = (.ok 9, last) ∧
      last.memory = m.memory.write 0xC052 result.value ∧
      last.registers.flags.cy = result.carry := by
  intro result
  obtain ⟨r', leads, hpc, hcarry⟩ := leads_body h m.registers
  have free : HaltFree body := by
    unfold HaltFree
    decide
  have stored : (m.memory.write 0xC052 result.value).Holds code := h.write _ (by decide)
  have atHalt : (m.memory.write 0xC052 result.value).fetch r'.pc = .ok halt := by
    rw [hpc]
    exact stored halt (List.mem_append_right body List.mem_cons_self)
  have short : body.length < bound none := by decide
  obtain ⟨last, hrun, hregisters, hmemory⟩ :=
    runFrom_of_leads hclear leads free atHalt rfl short
  refine ⟨last, hrun, hmemory, ?_⟩
  rw [hregisters]
  exact hcarry

end DecimalSubtract

open DecimalSubtract (runFrom_of_holds)
open Machine

/-- For every two packed numbers the program halts, whatever the registers and the rest of memory
hold, and stores one byte behind them; no other cell changes.  The byte is packed and writes the
difference modulo 100, that is its ten's complement if it is below zero, and the carry is set
exactly if it is not. -/
theorem runFrom_bcdSubtract (m : Machine) (hx : IsPacked (m.memory.read 0xC050))
    (hy : IsPacked (m.memory.read 0xC051)) :
    let loaded := m.loaded bcdSubtract.source origin
    let x := Radix.packed.value (m.memory.read 0xC050)
    let y := Radix.packed.value (m.memory.read 0xC051)
    (Assembler.load bcdSubtract.source origin m.memory).1 = .ok 0x000E ∧
    ∃ last z, runFrom origin none loaded = (.ok 9, last) ∧
      last.memory = loaded.memory.write 0xC052 z ∧
      IsPacked z ∧ (Radix.packed.value z : ℤ) = (x - y) % 100 ∧
      (last.registers.flags.cy = true ↔ y ≤ x) := by
  intro loaded x y
  have keepsFirst : loaded.memory.read 0xC050 = m.memory.read 0xC050 :=
    DecimalSubtract.source.read_loaded m (by decide)
  have keepsSecond : loaded.memory.read 0xC051 = m.memory.read 0xC051 :=
    DecimalSubtract.source.read_loaded m (by decide)
  obtain ⟨last, hrun, hmemory, hcarry⟩ :=
    runFrom_of_holds (m := loaded) rfl (DecimalSubtract.source.holds m)
  rw [keepsFirst, keepsSecond] at hmemory hcarry
  obtain ⟨packed, value, carry⟩ := Alu.decimalDifference_exact hx hy
  refine ⟨DecimalSubtract.source.load_eq m.memory, last, _, hrun, hmemory, packed, value, ?_⟩
  rw [hcarry]
  exact carry

/-- 5 less 10 is the ten's complement of 5, without a carry. -/
theorem runFrom_bcdSubtract_below_zero :
    ∃ m last : Machine, m.memory.read 0xC050 = 0x05 ∧ m.memory.read 0xC051 = 0x10 ∧
      runFrom origin none (m.loaded bcdSubtract.source origin) = (.ok 9, last) ∧
      Radix.packed.value (last.memory.read 0xC052) = 95 ∧ last.registers.flags.cy = false := by
  let m : Machine :=
    { memory := (Memory.zero.write 0xC050 0x05).write 0xC051 0x10, registers := {} }
  have hx : m.memory.read 0xC050 = 0x05 :=
    (Memory.read_write_of_ne _ _ (by decide)).trans (Memory.read_write_self _ _ _)
  have hy : m.memory.read 0xC051 = 0x10 := Memory.read_write_self _ _ _
  have packedFirst : IsPacked (m.memory.read 0xC050) := by rw [hx]; decide
  have packedSecond : IsPacked (m.memory.read 0xC051) := by rw [hy]; decide
  obtain ⟨-, last, z, hrun, hmemory, -, hvalue, hcarry⟩ :=
    runFrom_bcdSubtract m packedFirst packedSecond
  rw [hx, hy] at hvalue hcarry
  refine ⟨m, last, hx, hy, hrun, ?_, ?_⟩
  · rw [hmemory, Memory.read_write_self]
    have value : (Radix.packed.value z : ℤ) = 95 := hvalue
    exact_mod_cast value
  · rw [← Bool.not_eq_true, hcarry]
    decide

end Sample
end I8085
