import I8085.Alu
import I8085.Flags
import I8085.Operand
import I8085.Text.Hex

/-!
# The register file

Seven byte registers, the program counter, the stack pointer and the flags, with
the operations that need nothing else: views of two registers as a word, and the
arithmetic of the accumulator.

The arithmetic differs in which flags it commits.  Addition and subtraction set
all five, increment and decrement leave the carry, the logical operations clear
both carries, and the rotations and `DAD` set nothing but the carry.
-/

namespace I8085

/-- The registers as the program sees them; `pc` is the address of the next
opcode to fetch. -/
structure Registers where
  a : Byte := 0
  b : Byte := 0
  c : Byte := 0
  d : Byte := 0
  e : Byte := 0
  h : Byte := 0
  l : Byte := 0
  pc : Word := 0
  sp : Word := 0
  flags : Flags := {}
deriving DecidableEq, Inhabited

namespace Registers

/-! ## Pairs -/

def bc (r : Registers) : Word := Word.ofBytes r.b r.c

def de (r : Registers) : Word := Word.ofBytes r.d r.e

def hl (r : Registers) : Word := Word.ofBytes r.h r.l

/-- The word a pair holds.  The status word has A above the packed flags. -/
def pair (r : Registers) : Pair → Word
  | .bc => r.bc
  | .de => r.de
  | .hl => r.hl
  | .sp => r.sp
  | .psw => Word.ofBytes r.a r.flags.toByte

/-- The registers with a pair replaced.  A status word keeps of its low byte only
the five flags. -/
def setPair (r : Registers) (p : Pair) (w : Word) : Registers :=
  match p with
  | .bc => { r with b := Word.high w, c := Word.low w }
  | .de => { r with d := Word.high w, e := Word.low w }
  | .hl => { r with h := Word.high w, l := Word.low w }
  | .sp => { r with sp := w }
  | .psw => { r with a := Word.high w, flags := Flags.ofByte (Word.low w) }

theorem pair_setPair_self (r : Registers) {p : Pair} (w : Word) (h : p ≠ .psw) :
    (r.setPair p w).pair p = w := by
  cases p <;> first | exact Word.ofBytes_high_low w | rfl | exact absurd rfl h

def exchange (r : Registers) : Registers :=
  { r with d := r.h, e := r.l, h := r.d, l := r.e }

/-! ## Sums and differences -/

/-- All five flags after an addition or subtraction. -/
def commit (r : Registers) (x : Alu.Result) : Registers :=
  { r with flags := { r.flags with cy := x.carry, ac := x.aux }.withResult x.value }

/-- Every flag but the carry, after an increment or decrement. -/
def commitStep (r : Registers) (x : Alu.Result) : Registers :=
  { r with flags := { r.flags with ac := x.aux }.withResult x.value }

def add (r : Registers) (value : Byte) (carryIn : Bool) : Registers :=
  { r.commit (Alu.add r.a value carryIn) with a := (Alu.add r.a value carryIn).value }

def subtract (r : Registers) (value : Byte) (borrowIn : Bool) : Registers :=
  { r.commit (Alu.subtract r.a value borrowIn) with a := (Alu.subtract r.a value borrowIn).value }

def compare (r : Registers) (value : Byte) : Registers :=
  r.commit (Alu.subtract r.a value false)

def decimalAdjust (r : Registers) : Registers :=
  { r.commit (Alu.decimalAdjust r.a r.flags.cy r.flags.ac) with
    a := (Alu.decimalAdjust r.a r.flags.cy r.flags.ac).value }

/-- A word is added to HL; the carry is the one out of bit 15. -/
def addToHL (r : Registers) (w : Word) : Registers :=
  { r.setPair .hl (r.hl + w) with
    flags := { r.flags with cy := decide (65535 < r.hl.toNat + w.toNat) } }

/-! ## Bits of the accumulator -/

/-- The accumulator after a logical operation, which clears both carries. -/
def logical (r : Registers) (result : Byte) : Registers :=
  { r with a := result, flags := { r.flags with cy := false, ac := false }.withResult result }

def and (r : Registers) (value : Byte) : Registers := r.logical (r.a &&& value)

def xor (r : Registers) (value : Byte) : Registers := r.logical (r.a ^^^ value)

def or (r : Registers) (value : Byte) : Registers := r.logical (r.a ||| value)

def rotated (r : Registers) (result : Byte) (carry : Bool) : Registers :=
  { r with a := result, flags := { r.flags with cy := carry } }

/-- Bit 7 goes to bit 0 and to the carry. -/
def rotateLeft (r : Registers) : Registers :=
  r.rotated (r.a <<< 1 ||| BitVec.ofNat 8 r.a.msb.toNat) r.a.msb

/-- Bit 0 goes to bit 7 and to the carry. -/
def rotateRight (r : Registers) : Registers :=
  r.rotated (r.a >>> 1 ||| BitVec.ofNat 8 (128 * (r.a.getLsbD 0).toNat)) (r.a.getLsbD 0)

/-- Bit 7 goes to the carry and the carry to bit 0. -/
def rotateLeftThroughCarry (r : Registers) : Registers :=
  r.rotated (r.a <<< 1 ||| BitVec.ofNat 8 r.flags.cy.toNat) r.a.msb

/-- Bit 0 goes to the carry and the carry to bit 7. -/
def rotateRightThroughCarry (r : Registers) : Registers :=
  r.rotated (r.a >>> 1 ||| BitVec.ofNat 8 (128 * r.flags.cy.toNat)) (r.a.getLsbD 0)

/-- Every bit of the accumulator is inverted; no flag is touched. -/
def complement (r : Registers) : Registers := { r with a := ~~~r.a }

def complementCarry (r : Registers) : Registers :=
  { r with flags := { r.flags with cy := !r.flags.cy } }

def setCarry (r : Registers) : Registers := { r with flags := { r.flags with cy := true } }

/-! ## Conditions and display -/

def holds (r : Registers) : Condition → Bool
  | .nz => !r.flags.z
  | .z => r.flags.z
  | .nc => !r.flags.cy
  | .c => r.flags.cy
  | .po => !r.flags.p
  | .pe => r.flags.p
  | .p => !r.flags.s
  | .m => r.flags.s

def text (r : Registers) : String :=
  "A=" ++ Hex.byte r.a ++ " B=" ++ Hex.byte r.b ++ " C=" ++ Hex.byte r.c ++
    " D=" ++ Hex.byte r.d ++ " E=" ++ Hex.byte r.e ++ " H=" ++ Hex.byte r.h ++
    " L=" ++ Hex.byte r.l ++ " PC=" ++ Hex.word r.pc ++ " SP=" ++ Hex.word r.sp ++
    " " ++ r.flags.text

end Registers
end I8085
