import I8085.Memory
import I8085.Registers

/-!
# Opcodes read by their bits

Most opcodes are put together from fields of two or three bits, which name a
register, a pair, an operation or a condition.  The interpreter here executes
such an opcode from its fields alone: it knows no chart and no operations, and
its arithmetic is that of bit vectors and the carries between their bits.
-/

namespace I8085
namespace BitFields

/-! ## The opcodes with fields -/

/-- The opcodes that are put together from fields, each with its fields. -/
inductive Group
  | move (ddd sss : BitVec 3)
  | operate (fff sss : BitVec 3)
  | operateNext (fff : BitVec 3)
  | increment (ddd : BitVec 3)
  | decrement (ddd : BitVec 3)
  | loadNext (ddd : BitVec 3)
  | loadPair (pp : BitVec 2)
  | incrementPair (pp : BitVec 2)
  | decrementPair (pp : BitVec 2)
  | addPair (pp : BitVec 2)
  | pop (pp : BitVec 2)
  | push (pp : BitVec 2)
  | returnIf (ccc : BitVec 3)
  | jumpIf (ccc : BitVec 3)
  | callIf (ccc : BitVec 3)
deriving DecidableEq

namespace Group

/-- The fields in their places. -/
def opcode : Group → Byte
  | move ddd sss => 0b01#2 ++ ddd ++ sss
  | operate fff sss => 0b10#2 ++ fff ++ sss
  | operateNext fff => 0b11#2 ++ fff ++ 0b110#3
  | increment ddd => 0b00#2 ++ ddd ++ 0b100#3
  | decrement ddd => 0b00#2 ++ ddd ++ 0b101#3
  | loadNext ddd => 0b00#2 ++ ddd ++ 0b110#3
  | loadPair pp => 0b00#2 ++ pp ++ 0b0001#4
  | incrementPair pp => 0b00#2 ++ pp ++ 0b0011#4
  | decrementPair pp => 0b00#2 ++ pp ++ 0b1011#4
  | addPair pp => 0b00#2 ++ pp ++ 0b1001#4
  | pop pp => 0b11#2 ++ pp ++ 0b0001#4
  | push pp => 0b11#2 ++ pp ++ 0b0101#4
  | returnIf ccc => 0b11#2 ++ ccc ++ 0b000#3
  | jumpIf ccc => 0b11#2 ++ ccc ++ 0b010#3
  | callIf ccc => 0b11#2 ++ ccc ++ 0b100#3

/-- The fields of an opcode.  Bits 7 and 6 and bits 2 to 0 tell which group it
is in, and bit 3 where a pair leaves that bit over; the move from memory to itself
is not a move. -/
def ofOpcode? (op : Byte) : Option Group :=
  let high := op.extractLsb' 3 3
  let low := op.extractLsb' 0 3
  let pp := op.extractLsb' 4 2
  match (op.extractLsb' 6 2).toNat, low.toNat, op.getLsbD 3 with
  | 0, 1, false => some (loadPair pp)
  | 0, 1, true => some (addPair pp)
  | 0, 3, false => some (incrementPair pp)
  | 0, 3, true => some (decrementPair pp)
  | 0, 4, _ => some (increment high)
  | 0, 5, _ => some (decrement high)
  | 0, 6, _ => some (loadNext high)
  | 1, _, _ => if op = 0x76#8 then none else some (move high low)
  | 2, _, _ => some (operate high low)
  | 3, 0, _ => some (returnIf high)
  | 3, 1, false => some (pop pp)
  | 3, 2, _ => some (jumpIf high)
  | 3, 4, _ => some (callIf high)
  | 3, 5, false => some (push pp)
  | 3, 6, _ => some (operateNext high)
  | _, _, _ => none

end Group

/-- An opcode of one of the groups. -/
def FieldEncoded (op : Byte) : Prop := op ≠ 0x76#8 ∧ ∃ g : Group, g.opcode = op

/-! ## Arithmetic -/

/-- Sign, zero and parity of a result with the two carries given. -/
def resultFlags (value : Byte) (ac cy : Bool) : Flags where
  s := value.getLsbD 7
  z := value == 0#8
  ac := ac
  p := (List.range 8).countP value.getLsbD % 2 == 0
  cy := cy

def sum (r : Registers) (v : Byte) (c : Bool) : Registers :=
  let value := r.a + v + (BitVec.ofBool c).setWidth 8
  { r with
    a := value
    flags := resultFlags value (BitVec.carry 4 r.a v c) (BitVec.carry 8 r.a v c) }

def difference (r : Registers) (v : Byte) (b : Bool) : Registers :=
  let value := r.a - v - (BitVec.ofBool b).setWidth 8
  { r with
    a := value
    flags := resultFlags value (decide (r.a.toNat % 16 < v.toNat % 16 + b.toNat))
      (decide (r.a.toNat < v.toNat + b.toNat)) }

def bitwise (r : Registers) (value : Byte) : Registers :=
  { r with a := value, flags := resultFlags value false false }

/-- Operation `fff` on A and a byte: ADD, ADC, SUB, SBB, ANA, XRA, ORA, CMP. -/
def operate (fff : BitVec 3) (r : Registers) (v : Byte) : Registers :=
  match fff.toNat with
  | 0 => sum r v false
  | 1 => sum r v r.flags.cy
  | 2 => difference r v false
  | 3 => difference r v r.flags.cy
  | 4 => bitwise r (r.a &&& v)
  | 5 => bitwise r (r.a ^^^ v)
  | 6 => bitwise r (r.a ||| v)
  | _ => { r with flags := (difference r v false).flags }

/-- The flags as they are pushed: `S Z 0 AC 0 P 1 CY`. -/
def flagByte (f : Flags) : Byte :=
  BitVec.ofBool f.s ++ BitVec.ofBool f.z ++ 0#1 ++ BitVec.ofBool f.ac ++ 0#1 ++
    BitVec.ofBool f.p ++ 1#1 ++ BitVec.ofBool f.cy

/-! ## The interpreter -/

structure State where
  memory : Memory
  registers : Registers

namespace State

def hl (s : State) : Word := s.registers.h ++ s.registers.l

/-- Register number `n`: B, C, D, E, H, L, the cell at HL, A. -/
def reg (s : State) (n : BitVec 3) : Byte :=
  match n.toNat with
  | 0 => s.registers.b
  | 1 => s.registers.c
  | 2 => s.registers.d
  | 3 => s.registers.e
  | 4 => s.registers.h
  | 5 => s.registers.l
  | 6 => s.memory.read s.hl
  | _ => s.registers.a

def setReg (s : State) (n : BitVec 3) (v : Byte) : State :=
  match n.toNat with
  | 0 => { s with registers.b := v }
  | 1 => { s with registers.c := v }
  | 2 => { s with registers.d := v }
  | 3 => { s with registers.e := v }
  | 4 => { s with registers.h := v }
  | 5 => { s with registers.l := v }
  | 6 => { s with memory := s.memory.write s.hl v }
  | _ => { s with registers.a := v }

/-- Pair number `n`: BC, DE, HL, SP. -/
def pair (s : State) (n : BitVec 2) : Word :=
  match n.toNat with
  | 0 => s.registers.b ++ s.registers.c
  | 1 => s.registers.d ++ s.registers.e
  | 2 => s.registers.h ++ s.registers.l
  | _ => s.registers.sp

def setPair (s : State) (n : BitVec 2) (w : Word) : State :=
  match n.toNat with
  | 0 => { s with registers.b := w.extractLsb' 8 8, registers.c := w.extractLsb' 0 8 }
  | 1 => { s with registers.d := w.extractLsb' 8 8, registers.e := w.extractLsb' 0 8 }
  | 2 => { s with registers.h := w.extractLsb' 8 8, registers.l := w.extractLsb' 0 8 }
  | _ => { s with registers.sp := w }

def nextByte (s : State) : Byte := s.memory.read (s.registers.pc + 1)

def nextWord (s : State) : Word :=
  s.memory.read (s.registers.pc + 2) ++ s.memory.read (s.registers.pc + 1)

def skip (s : State) (count : Word) : State := { s with registers.pc := s.registers.pc + count }

def jump (s : State) (address : Word) : State := { s with registers.pc := address }

def setFlags (s : State) (flags : Flags) : State := { s with registers.flags := flags }

/-- The high byte goes below SP and the low byte below that. -/
def push (s : State) (high low : Byte) : State :=
  { s with
    memory := (s.memory.write (s.registers.sp - 1) high).write (s.registers.sp - 2) low
    registers.sp := s.registers.sp - 2 }

def top (s : State) : Word :=
  s.memory.read (s.registers.sp + 1) ++ s.memory.read s.registers.sp

def drop (s : State) : State := { s with registers.sp := s.registers.sp + 2 }

/-- Condition `ccc`: flag number `ccc / 2` of Z, CY, P, S equals bit 0. -/
def holds (s : State) (ccc : BitVec 3) : Bool :=
  match ccc.toNat / 2 with
  | 0 => s.registers.flags.z == ccc.getLsbD 0
  | 1 => s.registers.flags.cy == ccc.getLsbD 0
  | 2 => s.registers.flags.p == ccc.getLsbD 0
  | _ => s.registers.flags.s == ccc.getLsbD 0

end State

def Group.run (g : Group) (s : State) : State :=
  match g with
  | move ddd sss => (s.skip 1).setReg ddd (s.reg sss)
  | operate fff sss =>
    { s.skip 1 with registers := BitFields.operate fff (s.skip 1).registers (s.reg sss) }
  | operateNext fff =>
    { s.skip 2 with registers := BitFields.operate fff (s.skip 2).registers s.nextByte }
  | increment ddd =>
    let value := s.reg ddd + 1
    let ac := value.extractLsb' 0 4 == 0#4
    ((s.skip 1).setFlags (resultFlags value ac s.registers.flags.cy)).setReg ddd value
  | decrement ddd =>
    let value := s.reg ddd - 1
    let ac := value.extractLsb' 0 4 == 15#4
    ((s.skip 1).setFlags (resultFlags value ac s.registers.flags.cy)).setReg ddd value
  | loadNext ddd => (s.skip 2).setReg ddd s.nextByte
  | loadPair pp => (s.skip 3).setPair pp s.nextWord
  | incrementPair pp => (s.skip 1).setPair pp (s.pair pp + 1)
  | decrementPair pp => (s.skip 1).setPair pp (s.pair pp - 1)
  | addPair pp =>
    let cy := BitVec.carry 16 s.hl (s.pair pp) false
    ((s.skip 1).setPair 2 (s.hl + s.pair pp)).setFlags { s.registers.flags with cy }
  | pop pp =>
    if pp = 3#2 then
      let flags := s.memory.read s.registers.sp
      { (s.skip 1).drop with
        registers.a := s.memory.read (s.registers.sp + 1)
        registers.flags :=
          { s := flags.getLsbD 7, z := flags.getLsbD 6, ac := flags.getLsbD 4,
            p := flags.getLsbD 2, cy := flags.getLsbD 0 } }
    else (s.skip 1).drop.setPair pp s.top
  | push pp =>
    if pp = 3#2 then (s.skip 1).push s.registers.a (flagByte s.registers.flags)
    else (s.skip 1).push ((s.pair pp).extractLsb' 8 8) ((s.pair pp).extractLsb' 0 8)
  | returnIf ccc => if s.holds ccc then s.drop.jump s.top else s.skip 1
  | jumpIf ccc => if s.holds ccc then s.jump s.nextWord else s.skip 3
  | callIf ccc =>
    let back := s.registers.pc + 3
    if s.holds ccc then
      (s.push (back.extractLsb' 8 8) (back.extractLsb' 0 8)).jump s.nextWord
    else s.skip 3

/-- The state after the opcode at the program counter, if that opcode has
fields. -/
def interpret (s : State) : Option State :=
  (Group.ofOpcode? (s.memory.read s.registers.pc)).map fun g => g.run s

end BitFields
end I8085
