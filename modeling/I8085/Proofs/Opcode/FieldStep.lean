import I8085.Proofs.Machine.Execution
import I8085.Proofs.Opcode.BitFields

/-!
# A step follows the fields of its opcode

The chart and the actions on one side, the interpreter of the opcode's bits on
the other.  For every opcode with fields a step succeeds and leaves the memory
and the registers that the interpreter leaves.  The chart is compared with the
fields opcode by opcode; the effects are compared group by group, for fields of
any value and any state.
-/

namespace I8085
namespace BitFields

/-! ## Arithmetic on both sides -/

theorem cpopNatRec_eq_countP (v : Byte) (n acc : Nat) :
    v.cpopNatRec n acc = (List.range n).countP v.getLsbD + acc := by
  induction n generalizing acc with
  | zero => exact (Nat.zero_add acc).symm
  | succ n ih =>
    have bit : (v.getLsbD n).toNat = if v.getLsbD n then 1 else 0 := by
      cases v.getLsbD n <;> rfl
    rw [BitVec.cpopNatRec_succ, ih, List.range_succ, List.countP_append, List.countP_singleton,
      bit]
    omega

theorem parity_eq (v : Byte) : evenParity v = ((List.range 8).countP v.getLsbD % 2 == 0) := by
  rw [evenParity, BitVec.toNat_cpop, cpopNatRec_eq_countP, Nat.add_zero]

theorem withResult_eq (f : Flags) (v : Byte) :
    f.withResult v = resultFlags v f.ac f.cy := by
  rw [Flags.withResult, parity_eq]
  rfl

theorem toNat_setWidth_ofBool (c : Bool) : ((BitVec.ofBool c).setWidth 8).toNat = c.toNat := by
  cases c <;> rfl

theorem sum_value (x y : Byte) (c : Bool) :
    (Alu.add x y c).value = x + y + (BitVec.ofBool c).setWidth 8 := by
  apply BitVec.eq_of_toNat_eq
  rw [BitVec.toNat_add, BitVec.toNat_add, toNat_setWidth_ofBool]
  show (x.toNat + y.toNat + c.toNat) % 256 = _
  omega

theorem difference_value (x y : Byte) (b : Bool) :
    (Alu.subtract x y b).value = x - y - (BitVec.ofBool b).setWidth 8 := by
  have hx : x.toNat < 256 := x.isLt
  have hy : y.toNat < 256 := y.isLt
  have hb : b.toNat < 2 := b.toNat_lt
  apply BitVec.eq_of_toNat_eq
  rw [BitVec.toNat_sub, BitVec.toNat_sub, toNat_setWidth_ofBool]
  show (256 + x.toNat - (y.toNat + b.toNat)) % 256 = _
  omega

/-- Without a carry in, a sum is that of the two bytes. -/
theorem sum_value_of_two (x y : Byte) : (Alu.add x y false).value = x + y :=
  (sum_value x y false).trans (BitVec.add_zero (x + y))

/-- Without a borrow in, a difference is that of the two bytes. -/
theorem difference_value_of_two (x y : Byte) : (Alu.subtract x y false).value = x - y :=
  (difference_value x y false).trans (BitVec.sub_zero (x - y))

theorem sum_carry (x y : Byte) (c : Bool) : (Alu.add x y c).carry = BitVec.carry 8 x y c := by
  have hx : x.toNat < 256 := x.isLt
  have hy : y.toNat < 256 := y.isLt
  rw [BitVec.carry, Nat.mod_eq_of_lt hx, Nat.mod_eq_of_lt hy]
  exact decide_eq_decide.2 (by omega)

theorem sum_aux (x y : Byte) (c : Bool) : (Alu.add x y c).aux = BitVec.carry 4 x y c := by
  rw [BitVec.carry]
  exact decide_eq_decide.2 (by rw [Alu.lowDigit, Alu.lowDigit]; omega)

theorem add_eq_sum (r : Registers) (v : Byte) (c : Bool) : r.add v c = sum r v c := by
  simp only [Registers.add, Registers.commit, withResult_eq, sum, sum_value, sum_carry, sum_aux]

theorem subtract_eq_difference (r : Registers) (v : Byte) (b : Bool) :
    r.subtract v b = difference r v b := by
  simp only [Registers.subtract, Registers.commit, withResult_eq, difference, difference_value]
  rfl

theorem compare_eq_difference (r : Registers) (v : Byte) :
    r.compare v = { r with flags := (difference r v false).flags } := by
  simp only [Registers.compare, Registers.commit, withResult_eq, difference, difference_value]
  rfl

theorem logical_eq_bitwise (r : Registers) (v : Byte) : r.logical v = bitwise r v := by
  rw [Registers.logical, withResult_eq, bitwise]

theorem toByte_eq_flagByte (f : Flags) : f.toByte = flagByte f := by
  obtain ⟨s, z, ac, p, cy⟩ := f
  cases s <;> cases z <;> cases ac <;> cases p <;> cases cy <;> rfl

/-! ## What the fields name -/

def regOf (n : BitVec 3) : Reg :=
  match n.toNat with
  | 0 => .b
  | 1 => .c
  | 2 => .d
  | 3 => .e
  | 4 => .h
  | 5 => .l
  | 6 => .m
  | _ => .a

def arithmeticOf (n : BitVec 3) : Arithmetic :=
  match n.toNat with
  | 0 => .add
  | 1 => .adc
  | 2 => .sub
  | 3 => .sbb
  | 4 => .ana
  | 5 => .xra
  | 6 => .ora
  | _ => .cmp

def conditionOf (n : BitVec 3) : Condition :=
  match n.toNat with
  | 0 => .nz
  | 1 => .z
  | 2 => .nc
  | 3 => .c
  | 4 => .po
  | 5 => .pe
  | 6 => .p
  | _ => .m

def pairOf (n : BitVec 2) : Pair :=
  match n.toNat with
  | 0 => .bc
  | 1 => .de
  | 2 => .hl
  | _ => .sp

/-- The stack has the status word in the place of SP. -/
def stackPairOf (n : BitVec 2) : Pair := if n = 3#2 then .psw else pairOf n

def Group.operation : Group → Operation
  | move ddd sss => .mov (regOf ddd) (regOf sss)
  | operate fff sss => .arithmetic (arithmeticOf fff) (regOf sss)
  | operateNext fff => .immediate (arithmeticOf fff)
  | increment ddd => .inr (regOf ddd)
  | decrement ddd => .dcr (regOf ddd)
  | loadNext ddd => .mvi (regOf ddd)
  | loadPair pp => .lxi (pairOf pp)
  | incrementPair pp => .inx (pairOf pp)
  | decrementPair pp => .dcx (pairOf pp)
  | addPair pp => .dad (pairOf pp)
  | pop pp => .pop (stackPairOf pp)
  | push pp => .push (stackPairOf pp)
  | returnIf ccc => .returnIf (conditionOf ccc)
  | jumpIf ccc => .jumpIf (conditionOf ccc)
  | callIf ccc => .callIf (conditionOf ccc)

/-- The chart has the operation that the fields name, and the fields can be read
back.  Here every row of the chart is gone through. -/
theorem chart_opcode {g : Group} (h : g.opcode ≠ 0x76#8) :
    Opcode.chart g.opcode = some g.operation ∧ Group.ofOpcode? g.opcode = some g := by
  cases g with
  | move n k | operate n k =>
    revert n k
    decide +kernel
  | operateNext n | increment n | decrement n | loadNext n | returnIf n | jumpIf n | callIf n
  | loadPair n | incrementPair n | decrementPair n | addPair n | pop n | push n =>
    revert n
    decide +kernel

/-! ## What the operations do -/

theorem eq_of_three_bits (n : BitVec 3) : n = 0#3 ∨ n = 1#3 ∨ n = 2#3 ∨ n = 3#3 ∨ n = 4#3 ∨
    n = 5#3 ∨ n = 6#3 ∨ n = 7#3 := by
  revert n
  decide

theorem eq_of_two_bits (n : BitVec 2) : n = 0#2 ∨ n = 1#2 ∨ n = 2#2 ∨ n = 3#2 := by
  revert n
  decide

def view (m : Machine) : State := ⟨m.memory, m.registers⟩

theorem reg_regOf (m : Machine) (n : BitVec 3) : m.reg (regOf n) = (view m).reg n := by
  rcases eq_of_three_bits n with rfl | rfl | rfl | rfl | rfl | rfl | rfl | rfl <;> rfl

theorem view_setReg (m : Machine) (n : BitVec 3) (v : Byte) :
    view (m.setReg (regOf n) v) = (view m).setReg n v := by
  rcases eq_of_three_bits n with rfl | rfl | rfl | rfl | rfl | rfl | rfl | rfl <;> rfl

theorem pair_pairOf (m : Machine) (n : BitVec 2) :
    m.registers.pair (pairOf n) = (view m).pair n := by
  rcases eq_of_two_bits n with rfl | rfl | rfl | rfl <;> rfl

theorem view_setPair (m : Machine) (n : BitVec 2) (w : Word) :
    view (m.setPair (pairOf n) w) = (view m).setPair n w := by
  rcases eq_of_two_bits n with rfl | rfl | rfl | rfl <;> rfl

theorem holds_conditionOf (m : Machine) (n : BitVec 3) :
    m.registers.holds (conditionOf n) = (view m).holds n := by
  have bits (b : Bool) : (!b) = (b == false) ∧ b = (b == true) := by cases b <;> decide
  rcases eq_of_three_bits n with rfl | rfl | rfl | rfl | rfl | rfl | rfl | rfl
  · exact (bits m.registers.flags.z).1
  · exact (bits m.registers.flags.z).2
  · exact (bits m.registers.flags.cy).1
  · exact (bits m.registers.flags.cy).2
  · exact (bits m.registers.flags.p).1
  · exact (bits m.registers.flags.p).2
  · exact (bits m.registers.flags.s).1
  · exact (bits m.registers.flags.s).2

theorem view_arithmeticOf (m : Machine) (n : BitVec 3) (v : Byte) :
    view (((arithmeticOf n).action v m.registers.flags.cy).apply m) =
      { view m with registers := operate n (view m).registers v } := by
  rcases eq_of_three_bits n with rfl | rfl | rfl | rfl | rfl | rfl | rfl | rfl
  · exact congrArg (State.mk m.memory) (add_eq_sum m.registers v false)
  · exact congrArg (State.mk m.memory) (add_eq_sum m.registers v m.registers.flags.cy)
  · exact congrArg (State.mk m.memory) (subtract_eq_difference m.registers v false)
  · exact congrArg (State.mk m.memory) (subtract_eq_difference m.registers v _)
  · exact congrArg (State.mk m.memory) (logical_eq_bitwise m.registers _)
  · exact congrArg (State.mk m.memory) (logical_eq_bitwise m.registers _)
  · exact congrArg (State.mk m.memory) (logical_eq_bitwise m.registers _)
  · exact congrArg (State.mk m.memory) (compare_eq_difference m.registers v)

theorem write_comm (m : Memory) {x y : Word} (u v : Byte) (h : x ≠ y) :
    (m.write x u).write y v = (m.write y v).write x u := by
  refine Memory.ext_read (fun z => ?_)
  rw [Memory.read_write, Memory.read_write, Memory.read_write, Memory.read_write]
  by_cases hx : x = z
  · subst hx
    rw [if_neg h.symm, if_pos rfl, if_pos rfl]
  · by_cases hy : y = z <;> simp [hx, hy]

theorem view_push (m : Machine) (w : Word) :
    view (m.push w) = (view m).push (Word.high w) (Word.low w) := by
  have above : m.registers.sp - 2 + 1 = m.registers.sp - 1 := by bv_omega
  have apart : m.registers.sp - 2 ≠ m.registers.sp - 1 := by bv_omega
  show State.mk ((m.memory.write (m.registers.sp - 2) (Word.low w)).write
    (m.registers.sp - 2 + 1) (Word.high w)) _ = _
  rw [above, write_comm m.memory _ _ apart]
  rfl

theorem view_count (m : Machine) (n : BitVec 3) (x : Alu.Result) :
    view (Action.count m (regOf n) x) =
      ((view m).setFlags (resultFlags x.value x.aux (view m).registers.flags.cy)).setReg n
        x.value := by
  rw [Action.count, view_setReg, view, Registers.commitStep, withResult_eq]
  rfl

/-- Adding one carries out of the low digit when that leaves the digit at zero. -/
theorem increment_eq (v : Byte) : (Alu.add v 1 false).value = v + 1 ∧
    (Alu.add v 1 false).aux = ((v + 1).extractLsb' 0 4 == 0#4) := by
  refine ⟨sum_value_of_two v 1, ?_⟩
  rw [Bool.beq_eq_decide_eq]
  refine decide_eq_decide.2 ?_
  rw [← BitVec.toNat_inj, BitVec.extractLsb'_toNat, BitVec.toNat_add]
  show 15 < v.toNat % 16 + 1 + 0 ↔ (v.toNat + 1) % 256 >>> 0 % 16 = 0
  rw [Nat.shiftRight_zero]
  omega

/-- Taking one away borrows from the high digit when the low one was zero. -/
theorem decrement_eq (v : Byte) : (Alu.subtract v 1 false).value = v - 1 ∧
    (Alu.subtract v 1 false).aux = ((v - 1).extractLsb' 0 4 == 15#4) := by
  refine ⟨difference_value_of_two v 1, ?_⟩
  rw [Bool.beq_eq_decide_eq]
  refine decide_eq_decide.2 ?_
  rw [← BitVec.toNat_inj, BitVec.extractLsb'_toNat, BitVec.toNat_sub]
  show v.toNat % 16 < 1 + 0 ↔ (256 - 1 + v.toNat) % 256 >>> 0 % 16 = 15
  rw [Nat.shiftRight_zero]
  omega

theorem carry_addToHL (x y : Word) :
    decide (65535 < x.toNat + y.toNat) = BitVec.carry 16 x y false := by
  have hx : x.toNat < 65536 := x.isLt
  have hy : y.toNat < 65536 := y.isLt
  rw [BitVec.carry, Nat.mod_eq_of_lt hx, Nat.mod_eq_of_lt hy]
  exact decide_eq_decide.2 (by rw [Bool.toNat_false]; omega)

theorem view_addToHL (m : Machine) (w : Word) :
    view { m with registers := m.registers.addToHL w } =
      ((view m).setPair 2 ((view m).hl + w)).setFlags
        { (view m).registers.flags with cy := BitVec.carry 16 (view m).hl w false } := by
  rw [← carry_addToHL]
  rfl

theorem view_pop (m : Machine) (n : BitVec 2) :
    view (m.drop.setPair (stackPairOf n) m.top) =
      if n = 3#2 then
        let flags := m.memory.read m.registers.sp
        { (view m).drop with
          registers.a := m.memory.read (m.registers.sp + 1)
          registers.flags :=
            { s := flags.getLsbD 7, z := flags.getLsbD 6, ac := flags.getLsbD 4,
              p := flags.getLsbD 2, cy := flags.getLsbD 0 } }
      else (view m).drop.setPair n (view m).top := by
  by_cases hn : n = 3#2
  · rw [stackPairOf, if_pos hn, if_pos hn]
    simp only [Machine.setPair, Registers.setPair, Machine.top, Memory.readWord,
      Word.high_ofBytes, Word.low_ofBytes]
    rfl
  · rw [stackPairOf, if_neg hn, if_neg hn, view_setPair]
    rfl

theorem view_pushPair (m : Machine) (n : BitVec 2) :
    view (m.push (m.registers.pair (stackPairOf n))) =
      if n = 3#2 then (view m).push m.registers.a (flagByte m.registers.flags)
      else (view m).push (((view m).pair n).extractLsb' 8 8)
        (((view m).pair n).extractLsb' 0 8) := by
  rw [view_push]
  by_cases hn : n = 3#2
  · rw [stackPairOf, if_pos hn, if_pos hn, Registers.pair, Word.high_ofBytes,
      Word.low_ofBytes, toByte_eq_flagByte]
  · rw [stackPairOf, if_neg hn, if_neg hn, pair_pairOf]
    rfl

theorem view_actionIf (m : Machine) (n : BitVec 3) (action : Action) :
    view ((m.actionIf (conditionOf n) action).apply m) =
      if (view m).holds n then view (action.apply m) else view m := by
  rw [Machine.actionIf, holds_conditionOf]
  split <;> rfl

/-! ## The step -/

section step

variable {m : Machine} {f : Fetched} (hf : m.fetch = .ok f)

include hf

theorem view_advance : view (m.advance f) = (view m).skip (BitVec.ofNat 16 f.length) := by
  have ha : f.address = m.registers.pc := (Memory.fetch_eq_ok_iff.1 hf).2.2
  rw [view, Machine.advance, Fetched.next, ha]
  rfl

theorem immediate_eq_nextByte (hl : f.length = 2) : f.immediate = (view m).nextByte := by
  have hd := (Memory.fetch_eq_ok_iff.1 hf).2.1
  rw [hl] at hd
  rw [Instruction.immediate, hd]
  exact Word.low_ofByte _

theorem data_eq_nextWord (hl : f.length = 3) : f.data = (view m).nextWord := by
  have hd := (Memory.fetch_eq_ok_iff.1 hf).2.1
  rw [hl] at hd
  rw [hd, State.nextWord, show (view m).registers.pc + 2 = m.registers.pc + 1 + 1 from
    (BitVec.add_assoc m.registers.pc 1 1).symm]
  rfl

/-- Executing an instruction whose operation the fields name is executing the
fields. -/
theorem view_execute {g : Group} (ho : f.operation = g.operation) :
    view (m.execute f) = g.run (view m) := by
  have hlen : f.length = g.operation.length := congrArg Operation.length ho
  have hview := view_advance hf
  show view (((m.advance f).action f.toInstruction).apply (m.advance f)) = g.run (view m)
  unfold Machine.action
  rw [ho]
  rw [hlen] at hview
  cases g with
  | move ddd sss =>
    show view ((m.advance f).setReg (regOf ddd) ((m.advance f).reg (regOf sss))) = _
    rw [view_setReg, reg_regOf, hview]
    rfl
  | operate fff sss =>
    show view (((arithmeticOf fff).action ((m.advance f).reg (regOf sss))
      (m.advance f).registers.flags.cy).apply (m.advance f)) = _
    rw [view_arithmeticOf, reg_regOf, hview]
    rfl
  | operateNext fff =>
    show view (((arithmeticOf fff).action f.immediate
      (m.advance f).registers.flags.cy).apply (m.advance f)) = _
    rw [view_arithmeticOf, hview, immediate_eq_nextByte hf hlen]
    rfl
  | increment ddd =>
    show view (Action.count (m.advance f) (regOf ddd)
      (Alu.add ((m.advance f).reg (regOf ddd)) 1 false)) = _
    rw [view_count, reg_regOf, hview, (increment_eq _).1, (increment_eq _).2]
    rfl
  | decrement ddd =>
    show view (Action.count (m.advance f) (regOf ddd)
      (Alu.subtract ((m.advance f).reg (regOf ddd)) 1 false)) = _
    rw [view_count, reg_regOf, hview, (decrement_eq _).1, (decrement_eq _).2]
    rfl
  | loadNext ddd =>
    show view ((m.advance f).setReg (regOf ddd) f.immediate) = _
    rw [view_setReg, hview, immediate_eq_nextByte hf hlen]
    rfl
  | loadPair pp =>
    show view ((m.advance f).setPair (pairOf pp) f.data) = _
    rw [view_setPair, hview, data_eq_nextWord hf hlen]
    rfl
  | incrementPair pp =>
    show view ((m.advance f).setPair (pairOf pp)
      ((m.advance f).registers.pair (pairOf pp) + 1)) = _
    rw [view_setPair, pair_pairOf, hview]
    rfl
  | decrementPair pp =>
    show view ((m.advance f).setPair (pairOf pp)
      ((m.advance f).registers.pair (pairOf pp) - 1)) = _
    rw [view_setPair, pair_pairOf, hview]
    rfl
  | addPair pp =>
    show view { m.advance f with
      registers := (m.advance f).registers.addToHL
        ((m.advance f).registers.pair (pairOf pp)) } = _
    rw [view_addToHL, pair_pairOf, hview]
    rfl
  | pop pp =>
    show view ((m.advance f).drop.setPair (stackPairOf pp) (m.advance f).top) = _
    rw [view_pop, hview]
    rfl
  | push pp =>
    show view ((m.advance f).push ((m.advance f).registers.pair (stackPairOf pp))) = _
    rw [view_pushPair, hview]
    rfl
  | returnIf ccc =>
    show view (((m.advance f).actionIf (conditionOf ccc) .ret).apply (m.advance f)) = _
    rw [view_actionIf, hview]
    rfl
  | jumpIf ccc =>
    show view (((m.advance f).actionIf (conditionOf ccc) (.jmp f.data)).apply
      (m.advance f)) = _
    rw [view_actionIf, hview, data_eq_nextWord hf hlen]
    rfl
  | callIf ccc =>
    show view (((m.advance f).actionIf (conditionOf ccc) (.call f.data)).apply
      (m.advance f)) = _
    have hpc : (m.advance f).registers.pc = m.registers.pc + 3 :=
      congrArg (fun s => s.registers.pc) hview
    have hcall : view ((Action.call f.data).apply (m.advance f)) =
        (view ((m.advance f).push (m.registers.pc + 3))).jump f.data := by
      rw [← hpc]
      rfl
    rw [view_actionIf, hcall, view_push, hview, data_eq_nextWord hf hlen]
    rfl

end step

/-- The step at an opcode with fields succeeds, and it leaves the memory and the
registers that the interpreter of the fields leaves. -/
theorem step_eq_interpret (m : Machine)
    (h : FieldEncoded (m.memory.read m.registers.pc)) :
    ∃ f next, m.step = .ok (f, next) ∧
      interpret ⟨m.memory, m.registers⟩ = some ⟨next.memory, next.registers⟩ := by
  obtain ⟨hhalt, g, hg⟩ := h
  have hmove : g.opcode ≠ 0x76#8 := fun e => hhalt (hg.symm.trans e)
  obtain ⟨hchart, hread⟩ := chart_opcode hmove
  let e : Entry := ⟨g.opcode, g.operation, hchart⟩
  let f : Fetched :=
    { entry := e
      data := m.memory.literal (m.registers.pc + 1) (e.length - 1)
      address := m.registers.pc }
  have hf : m.fetch = .ok f := Memory.fetch_eq_ok_iff.2 ⟨hg, rfl, rfl⟩
  have hview : view (m.execute f) = g.run (view m) := view_execute hf rfl
  refine ⟨f, m.execute f, Machine.step_eq_ok_iff.2 ⟨hf, rfl⟩, ?_⟩
  show (Group.ofOpcode? (m.memory.read m.registers.pc)).map (fun g => g.run (view m)) = _
  rw [← hg, hread, Option.map_some, ← hview]
  rfl

/-- A conditional call at `FFFE`, whose target ends at `0000`. -/
theorem step_eq_interpret_at_the_end :
    ∃ m : Machine, m.registers.pc = 0xFFFE ∧ m.memory.read 0xFFFE = 0xC4#8 ∧
      FieldEncoded 0xC4#8 ∧ ∃ f next, m.step = .ok (f, next) ∧
        interpret ⟨m.memory, m.registers⟩ = some ⟨next.memory, next.registers⟩ := by
  let m : Machine :=
    { memory := Memory.zero.write 0xFFFE 0xC4#8, registers := { pc := 0xFFFE } }
  have call : m.memory.read 0xFFFE = 0xC4#8 := Memory.read_write_self _ _ _
  have fields : FieldEncoded 0xC4#8 := ⟨by decide, .callIf 0, rfl⟩
  have encoded : FieldEncoded (m.memory.read m.registers.pc) := by
    rw [show m.registers.pc = 0xFFFE from rfl, call]
    exact fields
  exact ⟨m, rfl, call, fields, step_eq_interpret m encoded⟩

end BitFields
end I8085
