import I8085.Proofs.Machine.Execution

/-!
# What becomes of the flags

An operation belongs to one of a few kinds.  Some set the carry alone; some leave a
result, in A or in the operand they count up or down, and sign, zero and parity are then
those of the result; a comparison is a subtraction that does not keep its result; `POP
PSW` loads all five flags.  Every other operation leaves the flags as they were.
-/

namespace I8085

/-- Sign, zero and parity are those of a byte. -/
def Flags.Reflects (f : Flags) (result : Byte) : Prop :=
  (f.z = true ↔ result = 0) ∧ f.s = result.getLsbD 7 ∧ f.p = evenParity result

theorem Flags.reflects_withResult (f : Flags) (result : Byte) :
    (f.withResult result).Reflects result :=
  ⟨beq_iff_eq, BitVec.msb_eq_getLsbD_last result, rfl⟩

namespace Operation

/-- The operations that set the carry and no other flag. -/
def setsCarryOnly : Operation → Bool
  | dad _ | rlc | rrc | ral | rar | stc | cmc => true
  | _ => false

/-- The logical operations, in either form. -/
def isLogical : Operation → Bool
  | arithmetic .ana _ | arithmetic .xra _ | arithmetic .ora _ => true
  | immediate .ana | immediate .xra | immediate .ora => true
  | _ => false

/-- Where an operation leaves the result that its flags tell of. -/
def result? : Operation → Option Reg
  | arithmetic .cmp _ | immediate .cmp => none
  | arithmetic _ _ | immediate _ | daa => some .a
  | inr target | dcr target => some target
  | _ => none

/-- The subtraction that a comparison is. -/
def subtraction? : Operation → Option Operation
  | arithmetic .cmp source => some (arithmetic .sub source)
  | immediate .cmp => some (immediate .sub)
  | _ => none

theorem comparison_cases {o p : Operation} (h : o.subtraction? = some p) :
    (∃ source, o = arithmetic .cmp source ∧ p = arithmetic .sub source) ∨
      (o = immediate .cmp ∧ p = immediate .sub) := by
  cases o with
  | arithmetic op source =>
    cases op with
    | cmp => cases h; exact .inl ⟨source, rfl, rfl⟩
    | _ => cases h
  | immediate op =>
    cases op with
    | cmp => cases h; exact .inr ⟨rfl, rfl⟩
    | _ => cases h
  | _ => cases h

theorem length_of_subtraction {o p : Operation} (h : o.subtraction? = some p) :
    p.length = o.length := by
  obtain ⟨source, rfl, rfl⟩ | ⟨rfl, rfl⟩ := comparison_cases h <;> rfl

theorem mem_places_of_subtraction {o p : Operation} (h : o.subtraction? = some p) :
    some p ∈ Opcode.places := by
  obtain ⟨source, -, rfl⟩ | ⟨-, rfl⟩ := comparison_cases h
  · cases source <;> decide +kernel
  · decide +kernel

end Operation

namespace Machine

variable {m next : Machine} {f : Fetched}

theorem reg_setReg (m : Machine) (r : Reg) (v : Byte) : (m.setReg r v).reg r = v := by
  cases r with
  | m => exact Memory.read_write_self m.memory m.registers.hl v
  | _ => rfl

theorem setReg_flags (m : Machine) (r : Reg) (v : Byte) :
    (m.setReg r v).registers.flags = m.registers.flags := by
  cases r <;> rfl

theorem count_flags (m : Machine) (r : Reg) (x : Alu.Result) :
    (Action.count m r x).registers.flags =
      { m.registers.flags with ac := x.aux }.withResult x.value :=
  setReg_flags _ r x.value

theorem count_cy (m : Machine) (r : Reg) (x : Alu.Result) :
    (Action.count m r x).registers.flags.cy = m.registers.flags.cy := by
  rw [count_flags]
  rfl

theorem count_reflects (m : Machine) (r : Reg) (x : Alu.Result) :
    (Action.count m r x).registers.flags.Reflects ((Action.count m r x).reg r) := by
  rw [count_flags, Action.count, reg_setReg]
  exact Flags.reflects_withResult _ x.value

/-! ## One kind after the other -/

theorem execute_reg (m : Machine) (f : Fetched) (r : Reg) : (m.execute f).reg r =
    (((m.advance f).action f.toInstruction).apply (m.advance f)).reg r := by
  cases r <;> rfl

theorem execute_cy_of_count {r : Reg} (h : f.operation = .inr r ∨ f.operation = .dcr r) :
    (m.execute f).registers.flags.cy = m.registers.flags.cy := by
  rw [execute_registers]
  unfold action
  cases ho : f.operation with
  | inr r | dcr r => exact count_cy (m.advance f) r _
  | _ => rw [ho] at h; rcases h with h | h <;> cases h

theorem execute_flags_of_carryOnly (h : f.operation.setsCarryOnly = true) :
    (m.execute f).registers.flags =
      { m.registers.flags with cy := (m.execute f).registers.flags.cy } := by
  rw [execute_registers]
  unfold action
  cases ho : f.operation with
  | dad pair | rlc | rrc | ral | rar | stc | cmc => rfl
  | _ => rw [ho] at h; cases h

theorem execute_carries_of_logical (h : f.operation.isLogical = true) :
    (m.execute f).registers.flags.cy = false ∧ (m.execute f).registers.flags.ac = false := by
  rw [execute_registers]
  unfold action
  cases ho : f.operation with
  | arithmetic op _ | immediate op =>
    rw [ho] at h
    cases op with
    | ana | xra | ora => exact ⟨rfl, rfl⟩
    | _ => cases h
  | _ => rw [ho] at h; cases h

/-- An accumulator operation leaves the flags of its result, and the result in A
unless it compares. -/
theorem reflects_apply_arithmetic (m : Machine) {op : Arithmetic} (h : op ≠ .cmp) (value : Byte)
    (carry : Bool) : ((op.action value carry).apply m).registers.flags.Reflects
      (((op.action value carry).apply m).reg .a) := by
  cases op with
  | cmp => exact absurd rfl h
  | _ => exact Flags.reflects_withResult _ _

theorem execute_reflects {target : Reg} (h : f.operation.result? = some target) :
    (m.execute f).registers.flags.Reflects ((m.execute f).reg target) := by
  rw [execute_registers, execute_reg]
  unfold action
  cases ho : f.operation with
  | arithmetic op _ | immediate op =>
    rw [ho] at h
    cases op with
    | cmp => cases h
    | _ => cases h; exact reflects_apply_arithmetic _ (by decide) _ _
  | daa => rw [ho] at h; cases h; exact Flags.reflects_withResult _ _
  | inr r | dcr r => rw [ho] at h; cases h; exact count_reflects _ _ _
  | _ => rw [ho] at h; cases h

/-- To compare is to subtract and to give A its old value back. -/
theorem apply_action_of_comparison {i j : Instruction}
    (h : i.operation.subtraction? = some j.operation) (hdata : j.data = i.data) :
    (m.action i).apply m = ((m.action j).apply m).setReg .a m.registers.a := by
  have himm : j.immediate = i.immediate := congrArg Word.low hdata
  unfold action
  obtain ⟨source, hi, hj⟩ | ⟨hi, hj⟩ := Operation.comparison_cases h
  · rw [hi, hj]
    rfl
  · rw [hi, hj, himm]
    rfl

theorem execute_of_comparison {o : Operation} (h : f.operation.subtraction? = some o) :
    ∃ g : Fetched, g.operation = o ∧ g.data = f.data ∧ g.address = f.address ∧
      m.execute f = (m.execute g).setReg .a m.registers.a := by
  obtain ⟨e, rfl⟩ := Entry.exists_of_mem (Operation.mem_places_of_subtraction h)
  let g : Fetched := { entry := e, data := f.data, address := f.address }
  have hlength : g.length = f.length := Operation.length_of_subtraction h
  have hadvance : m.advance g = m.advance f := by
    rw [advance, advance, Fetched.next, Fetched.next, hlength]
  refine ⟨g, rfl, rfl, rfl, ?_⟩
  rw [execute, execute, hadvance, apply_action_of_comparison (j := g.toInstruction) h rfl]
  rfl

theorem execute_flags_of_popStatus (h : f.operation = .pop .psw) :
    (m.execute f).registers.flags = Flags.ofByte (m.memory.read m.registers.sp) := by
  rw [execute_registers]
  unfold action
  rw [h]
  exact congrArg Flags.ofByte (Word.low_ofBytes _ _)

theorem execute_flags_of_other (carry : f.operation.setsCarryOnly = false)
    (result : f.operation.result? = none) (comparison : f.operation.subtraction? = none)
    (h : f.operation ≠ .pop .psw) : (m.execute f).registers.flags = m.registers.flags := by
  rw [execute_registers]
  unfold action
  cases ho : f.operation with
  | mov target _ | mvi target => exact setReg_flags _ target _
  | lxi pair | inx pair | dcx pair =>
    -- No opcode stands for a load or count of the status word.
    cases pair with
    | psw => exact absurd ho (f.entry.operation_ne_of_not_mem (by decide +kernel))
    | _ => rfl
  | pop pair =>
    cases pair with
    | psw => exact absurd ho h
    | _ => rfl
  | arithmetic op _ | immediate op =>
    rw [ho] at result comparison
    cases op with
    | cmp => cases comparison
    | _ => cases result
  | inr _ | dcr _ | daa => rw [ho] at result; cases result
  | dad _ | rlc | rrc | ral | rar | stc | cmc => rw [ho] at carry; cases carry
  | jumpIf condition | callIf condition | returnIf condition =>
    exact actionIf_of (P := fun a => (a.apply (m.advance f)).registers.flags = m.registers.flags)
      _ condition rfl rfl
  | _ => rfl

/-! ## All of them together -/

/-- What a step that carries out `f` makes of the flags. -/
structure FlagRules (m : Machine) (f : Fetched) (next : Machine) : Prop where
  count : ∀ r, f.operation = .inr r ∨ f.operation = .dcr r →
    next.registers.flags.cy = m.registers.flags.cy
  carryOnly : f.operation.setsCarryOnly = true →
    next.registers.flags = { m.registers.flags with cy := next.registers.flags.cy }
  logical : f.operation.isLogical = true →
    next.registers.flags.cy = false ∧ next.registers.flags.ac = false
  result : ∀ target, f.operation.result? = some target →
    next.registers.flags.Reflects (next.reg target)
  /-- The subtraction with the same operand, at the same address, leaves the same
  machine but for A. -/
  comparison : ∀ o, f.operation.subtraction? = some o →
    ∃ g : Fetched, g.operation = o ∧ g.data = f.data ∧ g.address = f.address ∧
      next = (m.execute g).setReg .a m.registers.a
  popStatus : f.operation = .pop .psw → next.registers.flags =
    { s := (m.memory.read m.registers.sp).getLsbD 7
      z := (m.memory.read m.registers.sp).getLsbD 6
      ac := (m.memory.read m.registers.sp).getLsbD 4
      p := (m.memory.read m.registers.sp).getLsbD 2
      cy := (m.memory.read m.registers.sp).getLsbD 0 }
  other : f.operation.setsCarryOnly = false → f.operation.result? = none →
    f.operation.subtraction? = none → f.operation ≠ .pop .psw →
    next.registers.flags = m.registers.flags

/-- Every step obeys the rules of the flags, whatever it carries out. -/
theorem step_flagRules (h : m.step = .ok (f, next)) : m.FlagRules f next := by
  obtain ⟨-, rfl⟩ := step_eq_ok_iff.1 h
  exact
    { count := fun _ => execute_cy_of_count
      carryOnly := execute_flags_of_carryOnly
      logical := execute_carries_of_logical
      result := fun _ => execute_reflects
      comparison := fun _ => execute_of_comparison
      popStatus := execute_flags_of_popStatus
      other := execute_flags_of_other }

/-- `POP PSW` with the stack pointer at the instruction itself, in the last cell: the
flags come from its own opcode. -/
theorem step_flagRules_own_opcode :
    ∃ (m next : Machine) (f : Fetched), m.step = .ok (f, next) ∧ f.operation = .pop .psw ∧
      m.registers.sp = f.address ∧ next.registers.sp = 1 ∧
      next.registers.flags = { s := true, z := true, ac := true, p := false, cy := true } := by
  let m : Machine :=
    { memory := Memory.zero.write 0xFFFF 0xF1, registers := { pc := 0xFFFF, sp := 0xFFFF } }
  let f : Fetched :=
    { entry := ⟨0xF1, .pop .psw, rfl⟩, data := 0, address := 0xFFFF }
  have stands : m.memory.read 0xFFFF = 0xF1 := Memory.read_write_self _ _ _
  have first : m.step = .ok (f, m.execute f) :=
    step_eq_ok_iff.2 ⟨Memory.fetch_eq_ok_iff.2 ⟨stands.symm, rfl, rfl⟩, rfl⟩
  have flags := (step_flagRules first).popStatus rfl
  rw [show m.registers.sp = 0xFFFF from rfl, stands] at flags
  exact ⟨m, m.execute f, f, first, rfl, rfl, show (0xFFFF#16 + 2 = 1) by decide, flags⟩

end Machine
end I8085
