import I8085.Machine.Step

/-!
# What an action leaves alone

An action reaches little of the machine.  It never touches the count or the
trail, only the halt sets the halt latch, only a transfer of control moves the
program counter, and memory changes at no cell but those that `Action.stores`
names.  The lemmas here go through the actions once, so that what follows about
steps and runs needs no case for each of them.
-/

namespace I8085

variable {Q : Type}

namespace Memory

theorem read_writeWord (m : Memory) (x y w : Word) :
    (m.writeWord x w).read y =
      if x + 1 = y then Word.high w else if x = y then Word.low w else m.read y := by
  rw [writeWord, read_write, read_write]

theorem read_writeWord_of_ne (m : Memory) {x y : Word} (w : Word) (h : x + 1 ≠ y) (h' : x ≠ y) :
    (m.writeWord x w).read y = m.read y := by
  rw [read_writeWord, if_neg h, if_neg h']

end Memory

namespace Machine

/-! ## Register operands

A register operand is a register or a cell, so storing into one leaves both
counters and every latch as they were. -/

@[simp]
theorem setReg_steps (m : Machine Q) (r : Reg) (v : Byte) : (m.setReg r v).steps = m.steps := by
  cases r <;> rfl

@[simp]
theorem setReg_trail (m : Machine Q) (r : Reg) (v : Byte) : (m.setReg r v).trail = m.trail := by
  cases r <;> rfl

@[simp]
theorem setReg_halted (m : Machine Q) (r : Reg) (v : Byte) : (m.setReg r v).halted = m.halted := by
  cases r <;> rfl

@[simp]
theorem setReg_pc (m : Machine Q) (r : Reg) (v : Byte) :
    (m.setReg r v).registers.pc = m.registers.pc := by
  cases r <;> rfl

theorem setReg_memory_of_ne (m : Machine Q) {r : Reg} (v : Byte) (h : r ≠ .m) :
    (m.setReg r v).memory = m.memory := by
  cases r <;> first | rfl | exact absurd rfl h

@[simp]
theorem setPair_pc (r : Registers) (p : Pair) (w : Word) : (r.setPair p w).pc = r.pc := by
  cases p <;> rfl

end Machine

namespace Action

/-! ## Counters and the halt latch -/

theorem apply_steps (action : Action) (m : Machine Q) : (action.apply m).steps = m.steps := by
  cases action <;> simp [apply, count, Machine.push, Machine.drop, Machine.jump, Machine.setPair]

theorem apply_trail (action : Action) (m : Machine Q) : (action.apply m).trail = m.trail := by
  cases action <;> simp [apply, count, Machine.push, Machine.drop, Machine.jump, Machine.setPair]

/-- The halt latch is set by the halt and by nothing else, and never cleared. -/
theorem apply_halted (action : Action) (m : Machine Q) :
    (action.apply m).halted = (m.halted || decide (action = .hlt)) := by
  cases action <;> simp [apply, count, Machine.push, Machine.drop, Machine.jump, Machine.setPair]

/-! ## The program counter -/

/-- The actions that continue at an address of their own. -/
def isTransfer : Action → Bool
  | jmp _ | call _ | ret | rst _ | pchl => true
  | _ => false

theorem apply_pc {action : Action} (m : Machine Q) (h : action.isTransfer = false) :
    (action.apply m).registers.pc = m.registers.pc := by
  cases action with
  | mov target source => exact Machine.setReg_pc m target _
  | mvi target value => exact Machine.setReg_pc m target value
  | inr target | dcr target => exact Machine.setReg_pc _ target _
  | lxi pair value | inx pair | dcx pair | pop pair => exact Machine.setPair_pc _ pair _
  | jmp address | call address | ret | rst vector | pchl => cases h
  | _ => rfl

/-! ## Memory -/

def operandStores (m : Machine Q) : Reg → List Word
  | .m => [m.registers.hl]
  | _ => []

/-- The addresses an action stores at. -/
def stores (action : Action) (m : Machine Q) : List Word :=
  match action with
  | mov target _ | mvi target _ | inr target | dcr target => operandStores m target
  | sta address => [address]
  | stax pair => [m.registers.pair pair]
  | shld address => [address, address + 1]
  | call _ | rst _ | push _ => [m.registers.sp - 1, m.registers.sp - 2]
  | xthl => [m.registers.sp, m.registers.sp + 1]
  | _ => []

theorem read_push_of_ne (m : Machine Q) (w : Word) {x : Word} (h : x ≠ m.registers.sp - 1)
    (h' : x ≠ m.registers.sp - 2) : (m.push w).memory.read x = m.memory.read x := by
  refine Memory.read_writeWord_of_ne m.memory w (fun e => h ?_) (fun e => h' e.symm)
  rw [← e]
  bv_omega

theorem read_setReg_of_not_mem (m : Machine Q) (r : Reg) (v : Byte) {x : Word}
    (h : x ∉ operandStores m r) : (m.setReg r v).memory.read x = m.memory.read x := by
  by_cases hr : r = .m
  · subst hr
    exact Memory.read_write_of_ne m.memory v (fun e => h (List.mem_singleton.2 e.symm))
  · rw [Machine.setReg_memory_of_ne m v hr]

theorem read_apply_of_not_mem_stores {action : Action} {m : Machine Q} {x : Word}
    (h : x ∉ action.stores m) : (action.apply m).memory.read x = m.memory.read x := by
  cases action with
  | mov target source => exact read_setReg_of_not_mem m target _ h
  | mvi target value => exact read_setReg_of_not_mem m target _ h
  | inr target | dcr target => exact read_setReg_of_not_mem _ target _ h
  | sta address | stax pair =>
    exact Memory.read_write_of_ne m.memory _ (fun e => h (List.mem_singleton.2 e.symm))
  | shld address | xthl =>
    have hx := List.ne_and_not_mem_of_not_mem_cons h
    exact Memory.read_writeWord_of_ne m.memory _ (fun e => hx.2 (List.mem_singleton.2 e.symm))
      (fun e => hx.1 e.symm)
  | call address | rst vector | push pair =>
    have hx := List.ne_and_not_mem_of_not_mem_cons h
    exact read_push_of_ne m _ hx.1 (fun e => hx.2 (List.mem_singleton.2 e))
  | _ => rfl

end Action

/-! ## From operations to actions -/

/-- The operations that may continue elsewhere than behind themselves. -/
def Operation.isTransfer : Operation → Bool
  | jmp | jumpIf _ | call | callIf _ | ret | returnIf _ | rst _ | pchl => true
  | _ => false

namespace Machine

theorem isTransfer_action {i : Instruction} (m : Machine Q) (h : i.operation.isTransfer = false) :
    (m.action i).isTransfer = false := by
  unfold action
  cases ho : i.operation with
  | arithmetic op source | immediate op => cases op <;> rfl
  | jmp | jumpIf condition | call | callIf condition | ret | returnIf condition | rst vector
  | pchl => rw [ho] at h; cases h
  | _ => rfl

/-- What is read off a conditional action is read off the action or off nothing. -/
theorem map_actionIf {α : Type} (g : Action → α) (m : Machine Q) (condition : Condition)
    (action : Action) : g (m.actionIf condition action) =
      if m.registers.holds condition then g action else g .nop :=
  apply_ite g _ _ _

theorem actionIf_of {P : Action → Prop} (m : Machine Q) (condition : Condition) {action : Action}
    (taken : P action) (nop : P .nop) : P (m.actionIf condition action) := by
  unfold actionIf
  split
  · exact taken
  · exact nop

theorem action_eq_hlt_iff (m : Machine Q) (i : Instruction) :
    m.action i = .hlt ↔ i.operation = .hlt := by
  unfold action
  cases ho : i.operation with
  | arithmetic op source | immediate op => cases op <;> simp [Arithmetic.action]
  | jumpIf condition | callIf condition | returnIf condition =>
    refine iff_of_false ?_ Operation.noConfusion
    exact actionIf_of (P := (· ≠ .hlt)) m condition Action.noConfusion Action.noConfusion
  | _ => simp

end Machine
end I8085
