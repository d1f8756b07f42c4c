import I8085.Proofs.Machine.Execution
import Mathlib.Tactic.ByContra

/-!
# The footprint of an instruction

What a step may change is known before it is taken, from the instruction and the
registers.  `footprint` lists the cells it may store into, `pointerAfter` gives the
stack pointer it leaves, and `devicesAfter` the ports and latches.  The last two
are exact; a cell of the footprint may also keep its byte.
-/

namespace I8085

/-! The chart has no store through HL, SP or the status word and no pop of SP, though
these can be written down as operations. -/

namespace Entry

theorem stax_pair {e : Entry} {pair : Pair} (h : e.operation = .stax pair) :
    pair = .bc ∨ pair = .de := by
  cases pair with
  | bc => exact .inl rfl
  | de => exact .inr rfl
  | hl | sp | psw => exact absurd h (e.operation_ne_of_not_mem (by decide +kernel))

theorem pop_ne_sp (e : Entry) : e.operation ≠ .pop .sp :=
  e.operation_ne_of_not_mem (by decide +kernel)

end Entry

namespace Machine

variable {m next : Machine} {f : Fetched}

/-! ## Cells -/

/-- The cells an instruction may store into. -/
def footprint (m : Machine) (f : Fetched) : List Word :=
  match f.operation with
  | .mov .m _ | .mvi .m | .inr .m | .dcr .m => [m.registers.hl]
  | .sta => [f.data]
  | .stax .bc => [m.registers.bc]
  | .stax .de => [m.registers.de]
  | .shld => [f.data, f.data + 1]
  | .push _ | .call | .rst _ => [m.registers.sp - 1, m.registers.sp - 2]
  | .callIf condition =>
    if m.registers.holds condition then [m.registers.sp - 1, m.registers.sp - 2] else []
  | .xthl => [m.registers.sp, m.registers.sp + 1]
  | _ => []

theorem stores_eq_footprint (hf : m.fetch = .ok f) : m.stores = m.footprint f := by
  rw [stores_of_fetch hf]
  unfold action footprint
  cases ho : f.operation with
  | mov target _ | mvi target | inr target | dcr target => cases target <;> rfl
  | stax pair => rcases f.entry.stax_pair ho with rfl | rfl <;> rfl
  | arithmetic op _ | immediate op => cases op <;> rfl
  | callIf condition => exact map_actionIf (·.stores (m.advance f)) _ condition _
  | jumpIf condition | returnIf condition =>
    exact actionIf_of (P := (·.stores (m.advance f) = [])) _ condition rfl rfl
  | _ => rfl

theorem read_execute_of_not_mem_footprint {x : Word} (hf : m.fetch = .ok f)
    (h : x ∉ m.footprint f) : (m.execute f).memory.read x = m.memory.read x := by
  rw [← stores_eq_footprint hf] at h
  exact read_execute_of_not_mem_stores hf h

/-! ## The stack pointer -/

@[simp]
theorem setReg_sp (m : Machine) (r : Reg) (v : Byte) :
    (m.setReg r v).registers.sp = m.registers.sp := by
  cases r <;> rfl

/-- The stack pointer an instruction leaves. -/
def pointerAfter (m : Machine) (f : Fetched) : Word :=
  match f.operation with
  | .push _ | .call | .rst _ => m.registers.sp - 2
  | .callIf condition =>
    if m.registers.holds condition then m.registers.sp - 2 else m.registers.sp
  | .pop _ | .ret => m.registers.sp + 2
  | .returnIf condition =>
    if m.registers.holds condition then m.registers.sp + 2 else m.registers.sp
  | .inx .sp => m.registers.sp + 1
  | .dcx .sp => m.registers.sp - 1
  | .lxi .sp => f.data
  | .sphl => m.registers.hl
  | _ => m.registers.sp

theorem execute_sp (m : Machine) (f : Fetched) : (m.execute f).registers.sp = m.pointerAfter f := by
  rw [execute_registers]
  unfold action pointerAfter
  cases ho : f.operation with
  | mov target _ | mvi target => exact setReg_sp (m.advance f) target _
  | inr target | dcr target => exact setReg_sp _ target _
  | lxi pair | inx pair | dcx pair => cases pair <;> rfl
  | pop pair =>
    cases pair with
    | sp => exact absurd ho f.entry.pop_ne_sp
    | _ => rfl
  | arithmetic op _ | immediate op => cases op <;> rfl
  | callIf condition | returnIf condition =>
    exact map_actionIf (fun a => (a.apply (m.advance f)).registers.sp) _ condition _
  | jumpIf condition =>
    exact actionIf_of (P := fun a => (a.apply (m.advance f)).registers.sp = m.registers.sp)
      _ condition rfl rfl
  | _ => rfl

/-! ## Ports and latches -/

/-- What a program reaches besides memory and registers. -/
structure Devices where
  ports : Ports
  interruptsEnabled : Bool
  interruptMask : Byte
  halted : Bool

def devices (m : Machine) : Devices :=
  ⟨m.ports, m.interruptsEnabled, m.interruptMask, m.halted⟩

/-- The ports and latches an instruction leaves. -/
def devicesAfter (m : Machine) (f : Fetched) : Devices :=
  match f.operation with
  | .output => { m.devices with ports := m.ports.write f.immediate m.registers.a }
  | .ei => { m.devices with interruptsEnabled := true }
  | .di => { m.devices with interruptsEnabled := false }
  | .sim => { m.devices with interruptMask := Action.loadedMask m }
  | .hlt => { m.devices with halted := true }
  | _ => m.devices

@[simp]
theorem setReg_devices (m : Machine) (r : Reg) (v : Byte) : (m.setReg r v).devices = m.devices := by
  cases r <;> rfl

theorem execute_devices (m : Machine) (f : Fetched) : (m.execute f).devices = m.devicesAfter f := by
  show (((m.advance f).action f.toInstruction).apply (m.advance f)).devices = _
  unfold action devicesAfter
  cases ho : f.operation with
  | mov target _ | mvi target => exact setReg_devices (m.advance f) target _
  | inr target | dcr target => exact setReg_devices _ target _
  | arithmetic op _ | immediate op => cases op <;> rfl
  | jumpIf condition | callIf condition | returnIf condition =>
    exact actionIf_of (P := fun a => (a.apply (m.advance f)).devices = m.devices)
      _ condition rfl rfl
  | _ => rfl

theorem read_ports_devicesAfter {port : Byte} (h : ¬(f.operation = .output ∧ port = f.immediate)) :
    (m.devicesAfter f).ports.read port = m.ports.read port := by
  unfold devicesAfter
  cases ho : f.operation with
  | output => exact (Ports.read_write _ _ _ _).trans (if_neg fun e => h ⟨ho, e.symm⟩)
  | _ => rfl

theorem interruptsEnabled_devicesAfter (h : ¬(f.operation = .ei ∨ f.operation = .di)) :
    (m.devicesAfter f).interruptsEnabled = m.interruptsEnabled := by
  unfold devicesAfter
  cases ho : f.operation with
  | ei => exact absurd (.inl ho) h
  | di => exact absurd (.inr ho) h
  | _ => rfl

theorem interruptMask_devicesAfter (h : f.operation ≠ .sim) :
    (m.devicesAfter f).interruptMask = m.interruptMask := by
  unfold devicesAfter
  cases ho : f.operation with
  | sim => exact absurd ho h
  | _ => rfl

theorem halted_devicesAfter (h : f.operation ≠ .hlt) :
    (m.devicesAfter f).halted = m.halted := by
  unfold devicesAfter
  cases ho : f.operation with
  | hlt => exact absurd ho h
  | _ => rfl

/-! ## The step -/

/-- A step stays inside the footprint of its instruction: memory changes at cells of
the footprint only, the stack pointer as the instruction says, a port only by the
output to it, and each latch only by the instructions that are for it. -/
theorem step_footprint (h : m.step = .ok (f, next)) :
    (∀ x, next.memory.read x ≠ m.memory.read x → x ∈ m.footprint f) ∧
    next.registers.sp = m.pointerAfter f ∧
    (∀ port, next.ports.read port ≠ m.ports.read port →
      f.operation = .output ∧ port = f.immediate) ∧
    (next.interruptsEnabled ≠ m.interruptsEnabled → f.operation = .ei ∨ f.operation = .di) ∧
    (next.interruptMask ≠ m.interruptMask → f.operation = .sim) ∧
    (next.halted ≠ m.halted → f.operation = .hlt) := by
  obtain ⟨hf, rfl⟩ := step_eq_ok_iff.1 h
  have hports : (m.execute f).ports = (m.devicesAfter f).ports :=
    congrArg Devices.ports (m.execute_devices f)
  have henabled : (m.execute f).interruptsEnabled = (m.devicesAfter f).interruptsEnabled :=
    congrArg Devices.interruptsEnabled (m.execute_devices f)
  have hmask : (m.execute f).interruptMask = (m.devicesAfter f).interruptMask :=
    congrArg Devices.interruptMask (m.execute_devices f)
  have hhalted : (m.execute f).halted = (m.devicesAfter f).halted :=
    congrArg Devices.halted (m.execute_devices f)
  refine ⟨fun x hx => ?_, m.execute_sp f, fun port hport => ?_, fun hne => ?_, fun hne => ?_,
    fun hne => ?_⟩
  · by_contra hout
    exact hx (read_execute_of_not_mem_footprint hf hout)
  · by_contra hout
    exact hport (hports ▸ read_ports_devicesAfter hout)
  · by_contra hout
    exact hne (henabled.trans (interruptsEnabled_devicesAfter hout))
  · by_contra hout
    exact hne (hmask.trans (interruptMask_devicesAfter hout))
  · by_contra hout
    exact hne (hhalted.trans (halted_devicesAfter hout))

/-- `SHLD FFFF` stores into the last cell and into the first. -/
theorem step_footprint_wrapped :
    ∃ (m next : Machine) (f : Fetched),
      m.step = .ok (f, next) ∧ f.operation = .shld ∧ f.data = 0xFFFF ∧
      (∀ x, next.memory.read x ≠ m.memory.read x → x = 0xFFFF ∨ x = 0) ∧
      next.registers.sp = m.registers.sp ∧ next.halted = m.halted := by
  let shld : Fetched :=
    { entry := ⟨0x22, .shld, rfl⟩, data := 0xFFFF, address := 0x10 }
  let m : Machine :=
    { memory := Memory.zero.load 0x10 shld.bytes, registers := { pc := 0x10 } }
  have fits : shld.Fits := show (0xFFFF#16).toNat < 256 ^ 2 by decide
  have fetched : m.fetch = .ok shld := Memory.fetch_load fits Memory.zero 0x10
  have step : m.step = .ok (shld, m.execute shld) := step_eq_ok_iff.2 ⟨fetched, rfl⟩
  obtain ⟨cells, sp, -, -, -, latch⟩ := step_footprint step
  refine ⟨m, _, shld, step, rfl, rfl, fun x hx => ?_, sp, ?_⟩
  · simpa [footprint, shld, Instruction.operation] using cells x hx
  · by_contra changed
    exact absurd (latch changed) (by decide)

end Machine
end I8085
