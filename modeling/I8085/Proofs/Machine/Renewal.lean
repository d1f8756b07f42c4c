import I8085.Proofs.Machine.Calls

/-!
# What a program cannot see

Ports, interrupt latches, the trail and the count are written by many instructions and
by every step, but only `IN` and `RIM` bring anything of them back into a register.
`renewed` is a new machine on the same memory and registers, so that two machines with
one renewal differ in that hidden part alone.  Without `IN` and `RIM` a step comes to
the same renewal from both, and a machine may be exchanged for its renewal between any
two steps.
-/

namespace I8085

namespace Machine

variable {m n : Machine} {f : Fetched}

/-- A new machine on the same memory and registers, under the same halt latch. -/
def renewed (m : Machine) : Machine :=
  { memory := m.memory, registers := m.registers, halted := m.halted }

theorem renewed_eq_iff : n.renewed = m.renewed ↔
    n.memory = m.memory ∧ n.registers = m.registers ∧ n.halted = m.halted := by
  simp only [renewed, mk.injEq, Control.ext_iff, and_true]
  exact ⟨fun ⟨hhalted, hmemory, hregisters⟩ => ⟨hmemory, hregisters, hhalted⟩,
    fun ⟨hmemory, hregisters, hhalted⟩ => ⟨hhalted, hmemory, hregisters⟩⟩

theorem reg_renewed (m : Machine) (r : Reg) : m.renewed.reg r = m.reg r := by
  cases r <;> rfl

theorem renewed_setReg (m : Machine) (r : Reg) (v : Byte) :
    (m.setReg r v).renewed = m.renewed.setReg r v := by
  cases r <;> rfl

end Machine

/-! ## The two that look -/

/-- The actions that look at a port or an interrupt latch. -/
def Action.consults : Action → Bool
  | input _ | rim => true
  | _ => false

/-- The operations that look at a port or an interrupt latch. -/
def Operation.consults : Operation → Bool
  | input | rim => true
  | _ => false

/-- Every other action does to a machine what it does to its renewal. -/
theorem Action.renewed_apply {action : Action} (m : Machine) (h : action.consults = false) :
    (action.apply m.renewed).renewed = (action.apply m).renewed := by
  cases action with
  | mov target source =>
    rw [apply, apply, Machine.reg_renewed, Machine.renewed_setReg, Machine.renewed_setReg]
    rfl
  | mvi target value =>
    rw [apply, apply, Machine.renewed_setReg, Machine.renewed_setReg]
    rfl
  | inr target | dcr target =>
    rw [apply, apply, Machine.reg_renewed, count, count, Machine.renewed_setReg,
      Machine.renewed_setReg]
    rfl
  | input port | rim => cases h
  | _ => rfl

namespace Machine

variable {m n : Machine} {f : Fetched}

theorem consults_action {i : Instruction} (m : Machine) (h : i.operation.consults = false) :
    (m.action i).consults = false := by
  unfold action
  cases ho : i.operation with
  | arithmetic op source | immediate op => cases op <;> rfl
  | jumpIf condition | callIf condition | returnIf condition =>
    exact actionIf_of (P := (·.consults = false)) m condition rfl rfl
  | input | rim => rw [ho] at h; cases h
  | _ => rfl

theorem action_renewed (m : Machine) (i : Instruction) : m.renewed.action i = m.action i := by
  unfold action
  cases ho : i.operation with
  | arithmetic op source => simp only [reg_renewed]; rfl
  | _ => rfl

/-! ## One step -/

theorem fetch_of_renewed_eq (h : n.renewed = m.renewed) : n.fetch = m.fetch := by
  have hfetch : n.renewed.fetch = m.renewed.fetch := congrArg fetch h
  exact hfetch

theorem renewed_execute (h : n.renewed = m.renewed) (hf : f.operation.consults = false) :
    (n.execute f).renewed = (m.execute f).renewed := by
  have hadvance : (n.advance f).renewed = (m.advance f).renewed := by
    have hrenewed : (n.renewed.advance f).renewed = (m.renewed.advance f).renewed := by rw [h]
    exact hrenewed
  have haction : (n.advance f).action f.toInstruction = (m.advance f).action f.toInstruction := by
    rw [← action_renewed, hadvance, action_renewed]
  have hconsults := (m.advance f).consults_action hf
  show (((n.advance f).action f.toInstruction).apply (n.advance f)).renewed =
    (((m.advance f).action f.toInstruction).apply (m.advance f)).renewed
  rw [haction, ← Action.renewed_apply _ hconsults, hadvance, Action.renewed_apply _ hconsults]

/-- The next step, if it succeeds, executes neither `IN` nor `RIM`. -/
def Unaware (m : Machine) : Prop :=
  ∀ f, m.outcome = .ok f → f.operation ≠ .input ∧ f.operation ≠ .rim

theorem consults_of_unaware (h : m.Unaware) (hf : m.fetch = .ok f) :
    f.operation.consults = false := by
  obtain ⟨hinput, hrim⟩ := h f (m.outcome_eq_fetch.trans hf)
  unfold Operation.consults
  split <;> first | rfl | contradiction

theorem renewed_stepped (hunaware : m.Unaware) (h : n.renewed = m.renewed) :
    n.stepped.renewed = m.stepped.renewed := by
  have hfetch := fetch_of_renewed_eq h
  cases hf : m.fetch with
  | error fault => rw [stepped_of_error hf, stepped_of_error (hfetch.trans hf), h]
  | ok f =>
    rw [stepped_of_ok hf, stepped_of_ok (hfetch.trans hf)]
    exact renewed_execute h (consults_of_unaware hunaware hf)

/-! ## Any number of steps -/

/-- As `after`, with the machine exchanged for its renewal before each step that
`exchange` names, and at the end if it names the number of steps. -/
def afterExchanging (m : Machine) (exchange : Nat → Bool) : (count : Nat) → Machine
  | 0 => if exchange 0 then m.renewed else m
  | count + 1 =>
    if exchange (count + 1) then (m.afterExchanging exchange count).stepped.renewed
    else (m.afterExchanging exchange count).stepped

/-- Machines that go on from one another by steps, whatever becomes of their hidden parts
in between, follow the steps of a machine that executes neither `IN` nor `RIM`. -/
theorem renewed_of_steps {s : Nat → Machine} (hbegin : (s 0).renewed = m.renewed)
    (hstep : ∀ k, (s (k + 1)).renewed = (s k).stepped.renewed) {count : Nat}
    (hunaware : ∀ k < count, (m.after k).Unaware) :
    (∀ k < count, (s k).outcome = (m.after k).outcome) ∧
      (s count).renewed = (m.after count).renewed := by
  induction count with
  | zero => exact ⟨fun k hk => absurd hk (Nat.not_lt_zero k), hbegin⟩
  | succ count ih =>
    obtain ⟨houtcomes, hbefore⟩ := ih (fun k hk => hunaware k (Nat.lt_succ_of_lt hk))
    refine ⟨fun k hk => ?_, ?_⟩
    · rcases Nat.lt_succ_iff_lt_or_eq.1 hk with hk | rfl
      · exact houtcomes k hk
      · rw [outcome_eq_fetch, outcome_eq_fetch]
        exact fetch_of_renewed_eq hbefore
    · rw [hstep, after]
      exact renewed_stepped (hunaware count (Nat.lt_succ_self count)) hbefore

/-- A program that executes neither `IN` nor `RIM` does not see ports, interrupt latches,
trail or count.  Machines that have memory, registers and the halt latch in common take
the same steps, failing ones included, and still have them in common after; and so does
the machine itself when it is exchanged for a new one between any of its steps. -/
theorem after_of_renewed_eq (m : Machine) (count : Nat)
    (hunaware : ∀ k < count, (m.after k).Unaware) :
    (∀ n : Machine, n.memory = m.memory → n.registers = m.registers → n.halted = m.halted →
      (∀ k < count, (n.after k).outcome = (m.after k).outcome) ∧
      (n.after count).memory = (m.after count).memory ∧
      (n.after count).registers = (m.after count).registers ∧
      (n.after count).halted = (m.after count).halted) ∧
    ∀ exchange : Nat → Bool,
      (∀ k < count, (m.afterExchanging exchange k).outcome = (m.after k).outcome) ∧
      (m.afterExchanging exchange count).memory = (m.after count).memory ∧
      (m.afterExchanging exchange count).registers = (m.after count).registers ∧
      (m.afterExchanging exchange count).halted = (m.after count).halted := by
  simp only [← renewed_eq_iff]
  refine ⟨fun n hmemory hregisters hhalted => ?_, fun exchange => ?_⟩
  · have hbegin : n.renewed = m.renewed := renewed_eq_iff.2 ⟨hmemory, hregisters, hhalted⟩
    exact renewed_of_steps (s := n.after) hbegin (fun k => rfl) hunaware
  · refine renewed_of_steps ?_ (fun k => ?_) hunaware
    · rw [afterExchanging]
      split <;> rfl
    · rw [afterExchanging]
      split <;> rfl

/-- `SIM` in the last cell and `HLT` in the first, on machines whose masks differ: the
mask stays hidden, and the halt comes to both. -/
theorem after_of_renewed_eq_under_masks :
    ∃ m n : Machine, (∀ k < 2, (m.after k).Unaware) ∧ m.interruptMask = 0 ∧
      n.interruptMask = 5 ∧ (n.after 1).outcome = (m.after 1).outcome ∧
      (n.after 2).registers = (m.after 2).registers ∧ (n.after 2).halted = true := by
  let m : Machine :=
    { memory := (Memory.zero.write 0 0x76).write 0xFFFF 0x30, registers := { pc := 0xFFFF } }
  let n : Machine := { m with interruptMask := 5, interruptsEnabled := true, steps := 100 }
  let sim : Fetched := { entry := ⟨0x30, .sim, rfl⟩, data := 0, address := 0xFFFF }
  let hlt : Fetched := { entry := ⟨0x76, .hlt, rfl⟩, data := 0, address := 0 }
  have first : m.memory.read 0xFFFF = 0x30 := Memory.read_write_self _ _ _
  have second : m.memory.read 0 = 0x76 := by
    rw [Memory.read_write_of_ne _ _ (by decide), Memory.read_write_self]
  have hsim : m.fetch = .ok sim := Memory.fetch_eq_ok_iff.2 ⟨first.symm, rfl, rfl⟩
  have moved : m.after 1 = m.execute sim := stepped_of_ok hsim
  have wrapped : (m.execute sim).registers.pc = 0 := show sim.next = 0 by decide
  have hhlt : (m.after 1).fetch = .ok hlt := by
    rw [moved, fetch, wrapped]
    exact Memory.fetch_eq_ok_iff.2 ⟨second.symm, rfl, rfl⟩
  have unaware : ∀ k < 2, (m.after k).Unaware := by
    intro k hk f hf
    rw [outcome_eq_fetch] at hf
    rcases Nat.le_one_iff_eq_zero_or_eq_one.1 (Nat.le_of_lt_succ hk) with rfl | rfl
    · cases hsim.symm.trans hf
      decide
    · cases hhlt.symm.trans hf
      decide
  have halted : (m.after 2).halted = true := by
    rw [show m.after 2 = (m.after 1).execute hlt from stepped_of_ok hhlt, execute_halted]
    exact Bool.or_true _
  obtain ⟨outcomes, -, registers, latch⟩ := (after_of_renewed_eq m 2 unaware).1 n rfl rfl rfl
  exact ⟨m, n, unaware, rfl, rfl, outcomes 1 (by decide), registers, latch.trans halted⟩

end Machine
end I8085
