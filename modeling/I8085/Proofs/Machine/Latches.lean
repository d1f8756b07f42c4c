import I8085.Proofs.Machine.Footprint
import I8085.Proofs.Machine.History

/-!
# What the latches hold

A port holds the byte put to it last, and the two interrupt latches what the latest instruction
for them said.  The history of a machine is kept here with what each instruction found in A, and
with the bytes that the holder of the machine put to ports directly; `latest` looks up in it the
last word on a latch.  One executed instruction keeps every latch at the last word on it, and so
does every sequence of calls.

The mask is a byte like any other, loaded with an `and` and read with an `or`.  That it has three
bits is a fact about histories, and with it the status is a sum: the `or` never finds a bit set in
both of its halves.
-/

namespace I8085
namespace Machine

/-! ## The last word in a history -/

/-- What can have a say about a latch: an executed instruction, with the byte that A held before
it, or a byte put to a port from outside. -/
inductive Deed
  | executed (f : Fetched) (accumulator : Byte)
  | put (port value : Byte)

namespace Deed

/-- The byte that is put to a port. -/
def toPort? (port : Byte) : Deed → Option Byte
  | executed f accumulator =>
    if f.operation = .output ∧ f.immediate = port then some accumulator else none
  | put target value => if target = port then some value else none

/-- Whether interrupts are to be enabled from here on. -/
def enabling? : Deed → Option Bool
  | executed f _ =>
    match f.operation with
    | .ei => some true
    | .di => some false
    | _ => none
  | put .. => none

/-- The mask that is loaded from here on. -/
def mask? : Deed → Option (BitVec 3)
  | executed f accumulator =>
    if f.operation = .sim ∧ accumulator.getLsbD 3 = true then some (accumulator.setWidth 3)
    else none
  | put .. => none

end Deed

section Latest

variable {α : Type} {tells : Deed → Option α} {otherwise : α} {past : List Deed}

/-- What a history tells of a latch last, if it tells anything of it. -/
def latest (tells : Deed → Option α) (otherwise : α) (past : List Deed) : α :=
  ((past.filterMap tells).getLast?).getD otherwise

theorem latest_concat (deed : Deed) : latest tells otherwise (past ++ [deed]) =
    (tells deed).getD (latest tells otherwise past) := by
  cases h : tells deed <;> simp [latest, h]

theorem latest_append_of_silent {deeds : List Deed} (h : ∀ deed ∈ deeds, tells deed = none) :
    latest tells otherwise (past ++ deeds) = latest tells otherwise past := by
  rw [latest, latest, List.filterMap_append, List.filterMap_eq_nil_iff.2 h, List.append_nil]

end Latest

/-! ## The deeds of calls -/

/-- The instructions with what each of them found in A. -/
def deedsAlong : Machine → List Fetched → List Deed
  | _, [] => []
  | m, f :: fs => .executed f m.registers.a :: deedsAlong (m.execute f) fs

def Call.deeds (m : Machine) : Call → List Deed
  | writePort port value => [.put port value]
  | call => deedsAlong m (call.executed m)

/-- The deeds of calls one after another. -/
def deeds : Machine → List Call → List Deed
  | _, [] => []
  | m, call :: calls => call.deeds m ++ deeds (call.apply m) calls

variable {m last next : Machine} {f : Fetched} {fs : List Fetched} {past : List Deed}

theorem afterCalls_step (h : m.step = .ok (f, next)) (calls : List Call) :
    m.afterCalls (.step :: calls) = next.afterCalls calls := by
  rw [afterCalls, List.foldl_cons, Call.apply, stepped, h]
  rfl

theorem deeds_step (h : m.step = .ok (f, next)) (calls : List Call) :
    m.deeds (.step :: calls) = .executed f m.registers.a :: next.deeds calls := by
  rw [deeds, Call.apply, stepped, h]
  simp [Call.deeds, Call.executed, h, deedsAlong]

/-! ## One instruction -/

theorem read_ports_execute (m : Machine) (f : Fetched) (port : Byte) :
    (m.execute f).ports.read port =
      ((Deed.executed f m.registers.a).toPort? port).getD (m.ports.read port) := by
  show (m.execute f).devices.ports.read port = _
  rw [execute_devices, Deed.toPort?]
  by_cases h : f.operation = .output ∧ f.immediate = port
  · rw [if_pos h, devicesAfter, h.1, h.2]
    exact (Ports.read_write _ _ _ _).trans (if_pos rfl)
  · rw [if_neg h]
    exact read_ports_devicesAfter fun ⟨ho, e⟩ => h ⟨ho, e.symm⟩

theorem interruptsEnabled_execute (m : Machine) (f : Fetched) : (m.execute f).interruptsEnabled =
    ((Deed.executed f m.registers.a).enabling?).getD m.interruptsEnabled := by
  show (m.execute f).devices.interruptsEnabled = _
  rw [execute_devices, Deed.enabling?, devicesAfter]
  cases f.operation <;> rfl

theorem interruptMask_execute_sim (h : f.operation = .sim) :
    (m.execute f).interruptMask = Action.loadedMask m := by
  show (m.execute f).devices.interruptMask = _
  rw [execute_devices, devicesAfter, h]

theorem and_maskSetEnable_ne_zero_iff (a : Byte) :
    a &&& Action.maskSetEnable ≠ 0 ↔ a.getLsbD 3 = true := by
  have bit : Action.maskSetEnable = BitVec.twoPow 8 3 := by decide
  rw [bit, BitVec.and_twoPow]
  cases a.getLsbD 3 <;> decide

theorem toNat_and_interruptMaskBits (a : Byte) :
    (a &&& Action.interruptMaskBits).toNat = (a.setWidth 3).toNat := by
  rw [BitVec.toNat_and, BitVec.toNat_setWidth]
  exact Nat.and_two_pow_sub_one_eq_mod a.toNat 3

/-- A `SIM` that finds bit 3 of A clear tells nothing of the mask. -/
theorem toNat_interruptMask_execute (m : Machine) (f : Fetched) :
    (m.execute f).interruptMask.toNat =
      (((Deed.executed f m.registers.a).mask?).map BitVec.toNat).getD m.interruptMask.toNat := by
  rw [Deed.mask?]
  by_cases h : f.operation = .sim
  · rw [interruptMask_execute_sim h, Action.loadedMask]
    by_cases hbit : m.registers.a.getLsbD 3 = true
    · rw [if_pos ((and_maskSetEnable_ne_zero_iff _).2 hbit), if_pos ⟨h, hbit⟩]
      exact toNat_and_interruptMaskBits _
    · rw [if_neg fun set => hbit ((and_maskSetEnable_ne_zero_iff _).1 set),
        if_neg fun hsim => hbit hsim.2]
      rfl
  · rw [if_neg fun hsim => h hsim.1]
    show (m.execute f).devices.interruptMask.toNat = _
    rw [execute_devices, interruptMask_devicesAfter h]
    rfl

/-! ## Every sequence of calls -/

/-- Each latch is at the last word on it. -/
structure Latched (m : Machine) (past : List Deed) : Prop where
  ports : ∀ port, m.ports.read port = latest (Deed.toPort? port) 0 past
  enabled : m.interruptsEnabled = latest Deed.enabling? false past
  mask : m.interruptMask.toNat = (latest Deed.mask? 0 past).toNat

namespace Latched

theorem fresh (memory : Memory) (registers : Registers) : Latched { memory, registers } [] :=
  ⟨Ports.read_zero, rfl, rfl⟩

theorem execute (h : m.Latched past) (f : Fetched) :
    (m.execute f).Latched (past ++ [.executed f m.registers.a]) where
  ports port := by rw [read_ports_execute, latest_concat, h.ports]
  enabled := by rw [interruptsEnabled_execute, latest_concat, h.enabled]
  mask := by
    rw [toNat_interruptMask_execute, latest_concat, h.mask]
    cases (Deed.executed f m.registers.a).mask? <;> rfl

theorem put (h : m.Latched past) (port value : Byte) :
    Latched { m with ports := m.ports.write port value } (past ++ [.put port value]) where
  ports target := by
    rw [latest_concat, ← h.ports]
    show (m.ports.write port value).read target = _
    rw [Ports.read_write, Deed.toPort?]
    split <;> rfl
  enabled := by rw [latest_concat, ← h.enabled]; rfl
  mask := by rw [latest_concat]; exact h.mask

/-- The mask has three bits. -/
theorem mask_le (h : m.Latched past) : m.interruptMask.toNat ≤ 7 := by
  rw [h.mask]
  exact Nat.le_of_lt_succ (latest Deed.mask? 0 past).isLt

theorem executes (h : m.Latched past) (he : m.Executes fs last) :
    last.Latched (past ++ deedsAlong m fs) := by
  induction he generalizing past with
  | refl m => rwa [deedsAlong, List.append_nil]
  | cons hs _ ih =>
    obtain ⟨-, rfl⟩ := step_eq_ok_iff.1 hs
    rw [deedsAlong, List.append_cons]
    exact ih (h.execute _)

theorem call (h : m.Latched past) (call : Call) :
    (call.apply m).Latched (past ++ call.deeds m) := by
  cases call with
  | step => exact h.executes (executes_step m)
  | run limit => exact h.executes (executes_run m limit)
  | latch halted =>
    rw [show (Call.latch halted).deeds m = [] from rfl, List.append_nil]
    exact ⟨h.ports, h.enabled, h.mask⟩
  | writePort port value => exact h.put port value

theorem calls (h : m.Latched past) (calls : List Call) :
    (m.afterCalls calls).Latched (past ++ m.deeds calls) := by
  induction calls generalizing m past with
  | nil => rwa [deeds, List.append_nil]
  | cons call calls ih =>
    rw [deeds, ← List.append_assoc]
    exact ih (h.call call)

end Latched

theorem latched_afterCalls (memory : Memory) (registers : Registers) (calls : List Call) :
    (afterCalls { memory, registers } calls).Latched (deeds { memory, registers } calls) :=
  (Latched.fresh memory registers).calls calls

/-! ## Input -/

theorem execute_input (h : f.operation = .input) :
    m.execute f = ((m.advance f).setReg .a (m.ports.read f.immediate)).counted := by
  rw [execute, action, show f.toInstruction.operation = _ from h]
  rfl

/-- After any calls, an input reads into A the byte that was put to its port last, and changes no
port and no flag.  A port is changed by nothing else than what is put to it: not by a step that
fails, not by another instruction, and not by what is put to another port. -/
theorem input_reads_latest (memory : Memory) (registers : Registers) (calls : List Call) :
    let m := afterCalls { memory, registers } calls
    let past := deeds { memory, registers } calls
    (∀ f next, m.step = .ok (f, next) → f.operation = .input →
      next.registers.a = latest (Deed.toPort? f.immediate) 0 past ∧
        next.ports = m.ports ∧ next.registers.flags = m.registers.flags) ∧
    ∀ (call : Call) (port : Byte), (∀ deed ∈ call.deeds m, deed.toPort? port = none) →
      (call.apply m).ports.read port = m.ports.read port := by
  intro m past
  have latched : m.Latched past := latched_afterCalls memory registers calls
  refine ⟨fun f next hs ho => ?_, fun call port hsilent => ?_⟩
  · obtain ⟨-, rfl⟩ := step_eq_ok_iff.1 hs
    rw [execute_input ho]
    exact ⟨latched.ports f.immediate, rfl, rfl⟩
  · rw [(latched.call call).ports, latched.ports, latest_append_of_silent hsilent]

/-- `5A` is put to port `0A` and read back from it, with another byte in A and another port in
use between. -/
theorem input_reads_latest_across_ports :
    let start : Machine :=
      { memory := Memory.zero.load 0 [0xD3, 0x0A, 0x3C, 0xDB, 0x0A], registers := { a := 0x5A } }
    let m := start.afterCalls [.step, .step, .writePort 0x0B 0x77]
    ∃ f next, m.step = .ok (f, next) ∧ f.operation = .input ∧ next.registers.a = 0x5A ∧
      next.ports = m.ports ∧
      ((Call.writePort 0x0B 0x00).apply m).ports.read 0x0A = m.ports.read 0x0A := by
  intro start m
  let output : Fetched :=
    { entry := ⟨0xD3, .output, rfl⟩, data := 0x0A, address := 0 }
  let inr : Fetched := { entry := ⟨0x3C, .inr .a, rfl⟩, data := 0, address := 2 }
  let input : Fetched := { entry := ⟨0xDB, .input, rfl⟩, data := 0x0A, address := 3 }
  have bytes : start.memory.bytes 0 5 = [0xD3, 0x0A, 0x3C, 0xDB, 0x0A] :=
    Memory.bytes_load Memory.zero 0 (by decide)
  simp only [Memory.bytes, List.cons.injEq] at bytes
  obtain ⟨atZero, atOne, atTwo, atThree, atFour, -⟩ := bytes
  let raised := (start.execute output).execute inr
  have first : start.step = .ok (output, start.execute output) := step_eq_ok_iff.2
    ⟨Memory.fetch_eq_ok_iff.2 ⟨atZero.symm, congrArg Word.ofByte atOne.symm, rfl⟩, rfl⟩
  have second : (start.execute output).step = .ok (inr, raised) :=
    step_eq_ok_iff.2 ⟨Memory.fetch_eq_ok_iff.2 ⟨atTwo.symm, rfl, rfl⟩, rfl⟩
  have hm : m = (Call.writePort 0x0B 0x77).apply raised := by
    show start.afterCalls _ = _
    rw [afterCalls_step first, afterCalls_step second]
    rfl
  have third : m.step = .ok (input, m.execute input) := by
    refine step_eq_ok_iff.2 ⟨?_, rfl⟩
    rw [hm]
    exact Memory.fetch_eq_ok_iff.2 ⟨atThree.symm, congrArg Word.ofByte atFour.symm, rfl⟩
  have hpast : start.deeds [.step, .step, .writePort 0x0B 0x77] =
      [.executed output 0x5A, .executed inr 0x5A, .put 0x0B 0x77] := by
    rw [deeds_step first, deeds_step second]
    rfl
  obtain ⟨hinput, hsilent⟩ := input_reads_latest _ _ [.step, .step, .writePort 0x0B 0x77]
  obtain ⟨hread, hports, -⟩ := hinput input _ third rfl
  rw [hpast] at hread
  refine ⟨input, _, third, rfl, hread.trans (by decide), hports,
    hsilent (.writePort 0x0B 0x00) 0x0A ?_⟩
  intro deed hdeed
  cases List.mem_singleton.1 hdeed
  decide

/-! ## The interrupt latches -/

theorem execute_rim (h : f.operation = .rim) :
    m.execute f = ((m.advance f).setReg .a (Action.interruptStatus m)).counted := by
  rw [execute, action, show f.toInstruction.operation = _ from h]
  rfl

/-- A mask of three bits and the enable latch stand apart in the status. -/
theorem toNat_interruptStatus (h : m.interruptMask.toNat ≤ 7) :
    (Action.interruptStatus m).toNat =
      m.interruptMask.toNat + 8 * m.interruptsEnabled.toNat := by
  have apart := Nat.two_pow_add_eq_or_of_lt (i := 3) (Nat.lt_succ_of_le h)
    m.interruptsEnabled.toNat
  rw [Action.interruptStatus, BitVec.toNat_or, Nat.or_comm, Nat.add_comm]
  refine Eq.trans ?_ apart.symm
  cases m.interruptsEnabled <;> rfl

/-- Taken for a mask, the status is the mask that it reports. -/
theorem loadedMask_of_status (h : m.interruptMask.toNat ≤ 7)
    (hstatus : m.registers.a = Action.interruptStatus m) :
    Action.loadedMask m = m.interruptMask := by
  rw [Action.loadedMask]
  split
  · apply BitVec.eq_of_toNat_eq
    rw [toNat_and_interruptMaskBits, BitVec.toNat_setWidth, hstatus, toNat_interruptStatus h]
    omega
  · rfl

/-- After any calls the mask has no more than three bits, so that the status that is read has it in
its low three bits and the enable latch above them, each as it was set last, and nothing else.  To
load it back as a mask changes neither latch. -/
theorem rim_reads_latest (memory : Memory) (registers : Registers) (calls : List Call) :
    let m : Machine := afterCalls { memory, registers } calls
    let past := deeds { memory, registers } calls
    m.interruptMask.toNat ≤ 7 ∧
    ∀ f next, m.step = .ok (f, next) → f.operation = .rim →
      next.registers.a.toNat =
        (latest Deed.mask? 0 past).toNat + 8 * (latest Deed.enabling? false past).toNat ∧
      next.registers.a.toNat ≤ 15 ∧
      ∀ g last, next.step = .ok (g, last) → g.operation = .sim →
        last.interruptMask = next.interruptMask ∧
          last.interruptsEnabled = next.interruptsEnabled := by
  intro m past
  have latched : m.Latched past := latched_afterCalls memory registers calls
  refine ⟨latched.mask_le, fun f next hs ho => ?_⟩
  obtain ⟨-, rfl⟩ := step_eq_ok_iff.1 hs
  have hstatus : (m.execute f).registers.a = Action.interruptStatus m := by
    rw [execute_rim ho]
    rfl
  have hread := toNat_interruptStatus latched.mask_le
  rw [← hstatus, latched.mask, latched.enabled] at hread
  refine ⟨hread, ?_, fun g last hs' ho' => ?_⟩
  · have hmask := (latest Deed.mask? 0 past).isLt
    have henabled := (latest Deed.enabling? false past).toNat_lt
    omega
  · obtain ⟨-, rfl⟩ := step_eq_ok_iff.1 hs'
    have hkept : (m.execute f).registers.a = Action.interruptStatus (m.execute f) := by
      rw [execute_rim ho]
      rfl
    refine ⟨(interruptMask_execute_sim ho').trans
      (loadedMask_of_status (latched.execute f).mask_le hkept), ?_⟩
    rw [interruptsEnabled_execute, Deed.enabling?, ho']
    rfl

/-- Interrupts enabled and a mask of five, read as thirteen and loaded back. -/
theorem rim_reads_latest_thirteen :
    let start : Machine :=
      { memory := Memory.zero.load 0 [0xFB, 0x30, 0x20, 0x30], registers := { a := 0x0D } }
    ∃ f next g last, (start.afterCalls [.step, .step]).step = .ok (f, next) ∧ f.operation = .rim ∧
      next.registers.a.toNat = 13 ∧ next.step = .ok (g, last) ∧ g.operation = .sim ∧
      last.interruptMask = next.interruptMask := by
  intro start
  let ei : Fetched := { entry := ⟨0xFB, .ei, rfl⟩, data := 0, address := 0 }
  let sim : Fetched := { entry := ⟨0x30, .sim, rfl⟩, data := 0, address := 1 }
  let rim : Fetched := { entry := ⟨0x20, .rim, rfl⟩, data := 0, address := 2 }
  let again : Fetched := { entry := ⟨0x30, .sim, rfl⟩, data := 0, address := 3 }
  have bytes : start.memory.bytes 0 4 = [0xFB, 0x30, 0x20, 0x30] :=
    Memory.bytes_load Memory.zero 0 (by decide)
  simp only [Memory.bytes, List.cons.injEq] at bytes
  obtain ⟨atZero, atOne, atTwo, atThree, -⟩ := bytes
  let masked := (start.execute ei).execute sim
  have first : start.step = .ok (ei, start.execute ei) :=
    step_eq_ok_iff.2 ⟨Memory.fetch_eq_ok_iff.2 ⟨atZero.symm, rfl, rfl⟩, rfl⟩
  have second : (start.execute ei).step = .ok (sim, masked) :=
    step_eq_ok_iff.2 ⟨Memory.fetch_eq_ok_iff.2 ⟨atOne.symm, rfl, rfl⟩, rfl⟩
  have third : masked.step = .ok (rim, masked.execute rim) :=
    step_eq_ok_iff.2 ⟨Memory.fetch_eq_ok_iff.2 ⟨atTwo.symm, rfl, rfl⟩, rfl⟩
  have fourth : (masked.execute rim).step = .ok (again, (masked.execute rim).execute again) :=
    step_eq_ok_iff.2 ⟨Memory.fetch_eq_ok_iff.2 ⟨atThree.symm, rfl, rfl⟩, rfl⟩
  have hthird : (start.afterCalls [.step, .step]).step = .ok (rim, masked.execute rim) := by
    rw [afterCalls_step first, afterCalls_step second]
    exact third
  have hpast : start.deeds [.step, .step] = [.executed ei 0x0D, .executed sim 0x0D] := by
    rw [deeds_step first, deeds_step second]
    rfl
  obtain ⟨-, hrim⟩ := rim_reads_latest (Memory.zero.load 0 [0xFB, 0x30, 0x20, 0x30])
    { a := 0x0D } [.step, .step]
  obtain ⟨hread, -, hback⟩ := hrim rim _ hthird rfl
  rw [hpast] at hread
  refine ⟨rim, _, again, _, hthird, rfl, ?_, fourth, rfl, (hback again _ fourth rfl).1⟩
  rw [hread]
  decide

end Machine
end I8085
