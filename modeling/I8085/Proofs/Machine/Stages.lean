import I8085.Proofs.Machine.Execution

/-!
# A step in stages

A step fetches, and from there on nothing can fail.  That is not plain from the
order in which an instruction is carried out: the trail and the program counter are
moved first, the operands are looked at later, and one that is not of the kind its
mnemonic takes has to be refused when the trail is longer already.  `attempt` is the
step in these stages.  Every entry of the chart has the operands its mnemonic takes,
so `attempt` and `step` are one, and a step that fails leaves no trace.
-/

namespace I8085

namespace Opcode

/-- The opcodes that stand for nothing. -/
def undocumented : List Byte := [0x08, 0x10, 0x18, 0x28, 0x38, 0xCB, 0xD9, 0xDD, 0xED, 0xFD]

theorem empty_places :
    places.zipIdx.filter (fun place => place.1.isNone) =
      undocumented.map fun opcode => (none, opcode.toNat) := by
  decide +kernel

theorem chart_eq_none_iff (opcode : Byte) : chart opcode = none ↔ opcode ∈ undocumented := by
  have place : (none, opcode.toNat) ∈ places.zipIdx ↔ chart opcode = none := by
    rw [List.mk_mem_zipIdx_iff_getElem?, getElem?_places, Option.some_inj]
  calc chart opcode = none
      ↔ (none, opcode.toNat) ∈ places.zipIdx.filter (fun place => place.1.isNone) := by
        simp [place]
    _ ↔ (none, opcode.toNat) ∈ undocumented.map fun opcode => (none, opcode.toNat) := by
        rw [empty_places]
    _ ↔ opcode ∈ undocumented := by
        simp [BitVec.toNat_inj]

end Opcode

/-! ## Mnemonics and operands apart -/

/-- What a mnemonic says, without the operands that stand behind it.  The two forms
of an accumulator operation differ in their operands only. -/
inductive Stem
  | mov | mvi | lxi | lda | sta | lhld | shld | ldax | stax | xchg
  | accumulate (op : Arithmetic)
  | inr | dcr | inx | dcx | dad | daa
  | rlc | rrc | ral | rar | cma | cmc | stc
  | jmp | jumpIf (condition : Condition)
  | call | callIf (condition : Condition)
  | ret | returnIf (condition : Condition)
  | rst | pchl | push | pop | xthl | sphl
  | input | output | ei | di | rim | sim | nop | hlt

def Operation.stem : Operation → Stem
  | mov _ _ => .mov
  | mvi _ => .mvi
  | lxi _ => .lxi
  | lda => .lda
  | sta => .sta
  | lhld => .lhld
  | shld => .shld
  | ldax _ => .ldax
  | stax _ => .stax
  | xchg => .xchg
  | arithmetic op _ => .accumulate op
  | immediate op => .accumulate op
  | inr _ => .inr
  | dcr _ => .dcr
  | inx _ => .inx
  | dcx _ => .dcx
  | dad _ => .dad
  | daa => .daa
  | rlc => .rlc
  | rrc => .rrc
  | ral => .ral
  | rar => .rar
  | cma => .cma
  | cmc => .cmc
  | stc => .stc
  | jmp => .jmp
  | jumpIf condition => .jumpIf condition
  | call => .call
  | callIf condition => .callIf condition
  | ret => .ret
  | returnIf condition => .returnIf condition
  | rst _ => .rst
  | pchl => .pchl
  | push _ => .push
  | pop _ => .pop
  | xthl => .xthl
  | sphl => .sphl
  | input => .input
  | output => .output
  | ei => .ei
  | di => .di
  | rim => .rim
  | sim => .sim
  | nop => .nop
  | hlt => .hlt

namespace Machine

/-- The byte an accumulator operation works on: the register that stands first among
the operands, or the literal. -/
def sourceByte (m : Machine) (i : Instruction) : List Slot → Byte
  | .reg r :: _ => m.reg r
  | _ => i.immediate

/-- The action that a mnemonic asks for with the given operands, none where they are
not of the kinds it takes. -/
def action? (m : Machine) (i : Instruction) : Stem → List Slot → Option Action
  | .mov, .reg target :: .reg source :: _ => some (.mov target source)
  | .mvi, .reg target :: _ => some (.mvi target i.immediate)
  | .lxi, .pair pair :: _ => some (.lxi pair i.data)
  | .lda, _ => some (.lda i.data)
  | .sta, _ => some (.sta i.data)
  | .lhld, _ => some (.lhld i.data)
  | .shld, _ => some (.shld i.data)
  | .ldax, .pair pair :: _ => some (.ldax pair)
  | .stax, .pair pair :: _ => some (.stax pair)
  | .xchg, _ => some .xchg
  | .accumulate op, slots => some (op.action (m.sourceByte i slots) m.registers.flags.cy)
  | .inr, .reg target :: _ => some (.inr target)
  | .dcr, .reg target :: _ => some (.dcr target)
  | .inx, .pair pair :: _ => some (.inx pair)
  | .dcx, .pair pair :: _ => some (.dcx pair)
  | .dad, .pair pair :: _ => some (.dad pair)
  | .daa, _ => some .daa
  | .rlc, _ => some .rlc
  | .rrc, _ => some .rrc
  | .ral, _ => some .ral
  | .rar, _ => some .rar
  | .cma, _ => some .cma
  | .cmc, _ => some .cmc
  | .stc, _ => some .stc
  | .jmp, _ => some (.jmp i.data)
  | .jumpIf condition, _ => some (m.actionIf condition (.jmp i.data))
  | .call, _ => some (.call i.data)
  | .callIf condition, _ => some (m.actionIf condition (.call i.data))
  | .ret, _ => some .ret
  | .returnIf condition, _ => some (m.actionIf condition .ret)
  | .rst, .vector vector :: _ => some (.rst (BitVec.ofNat 8 vector))
  | .pchl, _ => some .pchl
  | .push, .pair pair :: _ => some (.push pair)
  | .pop, .pair pair :: _ => some (.pop pair)
  | .xthl, _ => some .xthl
  | .sphl, _ => some .sphl
  | .input, _ => some (.input i.immediate)
  | .output, _ => some (.output i.immediate)
  | .ei, _ => some .ei
  | .di, _ => some .di
  | .rim, _ => some .rim
  | .sim, _ => some .sim
  | .nop, _ => some .nop
  | .hlt, _ => some .hlt
  | _, _ => none

/-- Carries an instruction out, or refuses its operands. -/
def perform (m : Machine) (f : Fetched) : Except Fault Machine :=
  match m.action? f.toInstruction f.operation.stem f.entry.slots with
  | some action => .ok (action.apply m)
  | none => .error (.illegalOpcode f.entry.opcode f.address)

/-- The step in its stages, with the machine it leaves in either case.  A refused
instruction has the program counter put back, but stays on the trail. -/
def attempt (m : Machine) : Except Fault Fetched × Machine :=
  match m.fetch with
  | .error fault => (.error fault, m)
  | .ok f =>
    match (m.advance f).perform f with
    | .error fault => (.error fault, (m.advance f).jump f.address)
    | .ok done => (.ok f, done.counted)

/-! ## Nothing is refused -/

theorem action?_eq_action (m : Machine) (i : Instruction) :
    m.action? i i.operation.stem i.operation.slots = some (m.action i) := by
  unfold action
  cases ho : i.operation <;> rfl

theorem perform_eq_apply (m : Machine) (f : Fetched) :
    m.perform f = .ok ((m.action f.toInstruction).apply m) := by
  unfold perform
  rw [show f.entry.slots = f.operation.slots from rfl, action?_eq_action]

variable {m next : Machine} {f : Fetched} {fault : Fault}

theorem attempt_of_error (h : m.step = .error fault) : m.attempt = (.error fault, m) := by
  have hf : m.fetch = .error fault := Memory.fetch_eq_error_iff.2 (step_eq_error_iff.1 h)
  unfold attempt
  rw [hf]

theorem attempt_of_ok (h : m.step = .ok (f, next)) : m.attempt = (.ok f, next) := by
  obtain ⟨hf, rfl⟩ := step_eq_ok_iff.1 h
  unfold attempt
  rw [hf]
  simp only [perform_eq_apply]
  rfl

theorem execute_trail {Q : Type} [Deque Q] (m : Machine Q) (f : Fetched) :
    (m.execute f).trail = Deque.record m.trail f.address :=
  Action.apply_trail _ (m.advance f)

/-- A step fails at the undocumented opcodes and nowhere else, with the fault that
names the opcode and its address.  Taken in stages it leaves the machine as it was
when it fails; when it does not, the instruction is carried out, noted on the trail
and counted once.  No entry of the chart is refused for its operands. -/
theorem step_fails_iff_undocumented (m : Machine) :
    ((∃ fault, m.step = .error fault) ↔
      m.memory.read m.registers.pc ∈ Opcode.undocumented) ∧
    (∀ fault, m.step = .error fault →
      fault = .illegalOpcode (m.memory.read m.registers.pc) m.registers.pc ∧
        m.attempt = (.error fault, m)) ∧
    (∀ f next, m.step = .ok (f, next) →
      m.attempt = (.ok f, next) ∧ next = m.execute f ∧ next.steps = m.steps + 1 ∧
        next.trail = Deque.record m.trail m.registers.pc) ∧
    ∀ (n : Machine) (i : Instruction),
      n.action? i i.entry.operation.stem i.entry.slots = some (n.action i) := by
  refine ⟨?_, fun fault h => ⟨(step_eq_error_iff.1 h).2, attempt_of_error h⟩, fun f next h => ?_,
    action?_eq_action⟩
  · rw [← Opcode.chart_eq_none_iff]
    constructor
    · rintro ⟨fault, h⟩
      exact (step_eq_error_iff.1 h).1
    · intro h
      exact ⟨_, step_eq_error_iff.2 ⟨h, rfl⟩⟩
  · obtain ⟨hf, rfl⟩ := step_eq_ok_iff.1 h
    have haddress : f.address = m.registers.pc := (Memory.fetch_eq_ok_iff.1 hf).2.2
    refine ⟨attempt_of_ok h, rfl, m.execute_steps f, ?_⟩
    rw [execute_trail, haddress]

end Machine
end I8085
