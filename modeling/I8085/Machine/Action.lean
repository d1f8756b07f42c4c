import I8085.Event
import I8085.Machine.Basic

/-!
# Actions

An action is what an instruction comes to once its source operand, its literal
and its condition are known: `ADD M` becomes the addition of a certain byte, a
conditional jump either a jump or nothing.  `Machine.action` makes that
reduction, `Action.apply` carries the action out.

An action that transfers control finds the program counter already past the
instruction, so a call saves the program counter as it stands.
-/

namespace I8085

/-- What an instruction does, with nothing left to look up but the registers and
cells it works on. -/
inductive Action
  | mov (target source : Reg)
  | mvi (target : Reg) (value : Byte)
  | lxi (pair : Pair) (value : Word)
  | lda (address : Word)
  | sta (address : Word)
  | lhld (address : Word)
  | shld (address : Word)
  | ldax (pair : Pair)
  | stax (pair : Pair)
  | xchg
  | add (value : Byte) (carryIn : Bool)
  | sub (value : Byte) (borrowIn : Bool)
  | ana (value : Byte)
  | xra (value : Byte)
  | ora (value : Byte)
  | cmp (value : Byte)
  | inr (target : Reg)
  | dcr (target : Reg)
  | inx (pair : Pair)
  | dcx (pair : Pair)
  | dad (pair : Pair)
  | daa
  | rlc
  | rrc
  | ral
  | rar
  | cma
  | cmc
  | stc
  | jmp (address : Word)
  | call (address : Word)
  | ret
  | rst (vector : Byte)
  | pchl
  | push (pair : Pair)
  | pop (pair : Pair)
  | xthl
  | sphl
  | input (port : Byte)
  | output (port : Byte)
  | ei
  | di
  | rim
  | sim
  | nop
  | hlt
deriving DecidableEq

/-- The action of an accumulator operation on a byte.  Two of the eight take the
carry in. -/
def Arithmetic.action (op : Arithmetic) (value : Byte) (carry : Bool) : Action :=
  match op with
  | add => .add value false
  | adc => .add value carry
  | sub => .sub value false
  | sbb => .sub value carry
  | ana => .ana value
  | xra => .xra value
  | ora => .ora value
  | cmp => .cmp value

variable {Q : Type}

def Machine.actionIf (m : Machine Q) (condition : Condition) (action : Action) : Action :=
  if m.registers.holds condition then action else .nop

def Machine.action (m : Machine Q) (i : Instruction) : Action :=
  match i.operation with
  | .mov target source => .mov target source
  | .mvi target => .mvi target i.immediate
  | .lxi pair => .lxi pair i.data
  | .lda => .lda i.data
  | .sta => .sta i.data
  | .lhld => .lhld i.data
  | .shld => .shld i.data
  | .ldax pair => .ldax pair
  | .stax pair => .stax pair
  | .xchg => .xchg
  | .arithmetic op source => op.action (m.reg source) m.registers.flags.cy
  | .immediate op => op.action i.immediate m.registers.flags.cy
  | .inr target => .inr target
  | .dcr target => .dcr target
  | .inx pair => .inx pair
  | .dcx pair => .dcx pair
  | .dad pair => .dad pair
  | .daa => .daa
  | .rlc => .rlc
  | .rrc => .rrc
  | .ral => .ral
  | .rar => .rar
  | .cma => .cma
  | .cmc => .cmc
  | .stc => .stc
  | .jmp => .jmp i.data
  | .jumpIf condition => m.actionIf condition (.jmp i.data)
  | .call => .call i.data
  | .callIf condition => m.actionIf condition (.call i.data)
  | .ret => .ret
  | .returnIf condition => m.actionIf condition .ret
  | .rst vector => .rst (BitVec.ofNat 8 vector)
  | .pchl => .pchl
  | .push pair => .push pair
  | .pop pair => .pop pair
  | .xthl => .xthl
  | .sphl => .sphl
  | .input => .input i.immediate
  | .output => .output i.immediate
  | .ei => .ei
  | .di => .di
  | .rim => .rim
  | .sim => .sim
  | .nop => .nop
  | .hlt => .hlt

namespace Action

/-- A register operand replaced by a sum or difference of itself, every flag but
the carry set. -/
def count (m : Machine Q) (target : Reg) (x : Alu.Result) : Machine Q :=
  { m with registers := m.registers.commitStep x }.setReg target x.value

/-- The bit of A that lets `SIM` load the mask. -/
def maskSetEnable : Byte := 0x08

/-- The bits of A that `SIM` loads. -/
def interruptMaskBits : Byte := 0x07

/-- The bit in which `RIM` reports the enable latch. -/
def interruptEnableBit : Byte := 0x08

/-- The byte that `RIM` reads: the mask, and above it the enable latch. -/
def interruptStatus (m : Machine Q) : Byte :=
  m.interruptMask ||| if m.interruptsEnabled then interruptEnableBit else 0

/-- The mask after `SIM`. -/
def loadedMask (m : Machine Q) : Byte :=
  if m.registers.a &&& maskSetEnable ≠ 0 then m.registers.a &&& interruptMaskBits
  else m.interruptMask

def apply (action : Action) (m : Machine Q) : Machine Q :=
  match action with
  | mov target source => m.setReg target (m.reg source)
  | mvi target value => m.setReg target value
  | lxi pair value => m.setPair pair value
  | lda address => m.setReg .a (m.memory.read address)
  | sta address => { m with memory := m.memory.write address m.registers.a }
  | lhld address => m.setPair .hl (m.memory.readWord address)
  | shld address => { m with memory := m.memory.writeWord address m.registers.hl }
  | ldax pair => m.setReg .a (m.memory.read (m.registers.pair pair))
  | stax pair =>
    { m with memory := m.memory.write (m.registers.pair pair) m.registers.a }
  | xchg => { m with registers := m.registers.exchange }
  | add value carryIn => { m with registers := m.registers.add value carryIn }
  | sub value borrowIn => { m with registers := m.registers.subtract value borrowIn }
  | ana value => { m with registers := m.registers.and value }
  | xra value => { m with registers := m.registers.xor value }
  | ora value => { m with registers := m.registers.or value }
  | cmp value => { m with registers := m.registers.compare value }
  | inr target => count m target (Alu.add (m.reg target) 1 false)
  | dcr target => count m target (Alu.subtract (m.reg target) 1 false)
  | inx pair => m.setPair pair (m.registers.pair pair + 1)
  | dcx pair => m.setPair pair (m.registers.pair pair - 1)
  | dad pair => { m with registers := m.registers.addToHL (m.registers.pair pair) }
  | daa => { m with registers := m.registers.decimalAdjust }
  | rlc => { m with registers := m.registers.rotateLeft }
  | rrc => { m with registers := m.registers.rotateRight }
  | ral => { m with registers := m.registers.rotateLeftThroughCarry }
  | rar => { m with registers := m.registers.rotateRightThroughCarry }
  | cma => { m with registers := m.registers.complement }
  | cmc => { m with registers := m.registers.complementCarry }
  | stc => { m with registers := m.registers.setCarry }
  | jmp address => m.jump address
  | call address => (m.push m.registers.pc).jump address
  | ret => m.drop.jump m.top
  | rst vector => (m.push m.registers.pc).jump (BitVec.ofNat 16 (8 * vector.toNat))
  | pchl => m.jump m.registers.hl
  | push pair => m.push (m.registers.pair pair)
  | pop pair => m.drop.setPair pair m.top
  | xthl =>
    { m with
      memory := m.memory.writeWord m.registers.sp m.registers.hl
      registers := m.registers.setPair .hl m.top }
  | sphl => { m with registers := { m.registers with sp := m.registers.hl } }
  | input port => m.setReg .a (m.ports.read port)
  | output port => { m with ports := m.ports.write port m.registers.a }
  | ei => { m with interruptsEnabled := true }
  | di => { m with interruptsEnabled := false }
  | rim => m.setReg .a (interruptStatus m)
  | sim => { m with interruptMask := loadedMask m }
  | nop => m
  | hlt => { m with toControl := m.toControl.signalHalt }

/-- What an action reports: traffic on the ports. -/
def events (action : Action) (m : Machine Q) : List Event :=
  match action with
  | input port => [.portRead port]
  | output port => [.portWritten port m.registers.a]
  | _ => []

end Action
end I8085
