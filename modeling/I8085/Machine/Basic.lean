import I8085.Control
import I8085.Memory
import I8085.Ports
import I8085.Registers
import I8085.Trail

/-!
# The machine

The state of the computer between two instructions.  Memory and registers are
what a program is about; the ports and the interrupt latches are reached through
a few instructions only; the trail and the count are kept for whoever watches;
the halt latch ends a run.
-/

namespace I8085

/-- The computer between two instructions, its trail in a queue of the given kind. -/
structure Machine (Q : Type := Trail) extends Control where
  memory : Memory
  registers : Registers
  ports : Ports := Ports.zero
  /-- Set by `EI`, cleared by `DI`. -/
  interruptsEnabled : Bool := false
  /-- The mask that `SIM` loads. -/
  interruptMask : Byte := 0
  trail : Q := by exact Deque.empty
  /-- Instructions executed. -/
  steps : Nat := 0

namespace Machine

variable {Q : Type}

/-- The addresses of the latest instructions, the oldest first. -/
def recent [Deque Q] (m : Machine Q) : List Word := Deque.toList m.trail

def reg (m : Machine Q) : Reg → Byte
  | .b => m.registers.b
  | .c => m.registers.c
  | .d => m.registers.d
  | .e => m.registers.e
  | .h => m.registers.h
  | .l => m.registers.l
  | .m => m.memory.read m.registers.hl
  | .a => m.registers.a

def setReg (m : Machine Q) (r : Reg) (value : Byte) : Machine Q :=
  match r with
  | .b => { m with registers := { m.registers with b := value } }
  | .c => { m with registers := { m.registers with c := value } }
  | .d => { m with registers := { m.registers with d := value } }
  | .e => { m with registers := { m.registers with e := value } }
  | .h => { m with registers := { m.registers with h := value } }
  | .l => { m with registers := { m.registers with l := value } }
  | .m => { m with memory := m.memory.write m.registers.hl value }
  | .a => { m with registers := { m.registers with a := value } }

def setPair (m : Machine Q) (p : Pair) (w : Word) : Machine Q :=
  { m with registers := m.registers.setPair p w }

def jump (m : Machine Q) (address : Word) : Machine Q :=
  { m with registers := { m.registers with pc := address } }

/-! ## The stack

It grows downwards.  The stack pointer is at the low byte of the top word. -/

def top (m : Machine Q) : Word := m.memory.readWord m.registers.sp

def push (m : Machine Q) (w : Word) : Machine Q :=
  { m with
    memory := m.memory.writeWord (m.registers.sp - 2) w
    registers := { m.registers with sp := m.registers.sp - 2 } }

def drop (m : Machine Q) : Machine Q :=
  { m with registers := { m.registers with sp := m.registers.sp + 2 } }

end Machine
end I8085
