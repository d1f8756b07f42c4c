import I8085.Machine.Action

/-!
# One instruction

A step fetches the instruction at the program counter and executes it.  A fetch
that fails is the only way for a step to fail, and then there is no new state at
all; an instruction that is fetched is carried out and counted.
-/

namespace I8085
namespace Machine

variable {Q : Type}

def fetch (m : Machine Q) : Except Fault Fetched := m.memory.fetch m.registers.pc

def counted (m : Machine Q) : Machine Q := { m with steps := m.steps + 1 }

variable [Deque Q]

/-- The machine about to carry out a fetched instruction: the trail has its
address and the program counter is past it. -/
def advance (m : Machine Q) (f : Fetched) : Machine Q :=
  { m with
    trail := Deque.record m.trail f.address
    registers := { m.registers with pc := f.next } }

def execute (m : Machine Q) (f : Fetched) : Machine Q :=
  (((m.advance f).action f.toInstruction).apply (m.advance f)).counted

/-- One instruction: what it was, and the machine after it. -/
@[inline]
def step (m : Machine Q) : Except Fault (Fetched × Machine Q) :=
  match m.fetch with
  | .error fault => .error fault
  | .ok f => .ok (f, m.execute f)

/-- What a step reports: the instruction before it is carried out, then the
traffic it causes; or the opcode that is none. -/
def stepEvents (m : Machine Q) : List Event :=
  match m.fetch with
  | .error _ => m.memory.fetchEvents m.registers.pc
  | .ok f =>
    .executing f :: ((m.advance f).action f.toInstruction).events (m.advance f)

end Machine
end I8085
