import I8085.Machine.Step

/-!
# Runs

A machine is followed step by step until its halt latch is set, a step fails, or a
check that is made before each step finds a reason to stop.  The latch is looked at
before the check: a machine that has halted takes no step, and needs none to be
left to it.  `follow` is this loop, for any check that goes by the counter, and a
`Journey` has all that comes of it.

A run checks what the counter has gained since it began against its limit.  One
without a limit may go on for ever, and it is followed for as many steps as the
counter can tell apart.  If it has not ended by then it is said to have used up that
many, which is an answer that the program itself never gives.
-/

namespace I8085

/-- What is noted while a machine is followed. -/
structure Notes where
  /-- What the counter showed each time the check was made. -/
  looks : List Nat := []
  executed : List Fetched := []
  events : List Event := []

namespace Notes

def looked (past : Notes) (count : Nat) : Notes := { past with looks := count :: past.looks }

def reported (past : Notes) (events : List Event) : Notes :=
  { past with events := events.reverse ++ past.events }

def carriedOut (past : Notes) (f : Fetched) : Notes := { past with executed := f :: past.executed }

/-- Notes that were taken the latest first, in the order of what they note. -/
def inOrder (past : Notes) : Notes where
  looks := past.looks.reverse
  executed := past.executed.reverse
  events := past.events.reverse

end Notes

/-- How a machine that was followed came to its end. -/
inductive Ending (ε : Type)
  | halted
  | stopped (reason : ε)
  | faulted (fault : Fault)
  | unfinished
deriving DecidableEq

namespace Ending

/-- What an ending means for a run under a limit that executed so many instructions. -/
def result (executed : Nat) : Ending Nat → Except Fault Nat
  | halted => .ok executed
  | stopped limit => .error (.stepLimitExceeded limit)
  | faulted fault => .error fault
  | unfinished => .error (.stepLimitExceeded countRange)

/-- What such a run reports of its ending. -/
def events (executed : Nat) (pc : Word) : Ending Nat → List Event
  | halted => [.runHalted pc executed]
  | stopped limit => [.limitReached limit pc]
  | faulted _ | unfinished => []

end Ending

/-- What comes of following a machine: how it ended, the machine that is left, and the
notes. -/
structure Journey (ε : Type) (Q : Type := Trail) extends Notes where
  ending : Ending ε
  machine : Machine Q

namespace Machine

variable {ε Q : Type} [Deque Q]

/-- Follows a machine for at most so many steps, with notes on what is `past`, the
latest first. -/
def followFrom (check : (count : Nat) → Option ε) :
    (left : Nat) → Machine Q → (past : Notes) → Journey ε Q
  | left, m, past =>
    if m.halted then { past.inOrder with ending := .halted, machine := m }
    else
      match check m.steps with
      | some reason =>
        { (past.looked m.steps).inOrder with ending := .stopped reason, machine := m }
      | none =>
        match left with
        | 0 => { (past.looked m.steps).inOrder with ending := .unfinished, machine := m }
        | left + 1 =>
          let told := (past.looked m.steps).reported m.stepEvents
          match m.step with
          | .error fault => { told.inOrder with ending := .faulted fault, machine := m }
          | .ok (f, next) => followFrom check left next (told.carriedOut f)

def follow (check : (count : Nat) → Option ε) (left : Nat) (m : Machine Q) : Journey ε Q :=
  m.followFrom check left {}

/-! ## Runs under a limit -/

/-- The limit, if as many instructions were executed since the counter was at
`start`. -/
def overLimit (limit : Option Nat) (start count : Nat) : Option Nat :=
  match limit with
  | some limit => if limit ≤ count - start then some limit else none
  | none => none

/-- The steps a run is followed for. -/
def bound (limit : Option Nat) : Nat := limit.getD countRange

def journey (limit : Option Nat) (m : Machine Q) : Journey Nat Q :=
  m.follow (overLimit limit m.steps) (bound limit)

/-- Runs the machine.  Answers with the number of instructions executed by this
run, or with the fault that ended it. -/
def run (limit : Option Nat) (m : Machine Q) : Except Fault Nat × Machine Q :=
  let whole := m.journey limit
  (whole.ending.result (whole.machine.steps - m.steps), whole.machine)

def runFrom (start : Word) (limit : Option Nat) (m : Machine Q) :
    Except Fault Nat × Machine Q :=
  run limit (m.jump start)

/-- The reports of a run, in the order they are made. -/
def runEvents (limit : Option Nat) (m : Machine Q) : List Event :=
  let whole := m.journey limit
  .runStarted m.registers.pc ::
    (whole.events ++
      whole.ending.events (whole.machine.steps - m.steps) whole.machine.registers.pc)

end Machine
end I8085
