import I8085.Console.Record
import I8085.Machine.Run

/-!
# Sessions

A session runs a machine for a person who may interrupt it.  Before every step it
looks, in this order, whether the machine has halted, whether an interrupt waits,
and whether the limit is reached; so a machine that has halted is never reported
as interrupted, and an interrupt is never lost to the limit.
-/

namespace I8085
namespace Console

inductive Outcome
  | halted
  | interrupted
  | failed (fault : Fault)
deriving DecidableEq

/-- A session that has ended: how, the machine it left, and its log. -/
structure Session (Q : Type := Trail) where
  outcome : Outcome
  machine : Machine Q
  records : List Record

namespace Session

/-- What ends a session before its next step, if anything does.  `pending n` says whether
an interrupt waits once `n` instructions are executed. -/
def stop (pending : Nat → Bool) (limit : Option Nat) (count : Nat) : Option Outcome :=
  if pending count then some .interrupted
  else
    match limit with
    | some limit => if limit ≤ count then some (.failed (.stepLimitExceeded limit)) else none
    | none => none

def outcomeOf : Ending Outcome → Outcome
  | .halted => .halted
  | .stopped outcome => outcome
  | .faulted fault => .failed fault
  | .unfinished => .failed (.stepLimitExceeded countRange)

variable {Q : Type}

def succeeded (s : Session Q) : Bool := s.outcome == .halted

variable [Deque Q]

def journey (pending : Nat → Bool) (limit : Option Nat) (m : Machine Q) : Journey Outcome Q :=
  m.follow (stop pending limit) (Machine.bound limit)

def closing (outcome : Outcome) (m : Machine Q) : List Record :=
  match outcome with
  | .halted => [.halted m.steps]
  | .interrupted => [.interrupted m.registers.pc m.steps]
  | .failed fault => [.failed fault, .recentlyExecuted m.recent]

/-- The session that a journey comes to. -/
def ofJourney (whole : Journey Outcome Q) : Session Q where
  outcome := outcomeOf whole.ending
  machine := whole.machine
  records := whole.events.map .event ++ closing (outcomeOf whole.ending) whole.machine

/-- A session on a fresh machine with the given memory and registers, started at
an address. -/
def execute (memory : Memory) (registers : Registers) (start : Word) (limit : Option Nat)
    (pending : Nat → Bool) : Session Q :=
  let machine : Machine Q := { memory, registers := { registers with pc := start } }
  ofJourney (journey pending limit machine)

end Session
end Console
end I8085
