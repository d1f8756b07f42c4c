/-!
# Interrupts from the keyboard

An interrupt calls a handler that runs beside the program.  It leaves a message in a
channel with room for one, where the running session looks for it; nobody takes it out
again.  A handler that finds the channel full ends the program at once: an interrupt has
come already and was not seen.

The channel is left open: `Channel` has what is asked of one and `LawfulChannel` what it
promises.  Left open too is when the handler is called, so `Moment` has the calls apart
from the interrupts that they answer.
-/

namespace I8085
namespace Console

/-! ## Channels -/

/-- A channel whose receiver is there as long as the program runs. -/
class Channel (C : Type) where
  /-- A channel that can hold so many messages. -/
  bounded : (capacity : Nat) → C
  isFull : C → Bool
  isEmpty : C → Bool
  /-- The channel with one more message, or none as long as the sender has to wait. -/
  send : C → Option C
  /-- The messages in the channel. -/
  len : C → Nat
  capacity : C → Nat

/-- What is promised of a channel: it begins empty, it tells whether it is full or empty, a
message is taken while there is room for it, and otherwise the sender waits. -/
class LawfulChannel (C : Type) [Channel C] : Prop where
  len_bounded (capacity : Nat) : Channel.len (Channel.bounded capacity : C) = 0
  capacity_bounded (capacity : Nat) : Channel.capacity (Channel.bounded capacity : C) = capacity
  isFull_iff (c : C) : Channel.isFull c = true ↔ Channel.len c = Channel.capacity c
  isEmpty_iff (c : C) : Channel.isEmpty c = true ↔ Channel.len c = 0
  send_of_room (c : C) : Channel.len c < Channel.capacity c → ∃ d, Channel.send c = some d ∧
    Channel.len d = Channel.len c + 1 ∧ Channel.capacity d = Channel.capacity c
  send_of_full (c : C) : Channel.len c = Channel.capacity c → Channel.send c = none

/-- A channel of which only the number of messages matters. -/
structure Mailbox where
  room : Nat
  waiting : Nat := 0
deriving DecidableEq

namespace Mailbox

def send (box : Mailbox) : Option Mailbox :=
  if box.waiting < box.room then some { box with waiting := box.waiting + 1 } else none

instance : Channel Mailbox where
  bounded room := { room }
  isFull box := box.waiting == box.room
  isEmpty box := box.waiting == 0
  send := send
  len := waiting
  capacity := room

instance : LawfulChannel Mailbox where
  len_bounded _ := rfl
  capacity_bounded _ := rfl
  isFull_iff box := show (box.waiting == box.room) = true ↔ _ from beq_iff_eq
  isEmpty_iff box := show (box.waiting == 0) = true ↔ _ from beq_iff_eq
  send_of_room _ room := ⟨_, if_pos room, rfl, rfl⟩
  send_of_full _ full := if_neg (Nat.not_lt_of_le (Nat.le_of_eq full.symm))

end Mailbox

/-! ## The handler -/

/-- How far the handler is with the interrupt that it was called for. -/
inductive Handler
  | idle
  | looking
  | sending
  /-- It has ended the program. -/
  | exited (code : Int)
deriving DecidableEq

/-- The channel and the handler that sends through it. -/
structure Keyboard (C : Type) where
  channel : C
  handler : Handler := .idle

/-- What can come next: an interrupt, a call of the handler, a step of the handler, or a
look of the session. -/
inductive Moment
  | interrupt
  | call
  | handler
  | look
deriving DecidableEq

namespace Keyboard

variable {C : Type} [Channel C]

def start : Keyboard C := { channel := Channel.bounded 1 }

/-- The handler goes one step on, if it can: it looks whether the channel is full, and then
it sends or ends the program. -/
def handle (k : Keyboard C) : Keyboard C :=
  match k.handler with
  | .idle => k
  | .looking => { k with handler := if Channel.isFull k.channel then .exited (-1) else .sending }
  | .sending =>
    match Channel.send k.channel with
    | some channel => { channel, handler := .idle }
    | none => k
  | .exited _ => k

/-- A handler that is called begins with its look, unless it is not back from another
call. -/
def called (k : Keyboard C) : Keyboard C :=
  match k.handler with
  | .idle => { k with handler := .looking }
  | _ => k

def next (k : Keyboard C) : Moment → Keyboard C
  | .interrupt => k
  | .call => k.called
  | .handler => k.handle
  | .look => k

def after (k : Keyboard C) (moments : List Moment) : Keyboard C := moments.foldl next k

/-- Whether a session that looks finds an interrupt. -/
def isPending (k : Keyboard C) : Bool := !Channel.isEmpty k.channel

end Keyboard
end Console
end I8085
