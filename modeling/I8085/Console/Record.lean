import I8085.Event

/-!
# The console's log

The log of a session holds what the assembler and the machine report and what the
console adds: where a file was placed, how the session ended, and what was refused
before it began.
-/

namespace I8085
namespace Console

inductive Record
  | event (event : Event)
  | filePlaced (first : Word) (next : Word)
  | halted (count : Nat)
  | interrupted (address : Word) (count : Nat)
  | failed (fault : Fault)
  | recentlyExecuted (addresses : List Word)
  | unknownSample (name : String)
  | refused (message : String)

namespace Record

def level : Record → Level
  | event e => e.level
  | filePlaced _ _ => .info
  | halted _ => .info
  | interrupted _ _ => .warn
  | failed _ => .error
  | recentlyExecuted _ => .error
  | unknownSample _ => .error
  | refused _ => .error

def interruptText (address : Word) (count : String) : String :=
  "Interrupted at " ++ Hex.word address ++ " after " ++ count ++ " instructions"

def message : Record → String
  | event e => e.message
  | filePlaced first next => "Loaded " ++ Hex.word first ++ ".." ++ Hex.word next
  | halted count => "Halted after " ++ count.repr ++ " instructions"
  | interrupted address count => interruptText address count.repr
  | failed fault => fault.message
  | recentlyExecuted addresses =>
    "Recently executed: " ++ String.intercalate " " (addresses.map Hex.word)
  | unknownSample name =>
    "No bundled program named " ++ name ++ ", see `sim85 list`"
  | refused message => message

def shown (threshold : Option Level) (records : List Record) : List Record :=
  records.filter fun record => record.level.shown threshold

end Record

/-- What a command leaves: whether it succeeded, the lines it printed, and its
log. -/
structure Report where
  succeeded : Bool
  output : List String
  records : List Record

end Console
end I8085
