import I8085.Instruction
import I8085.Text.Blank

/-!
# Events

What the assembler and the machine have to report besides their results.  An
event is a value, with a level that says how much it matters and a message that
says it in words; which levels are shown is for whoever collects them.
-/

namespace I8085

/-- How much an event matters, the gravest first. -/
inductive Level
  | error | warn | info | debug | trace
deriving DecidableEq, Repr

namespace Level

def all : List Level := [error, warn, info, debug, trace]

def name : Level → String
  | error => "ERROR"
  | warn => "WARN"
  | info => "INFO"
  | debug => "DEBUG"
  | trace => "TRACE"

/-- The level of a name in either case.  Any other name, such as `off`, is none. -/
def ofName? (name : String) : Option Level := all.find? fun level => level.name == name.toUpper

def rank : Level → Nat
  | error => 1
  | warn => 2
  | info => 3
  | debug => 4
  | trace => 5

/-- Whether an event of level `l` is shown when the log is kept down to a
threshold.  Without one nothing is. -/
def shown (l : Level) : (threshold : Option Level) → Bool
  | none => false
  | some t => decide (l.rank ≤ t.rank)

end Level

/-- Something that happened while a program was placed or executed. -/
inductive Event
  | linePlaced (address : Word) (line : String) (bytes : List Byte)
  | programPlaced (count : Word) (origin : Word)
  | illegalOpcode (opcode : Byte) (address : Word)
  | executing (instruction : Fetched)
  | portRead (port : Byte)
  | portWritten (port : Byte) (value : Byte)
  | runStarted (address : Word)
  | limitReached (limit : Nat) (address : Word)
  | runHalted (address : Word) (count : Nat)

namespace Event

def level : Event → Level
  | linePlaced _ _ _ => .debug
  | programPlaced _ _ => .debug
  | illegalOpcode _ _ => .error
  | executing _ => .trace
  | portRead _ => .debug
  | portWritten _ _ => .debug
  | runStarted _ => .debug
  | limitReached _ _ => .warn
  | runHalted _ _ => .debug

def bytesText (bytes : List Byte) : String :=
  "[" ++ String.intercalate ", " (bytes.map Hex.byte) ++ "]"

def message : Event → String
  | linePlaced address line bytes =>
    Hex.word address ++ ": " ++ String.ofList (Text.padEnd 14 (Text.trim line.toList)) ++ " " ++
      bytesText bytes
  | programPlaced count origin =>
    "Loaded " ++ count.toNat.repr ++ " bytes at " ++ Hex.word origin
  | illegalOpcode opcode address =>
    "Illegal opcode " ++ Hex.byte opcode ++ " at " ++ Hex.word address
  | executing instruction => Hex.word instruction.address ++ ": " ++ instruction.text
  | portRead port => "Reading from I/O port: " ++ Hex.byte port
  | portWritten port value =>
    "Writing to I/O port: " ++ Hex.byte port ++ " with value " ++ Hex.byte value
  | runStarted address => "Run started at " ++ Hex.word address
  | limitReached limit address =>
    "Step limit of " ++ limit.repr ++ " reached at " ++ Hex.word address
  | runHalted address count =>
    "Halted at " ++ Hex.word address ++ " after " ++ count.repr ++ " instructions"

end Event

/-- What a fetch reports: nothing unless it fails. -/
def Memory.fetchEvents (m : Memory) (address : Word) : List Event :=
  match m.fetch address with
  | .error (.illegalOpcode opcode at_) => [.illegalOpcode opcode at_]
  | _ => []

end I8085
