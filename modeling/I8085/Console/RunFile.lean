import I8085.Console.Demo
import I8085.Console.Dump
import I8085.Console.Setting
import I8085.Console.Source
import I8085.Console.SystemFault

/-!
# Running a source file

The file is read, the settings are read, memory is seeded, the program is placed
over it, and a session is held; then the registers are printed, and the range
that was asked for.  The first of these that fails is reported and nothing after
it happens, so a fault before the session leaves nothing printed.
-/

namespace I8085
namespace Console

/-- Why a file could not be had as text: the system does not give it, or its bytes
are not UTF-8. -/
inductive ReadFault
  | system (fault : SystemFault)
  | notText
deriving DecidableEq

def ReadFault.message : ReadFault → String
  | system fault => fault.message
  | notText => "stream did not contain valid UTF-8"

inductive FileError
  | unreadable (path : String) (fault : ReadFault)
  | setting (error : SettingError)
  | line (path : String) (number : Nat) (cause : AsmError) (address : Word)
deriving DecidableEq

def FileError.message : FileError → String
  | unreadable path fault => path ++ ": " ++ fault.message
  | setting error => error.message
  | line path number cause address =>
    path ++ ":" ++ number.repr ++ ": " ++ cause.message ++ " (address " ++ Hex.word address ++ ")"

/-- What running a file leaves: whether the program halted, or why it was not run;
the lines that were printed; and the log. -/
structure FileReport where
  result : Except FileError Bool
  output : List String
  records : List Record

/-- The settings of a run as they are written.  Without a start the program is
started where it is placed. -/
structure RunOptions where
  origin : String := "0000"
  start : Option String := none
  maxSteps : Option String := none
  dump : Option String := none
  set : List String := []
deriving DecidableEq

structure RunSettings where
  origin : Word
  start : Word
  limit : Option Nat
  range : Option (Word × Word)

/-- The settings, read in the order origin, start, limit, range. -/
def RunOptions.settings (o : RunOptions) : Except SettingError RunSettings := do
  let origin ← Setting.address o.origin
  let start ← Setting.optional Setting.address o.start
  let limit ← Setting.optional Setting.stepCount o.maxSteps
  let range ← Setting.optional Setting.range o.dump
  return { origin, start := start.getD origin, limit, range }

def fileText (path : String) (content : Except SystemFault ByteArray) :
    Except FileError String :=
  match content with
  | .error fault => .error (.unreadable path (.system fault))
  | .ok bytes =>
    match String.fromUTF8? bytes with
    | some text => .ok text
    | none => .error (.unreadable path .notText)

/-- What a bad line of the program is called in its file. -/
def lineError (path : String) (lines : List SourceLine) (e : LoadError) : FileError :=
  .line path ((lines.map SourceLine.number)[e.line]?.getD 0) e.cause e.address

def printed (m : Machine) (range : Option (Word × Word)) : List String :=
  m.registers.text ::
    match range with
    | none => []
    | some (first, last) => dump m.memory first last

/-- A file that was read, with its settings and the memory it is placed over. -/
structure Job where
  path : String
  settings : RunSettings
  lines : List SourceLine
  memory : Memory

namespace Job

/-- Everything up to the placing of the program. -/
def ofFile (path : String) (content : Except SystemFault ByteArray) (options : RunOptions) :
    Except FileError Job := do
  let text ← fileText path content
  let settings ← options.settings.mapError .setting
  let cells ← (options.set.mapM Setting.cell).mapError .setting
  return { path, settings, lines := SourceLine.ofText text, memory := seeded Memory.zero cells }

def program (j : Job) : List String := j.lines.map SourceLine.text

def run (j : Job) (pending : Nat → Bool) : FileReport :=
  let placing := (Assembler.loadEvents j.program j.settings.origin).map .event
  match Assembler.load j.program j.settings.origin j.memory with
  | (.error e, _) =>
    { result := .error (lineError j.path j.lines e), output := [], records := placing }
  | (.ok next, memory) =>
    let session : Session := .execute memory {} j.settings.start j.settings.limit pending
    { result := .ok session.succeeded
      output := printed session.machine j.settings.range
      records := placing ++ .filePlaced j.settings.origin next :: session.records }

end Job

def runFile (path : String) (content : Except SystemFault ByteArray) (options : RunOptions)
    (pending : Nat → Bool) : FileReport :=
  match Job.ofFile path content options with
  | .error e => { result := .error e, output := [], records := [] }
  | .ok job => job.run pending

end Console
end I8085
