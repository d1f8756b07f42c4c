import I8085.Console.Command

/-!
# The program

The part that touches the world: it reads the arguments and at most one file,
prints what the command answers, and ends with its status.  The log goes to the
standard error stream, down to the level that the environment names.
-/

namespace I8085
namespace Console

/-- What the system says of an error. -/
def systemFault : IO.Error → SystemFault
  | .alreadyExists _ code description | .inappropriateType _ code description
  | .interrupted _ code description | .invalidArgument _ code description
  | .noFileOrDirectory _ code description | .noSuchThing _ code description
  | .permissionDenied _ code description | .resourceExhausted _ code description
  | .hardwareFault code description | .illegalOperation code description
  | .otherError code description | .protocolError code description
  | .resourceBusy code description | .resourceVanished code description
  | .timeExpired code description | .unsatisfiedConstraints code description
  | .unsupportedOperation code description => { code := code.toNat, description }
  | .unexpectedEof => { code := 0, description := "unexpected end of file" }
  | .userError description => { code := 0, description }

def readFile (path : String) : IO (Except SystemFault ByteArray) := do
  try
    return .ok (← IO.FS.readBinFile path)
  catch e =>
    return .error (systemFault e)

/-- The files that a command line asks for: the one that is run, if there is one. -/
def filesFor (arguments : List String) : IO (String → Except SystemFault ByteArray) := do
  match (Arguments.parse Command.rules arguments).toOption.bind Command.ofMatches? with
  | some (.run path _) =>
    let content ← readFile path
    return fun _ => content
  | _ => return fun _ => .ok .empty

/-- The level the log is kept down to: errors, unless the environment says
otherwise. -/
def logThreshold : IO (Option Level) := do
  match ← IO.getEnv "I8085_LOG" with
  | none => return some .error
  | some name => return Level.ofName? name

def program (arguments : List String) : IO UInt32 := do
  let files ← filesFor arguments
  let response := respond Mailbox { parse := Arguments.parse, files } arguments
  for record in Record.shown (← logThreshold) response.records do
    IO.eprintln (record.level.name ++ " " ++ record.message)
  for line in response.output do
    IO.println line
  return UInt32.ofNat response.status

end Console
end I8085

def main (arguments : List String) : IO UInt32 := I8085.Console.program arguments
