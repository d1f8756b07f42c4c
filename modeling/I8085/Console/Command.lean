import I8085.Console.Arguments
import I8085.Console.Interrupt
import I8085.Console.RunFile

/-!
# Commands

The program takes one of three commands: list the samples, run a sample, run a
file.  Each answers with an exit status, the lines it printed and its log; the
status is 0 for a success and 1 for a failure or a command line that is refused.
A second interrupt that comes before the first was seen ends the program with the
status that its handler asks for.
-/

namespace I8085
namespace Console

inductive Command
  | list
  | demo (name : String) (maxSteps : Option String)
  | run (path : String) (options : RunOptions)
deriving DecidableEq

/-- The program as it has ended. -/
structure Response where
  status : Nat
  output : List String := []
  records : List Record := []

namespace Response

/-- A program that asks to end with a code.  The lowest eight bits of the code are its
status, and what was said before stays said. -/
def exit (said : Response) (code : Int) : Response :=
  { said with status := (code % 256).toNat }

/-- A program that has not said anything yet. -/
def silent : Response := { status := 0 }

end Response

namespace Command

def maxStepsRule : OptionRule := { name := "max-steps" }

def rules : List CommandRules :=
  [{ command := "list" },
    { command := "demo", plain := ["NAME"], options := [maxStepsRule] },
    { command := "run"
      plain := ["FILE"]
      options :=
        [{ name := "origin", fallback := some "0000" }, { name := "start" },
          { name := "set", repeated := true }, maxStepsRule, { name := "dump" }] }]

def ofMatches? (m : Matches) : Option Command :=
  match m.command with
  | "list" => some list
  | "demo" => some (demo ((m.value? "NAME").getD "") (m.value? "max-steps"))
  | "run" =>
    some <| run ((m.value? "FILE").getD "")
      { origin := (m.value? "origin").getD "0000"
        start := m.value? "start"
        maxSteps := m.value? "max-steps"
        dump := m.value? "dump"
        set := m.values "set" }
  | _ => none

def status (succeeded : Bool) : Nat := if succeeded then 0 else 1

def failure (record : Record) : Response := { status := 1, records := [record] }

/-- Runs a sample by name.  An unknown name is reported before a bad step count. -/
def runDemo (name : String) (maxSteps : Option String) (pending : Nat → Bool) : Response :=
  match Sample.find? name with
  | none => failure (.unknownSample name)
  | some sample =>
    match Setting.optional Setting.stepCount maxSteps with
    | .error e => failure (.refused e.message)
    | .ok limit =>
      let report := demonstrate sample limit pending
      { status := status report.succeeded, output := report.output, records := report.records }

def runPath (path : String) (content : Except SystemFault ByteArray) (options : RunOptions)
    (pending : Nat → Bool) : Response :=
  let report := runFile path content options pending
  match report.result with
  | .ok succeeded =>
    { status := status succeeded, output := report.output, records := report.records }
  | .error e =>
    { status := 1, output := report.output, records := report.records ++ [.refused e.message] }

def perform (files : String → Except SystemFault ByteArray) (pending : Nat → Bool) :
    Command → Response
  | list => { status := 0, output := listing }
  | demo name maxSteps => runDemo name maxSteps pending
  | run path options => runPath path (files path) options pending

end Command

/-- What the program finds around it when it is started: whether the handler of interrupts
could be set, the parser of its arguments, and the files.  The moments are those that pass
until the arguments are parsed and then until the source is read; an interrupt that comes
later is for the session to find. -/
structure Surroundings where
  handlerSet : Except String Unit := .ok ()
  parse : Parser
  files : String → Except SystemFault ByteArray
  parsing : List Moment := []
  reading : List Moment := []

/-- The program goes on, unless the handler has ended it. -/
def Keyboard.unlessExited {C : Type} (k : Keyboard C) (said further : Response) : Response :=
  match k.handler with
  | .exited code => said.exit code
  | _ => further

section

variable (C : Type) [Channel C]

def respond (s : Surroundings) (arguments : List String) : Response :=
  match s.handlerSet with
  | .error fault => Command.failure (.refused ("Signal handler failed: " ++ fault))
  | .ok () =>
    let parsed : Keyboard C := Keyboard.start.after s.parsing
    parsed.unlessExited .silent <|
      match s.parse Command.rules arguments with
      | .error .refused => Response.silent.exit 1
      | .error .helpAsked => Response.silent.exit 0
      | .ok m =>
        let read := parsed.after s.reading
        read.unlessExited .silent <|
          match Command.ofMatches? m with
          | none => Command.failure (.refused "Invalid subcommand specified")
          | some command => command.perform s.files fun _ => read.isPending

end

end Console
end I8085
