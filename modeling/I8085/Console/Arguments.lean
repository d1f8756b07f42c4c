import I8085.Text.Fields

/-!
# Arguments of a command

What may stand behind a command's name is described by rules, and a parser that is given
the rules of all commands makes of a command line the values of its arguments, or ends
the program.  Any parser will do; `Arguments.parse` is the one the program comes with.

A command takes some plain arguments and some named options, each of
which takes a value, in any order.  A value stands behind an equals sign or is the
next argument; an argument that begins with a dash is never taken for a value,
a lone dash excepted.  Two dashes by themselves end the options.

Reading stops at the first argument that cannot be placed.  What is left for the
end is what only the whole tells: a plain argument that is missing, an option
that was given twice, an option that was left without a value.
-/

namespace I8085
namespace Console

inductive Argument
  /-- Two dashes and nothing else. -/
  | endOfOptions
  /-- A name behind dashes, perhaps with a value behind an equals sign. -/
  | option (name : String) (value : Option String)
  /-- A dash with letters behind it; the first of them. -/
  | letter (c : Char)
  | plain (text : String)
deriving DecidableEq

namespace Argument

def isDash (c : Char) : Bool := c == '-'

/-- A name and its value.  All dashes in front of the name are dropped, and all
equals signs in front of the value. -/
def optionOf (text : List Char) : Argument :=
  match Text.cut? '=' text with
  | none => option (String.ofList (text.dropWhile isDash)) none
  | some (name, value) =>
    option (String.ofList (name.dropWhile isDash))
      (some (String.ofList (value.dropWhile (· == '='))))

def ofText (text : String) : Argument :=
  match text.toList with
  | ['-', '-'] => endOfOptions
  | '-' :: '-' :: rest => optionOf rest
  | '-' :: c :: _ => letter c
  | _ => plain text

end Argument

/-- An option of a command.  One that may be repeated collects its values; one
with a fallback has that value when it was given none. -/
structure OptionRule where
  name : String
  repeated : Bool := false
  fallback : Option String := none

/-- What a command takes: plain arguments, which must be there, and options. -/
structure CommandRules where
  command : String
  plain : List String := []
  options : List OptionRule := []

/-- What a parser makes of a command line: the command, and the values of its arguments by
name, the first of them or all. -/
structure Matches where
  command : String
  value? : String → Option String
  values : String → List String

/-- The arguments of a command: the plain ones in order, and every use of an option
with the value it got. -/
structure Arguments where
  plain : List String := []
  uses : List (String × Option String) := []

/-- Why a parser ends the program. -/
inductive ArgumentEnd
  | refused
  | helpAsked
deriving DecidableEq

abbrev Parser := List CommandRules → List String → Except ArgumentEnd Matches

/-- The options every command has, by name and by letter: they ask for help or for
the version. -/
def asksHelp : Argument → Bool
  | .option name _ => name == "help" || name == "version"
  | .letter c => c == 'h' || c == 'V'
  | _ => false

namespace Arguments

def values (a : Arguments) (name : String) : List String :=
  a.uses.filterMap fun (used, value) => if used = name then value else none

def value? (a : Arguments) (name : String) : Option String := (a.values name).head?

/-- One more plain argument, if there is room for it. -/
def addPlain (rules : CommandRules) (a : Arguments) (text : String) : Option Arguments :=
  if a.plain.length < rules.plain.length then some { a with plain := a.plain ++ [text] } else none

def addUse (a : Arguments) (name : String) (value : Option String) : Arguments :=
  { a with uses := a.uses ++ [(name, value)] }

/-- An option whose value did not come is noted as used without one. -/
def settle (awaiting : Option String) (a : Arguments) : Arguments :=
  match awaiting with
  | some name => a.addUse name none
  | none => a

/-- Reads arguments.  `ended` says that options are over, and `awaiting` names the
option whose value may come next. -/
def readFrom (rules : CommandRules) (ended : Bool) (awaiting : Option String) (a : Arguments) :
    List String → Except ArgumentEnd Arguments
  | [] => .ok (settle awaiting a)
  | text :: rest =>
    if ended then
      match addPlain rules a text with
      | some a => readFrom rules true awaiting a rest
      | none => .error .refused
    else
      match Argument.ofText text, awaiting with
      | .endOfOptions, _ => readFrom rules true awaiting a rest
      | .letter c, _ => .error (if asksHelp (.letter c) then .helpAsked else .refused)
      | .option name value, _ =>
        if asksHelp (.option name value) then .error .helpAsked
        else if rules.options.any fun rule => rule.name == name then
          match value with
          | some value => readFrom rules false none ((settle awaiting a).addUse name value) rest
          | none => readFrom rules false (some name) (settle awaiting a) rest
        else .error .refused
      | .plain value, some name => readFrom rules false none (a.addUse name value) rest
      | .plain text, none =>
        match addPlain rules a text with
        | some a => readFrom rules false none a rest
        | none => .error .refused

def obeys (a : Arguments) (rule : OptionRule) : Bool :=
  let uses := a.uses.filter fun use => use.1 = rule.name
  (rule.repeated || uses.length ≤ 1) &&
    (uses.isEmpty || uses.any (fun use => use.2.isSome) || rule.fallback.isSome)

def read (rules : CommandRules) (texts : List String) : Except ArgumentEnd Arguments := do
  let a ← readFrom rules false none {} texts
  if a.plain.length = rules.plain.length ∧ rules.options.all a.obeys then return a
  else .error .refused

/-- The values by name.  A plain argument has the name that stands at its place in the
rules. -/
def matched (rules : CommandRules) (a : Arguments) : Matches where
  command := rules.command
  value? name :=
    match (rules.plain.zip a.plain).lookup name with
    | some text => some text
    | none => a.value? name
  values := a.values

/-- Help may be asked for by name, for a command or for itself. -/
def helpOf (commands : List CommandRules) : List String → ArgumentEnd
  | [] => .helpAsked
  | [name] =>
    if name = "help" || commands.any fun rules => rules.command == name then .helpAsked
    else .refused
  | _ => .refused

/-- Reads a command line whose first argument is the name of a command. -/
def parse : Parser
  | _, [] => .error .refused
  | commands, text :: rest =>
    match commands.find? fun rules => rules.command == text with
    | some rules => (read rules rest).map (matched rules)
    | none =>
      if text = "help" then .error (helpOf commands rest)
      else .error (if asksHelp (Argument.ofText text) then .helpAsked else .refused)

end Arguments
end Console
end I8085
