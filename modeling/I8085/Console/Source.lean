import I8085.Text.Blank
import I8085.Text.Fields

/-!
# Source files

A source file holds one instruction a line.  A semicolon begins a comment, and a
line with nothing in front of its comment is skipped; the others keep their place
in the file, so that an error can be told by it.  A carriage return before the
end of a line is white space like any other.
-/

namespace I8085
namespace Console

/-- An instruction's line in a file, counted from one. -/
structure SourceLine where
  number : Nat
  text : String
deriving DecidableEq

namespace SourceLine

/-- The part of a line in front of its comment, without white space around it. -/
def instructionText (line : List Char) : List Char := Text.trim (Text.upTo ';' line)

def ofLine? (line : List Char) (number : Nat) : Option SourceLine :=
  match instructionText line with
  | [] => none
  | text => some { number, text := String.ofList text }

def ofText (text : String) : List SourceLine :=
  ((Text.fields '\n' text.toList).zipIdx 1).filterMap fun (line, number) => ofLine? line number

end SourceLine
end Console
end I8085
