import I8085.Text.Hex

/-!
# What can be wrong with a line

A line is refused for its mnemonic, for operands that fit no form of the
mnemonic, or for a literal that has the wrong digits.  A program is refused for
its first bad line, named by its place in the program and in memory.
-/

namespace I8085

inductive AsmError
  | unknownMnemonic
  | invalidOperand
  | malformedImmediate (digits : Nat)
deriving DecidableEq

/-- The first bad line of a program: its index, counted from zero, and the address
it would have been placed at. -/
structure LoadError where
  line : Nat
  address : Word
  cause : AsmError
deriving DecidableEq

def AsmError.message : AsmError → String
  | unknownMnemonic => "unknown mnemonic"
  | invalidOperand => "invalid operand"
  | malformedImmediate digits =>
    "malformed immediate, expected " ++ digits.repr ++ " hex digits"

/-- The error as it is reported, with lines counted from one. -/
def LoadError.message (e : LoadError) : String :=
  "line " ++ (e.line + 1).repr ++ " (address " ++ Hex.word e.address ++ "): " ++ e.cause.message

end I8085
