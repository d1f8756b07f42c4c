/-!
# Faults of the system

A file that is asked for may not be had, and then the system says why in words and
by a number.
-/

namespace I8085
namespace Console

/-- An error as the system tells it. -/
structure SystemFault where
  code : Nat
  description : String
deriving DecidableEq

def SystemFault.message (f : SystemFault) : String :=
  f.description ++ " (os error " ++ f.code.repr ++ ")"

end Console
end I8085
