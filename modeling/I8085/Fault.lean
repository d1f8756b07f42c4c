import I8085.Text.Hex

/-!
# Faults of a run

Two things end a run other than a halt: an opcode that stands for nothing, and
the limit that was set on the number of instructions.
-/

namespace I8085

inductive Fault
  | illegalOpcode (opcode : Byte) (address : Word)
  | stepLimitExceeded (limit : Nat)
deriving DecidableEq

namespace Fault

def message : Fault → String
  | illegalOpcode opcode address =>
    "illegal opcode " ++ Hex.byte opcode ++ " at " ++ Hex.word address
  | stepLimitExceeded limit => "program did not halt within " ++ limit.repr ++ " steps"

end Fault
end I8085
