import I8085.Assembler.Line

/-!
# Placing a program in memory

The lines of a program are encoded in order and written one behind the other.
The first line that stands for no instruction ends the load; what was written
before it stays written.
-/

namespace I8085
namespace Assembler

def assemble (lines : List String) : List (Except AsmError Instruction) := lines.map encode

/-- Places the lines from an address up, counting them from `index`.  Answers with
the address behind the last byte, or the first bad line. -/
def loadFrom (index : Nat) : List String → Word → Memory → Except LoadError Word × Memory
  | [], cursor, memory => (.ok cursor, memory)
  | line :: rest, cursor, memory =>
    match encode line with
    | .error cause => (.error { line := index, address := cursor, cause }, memory)
    | .ok i =>
      loadFrom (index + 1) rest (cursor + BitVec.ofNat 16 i.length) (memory.load cursor i.bytes)

def load (lines : List String) (origin : Word) (memory : Memory) :
    Except LoadError Word × Memory :=
  loadFrom 0 lines origin memory

end Assembler
end I8085
