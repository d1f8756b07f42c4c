import I8085.Assembler.Program
import I8085.Event

/-!
# What a load reports

Each line that is placed is reported with its bytes, and a program that is placed
whole with its size.  The size is read off the addresses, so it is the number of
bytes modulo 65536.
-/

namespace I8085
namespace Assembler

/-- The reports of the lines from an address up, for a program placed at
`origin`. -/
def loadEventsFrom (origin : Word) : List String → Word → List Event
  | [], cursor => [.programPlaced (cursor - origin) origin]
  | line :: rest, cursor =>
    match encode line with
    | .error _ => []
    | .ok i =>
      .linePlaced cursor line i.bytes ::
        loadEventsFrom origin rest (cursor + BitVec.ofNat 16 i.length)

def loadEvents (lines : List String) (origin : Word) : List Event :=
  loadEventsFrom origin lines origin

end Assembler
end I8085
