import I8085.Memory
import I8085.Text.Hex

/-!
# Memory on paper

A range of memory is printed sixteen cells a line, each line led by the address
of its first cell.  Only the last line may be shorter.
-/

namespace I8085
namespace Console

/-- One line of a dump: `count` cells from an address up. -/
def dumpLine (m : Memory) (address : Word) (count : Nat) : String :=
  Hex.word address ++ ": " ++ String.intercalate " " ((m.bytes address count).map Hex.byte)

def dump (m : Memory) (first last : Word) : List String :=
  let count := last.toNat + 1 - first.toNat
  (List.range ((count + 15) / 16)).map fun row =>
    dumpLine m (first + BitVec.ofNat 16 (16 * row)) (min 16 (count - 16 * row))

end Console
end I8085
