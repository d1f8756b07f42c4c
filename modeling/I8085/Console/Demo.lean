import I8085.Assembler.Log
import I8085.Console.Session
import I8085.Sample

/-!
# Samples on the console

The samples are listed by name, and one of them is run and checked: after the
registers, each byte that the sample must leave is printed beside the one found.
-/

namespace I8085
namespace Console

/-- The list of the samples, names in a column of eighteen characters. -/
def listing : List String :=
  Sample.all.map fun sample =>
    String.ofList (Text.padEnd 18 sample.name.toList) ++ " " ++ sample.title

/-- Memory with single cells written one after another, a later one winning. -/
def seeded (m : Memory) (cells : List (Word × Byte)) : Memory :=
  cells.foldl (fun m (address, value) => m.write address value) m

def verdict (m : Memory) (address : Word) (expected : Byte) : String :=
  Hex.word address ++ ": " ++ Hex.byte (m.read address) ++ " (expected " ++ Hex.byte expected ++
    ") " ++ if m.read address = expected then "ok" else "MISMATCH"

/-- Runs a sample.  It succeeds if the program halts and every byte is as
expected. -/
def demonstrate (sample : Sample) (limit : Option Nat) (pending : Nat → Bool) : Report :=
  match Assembler.load sample.source Sample.origin (seeded Memory.zero sample.inputs) with
  | (.error e, _) =>
    { succeeded := false
      output := []
      records := [.refused (sample.name ++ ": " ++ e.message)] }
  | (.ok _, memory) =>
    let session : Session := .execute memory {} Sample.origin limit pending
    let left := session.machine.memory
    { succeeded :=
        session.succeeded && sample.expected.all fun (address, value) => left.read address == value
      output :=
        session.machine.registers.text ::
          sample.expected.map fun (address, value) => verdict left address value
      records :=
        (Assembler.loadEvents sample.source Sample.origin).map .event ++ session.records }

end Console
end I8085
