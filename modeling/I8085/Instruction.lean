import I8085.Fault
import I8085.Memory
import I8085.Opcode

/-!
# Instructions

An instruction is an entry of the opcode chart with its literal filled in.  It
has two written forms, the bytes in memory and the line of assembly text, and
`fetch` reads the first of them back from an address.
-/

namespace I8085

/-- An operation with its literal; an operation without one has zero there. -/
structure Instruction where
  entry : Entry
  data : Word
deriving DecidableEq

namespace Instruction

def operation (i : Instruction) : Operation := i.entry.operation

def length (i : Instruction) : Nat := i.entry.length

/-- The literal of an operation that takes a byte. -/
def immediate (i : Instruction) : Byte := Word.low i.data

/-- The literal as it stands behind the opcode, low byte first. -/
def operandBytes (i : Instruction) : List Byte :=
  [Word.low i.data, Word.high i.data].take (i.length - 1)

def bytes (i : Instruction) : List Byte := i.entry.opcode :: i.operandBytes

/-- An operand as it is written: a name, a digit, or the literal's hexadecimal
numeral. -/
def operandText (i : Instruction) : Slot → List Char
  | .reg r => r.name.toList
  | .pair p => p.name.toList
  | .vector n => [Hex.digit n]
  | .data8 => Hex.print 2 i.immediate.toNat
  | .data16 => Hex.print 4 i.data.toNat
  | .address => Hex.print 4 i.data.toNat

/-- The operands with a comma between them, set off by a blank if there are any. -/
def operandsText (i : Instruction) : List Char :=
  match i.entry.slots with
  | [] => []
  | slots => ' ' :: List.intercalate [','] (slots.map i.operandText)

def text (i : Instruction) : String := i.entry.mnemonic ++ String.ofList i.operandsText

end Instruction

structure Fetched extends Instruction where
  address : Word
deriving DecidableEq

namespace Fetched

def next (f : Fetched) : Word := f.address + BitVec.ofNat 16 f.length

end Fetched

namespace Memory

/-- The literal of so many bytes that stands at an address. -/
def literal (m : Memory) (address : Word) : (width : Nat) → Word
  | 0 => 0
  | 1 => Word.ofByte (m.read address)
  | _ => m.readWord address

/-- The instruction at an address.  Its operand bytes follow the opcode and may
continue at `0000`. -/
def fetch (m : Memory) (address : Word) : Except Fault Fetched :=
  match Entry.ofOpcode? (m.read address) with
  | none => .error (.illegalOpcode (m.read address) address)
  | some entry =>
    .ok { entry, data := m.literal (address + 1) (entry.length - 1), address }

end Memory
end I8085
