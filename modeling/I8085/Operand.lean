/-!
# Operands

What an instruction can name: a register, a register pair, a condition, a
restart vector, or a literal that stands in the bytes after the opcode.  Each is
written by the name given here, in upper case and no other way.
-/

namespace I8085

/-- A byte operand: one of the seven registers, or `m`, the memory cell whose
address is in HL. -/
inductive Reg
  | b | c | d | e | h | l | m | a
deriving DecidableEq, Repr

namespace Reg

def all : List Reg := [b, c, d, e, h, l, m, a]

def code : Reg → Nat
  | b => 0
  | c => 1
  | d => 2
  | e => 3
  | h => 4
  | l => 5
  | m => 6
  | a => 7

def name : Reg → String
  | b => "B"
  | c => "C"
  | d => "D"
  | e => "E"
  | h => "H"
  | l => "L"
  | m => "M"
  | a => "A"

end Reg

/-- A word operand.  The program status word is A and the packed flags. -/
inductive Pair
  | bc | de | hl | sp | psw
deriving DecidableEq, Repr

namespace Pair

def all : List Pair := [bc, de, hl, sp, psw]

/-- A pair of registers goes by the name of its high half. -/
def name : Pair → String
  | bc => "B"
  | de => "D"
  | hl => "H"
  | sp => "SP"
  | psw => "PSW"

end Pair

inductive Condition
  | nz | z | nc | c | po | pe | p | m
deriving DecidableEq, Repr

namespace Condition

def all : List Condition := [nz, z, nc, c, po, pe, p, m]

def code : Condition → Nat
  | nz => 0
  | z => 1
  | nc => 2
  | c => 3
  | po => 4
  | pe => 5
  | p => 6
  | m => 7

def name : Condition → String
  | nz => "NZ"
  | z => "Z"
  | nc => "NC"
  | c => "C"
  | po => "PO"
  | pe => "PE"
  | p => "P"
  | m => "M"

end Condition

/-- One operand position of an operation.  A register, a pair and a vector are
part of the opcode; the other three are literals, filled in by each use. -/
inductive Slot
  | reg (r : Reg)
  | pair (p : Pair)
  | vector (n : Fin 8)
  | data8
  | data16
  | address
deriving DecidableEq, Repr

namespace Slot

/-- The bytes that a slot adds behind the opcode. -/
def width : Slot → Nat
  | data8 => 1
  | data16 => 2
  | address => 2
  | _ => 0

/-- A slot filled in by each use. -/
def isLiteral (s : Slot) : Bool := s.width != 0

end Slot

/-- What an operation's operands amount to, from the weakest to the strongest. -/
inductive Shape
  | none | restart | registerPair | register | memory | immediate8 | immediate16 | direct
deriving DecidableEq, Repr

namespace Shape

def rank : Shape → Nat
  | none => 0
  | restart => 1
  | registerPair => 2
  | register => 3
  | memory => 4
  | immediate8 => 5
  | immediate16 => 6
  | direct => 7

def ofSlot : Slot → Shape
  | .reg .m => memory
  | .reg _ => register
  | .pair _ => registerPair
  | .vector _ => restart
  | .data8 => immediate8
  | .data16 => immediate16
  | .address => direct

def stronger (x y : Shape) : Shape := if x.rank < y.rank then y else x

def dominant (slots : List Slot) : Shape :=
  slots.foldl (fun shape slot => stronger shape (ofSlot slot)) none

end Shape
end I8085
