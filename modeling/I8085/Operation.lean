import I8085.Operand

/-!
# Operations

An operation is what one opcode stands for: a mnemonic with its register, pair,
condition or vector already chosen, and its literal still open.  `MOV A,B` and
`MOV A,M` are two operations, `MVI A,12` and `MVI A,34` two uses of one.

The eight operations of the accumulator come in two forms, on a register and on
the byte after the opcode, and are one type here.  The type is wider than the
machine: `LDAX H` and `INX PSW` can be written down, but no opcode stands for
them.
-/

namespace I8085

/-- What is done to the accumulator with a second byte. -/
inductive Arithmetic
  | add | adc | sub | sbb | ana | xra | ora | cmp
deriving DecidableEq, Repr

namespace Arithmetic

def all : List Arithmetic := [add, adc, sub, sbb, ana, xra, ora, cmp]

def mnemonic : Arithmetic → String
  | add => "ADD"
  | adc => "ADC"
  | sub => "SUB"
  | sbb => "SBB"
  | ana => "ANA"
  | xra => "XRA"
  | ora => "ORA"
  | cmp => "CMP"

def immediateMnemonic : Arithmetic → String
  | add => "ADI"
  | adc => "ACI"
  | sub => "SUI"
  | sbb => "SBI"
  | ana => "ANI"
  | xra => "XRI"
  | ora => "ORI"
  | cmp => "CPI"

end Arithmetic

inductive Operation
  | mov (target source : Reg)
  | mvi (target : Reg)
  | lxi (pair : Pair)
  | lda
  | sta
  | lhld
  | shld
  | ldax (pair : Pair)
  | stax (pair : Pair)
  | xchg
  | arithmetic (op : Arithmetic) (source : Reg)
  | immediate (op : Arithmetic)
  | inr (target : Reg)
  | dcr (target : Reg)
  | inx (pair : Pair)
  | dcx (pair : Pair)
  | dad (pair : Pair)
  | daa
  | rlc
  | rrc
  | ral
  | rar
  | cma
  | cmc
  | stc
  | jmp
  | jumpIf (condition : Condition)
  | call
  | callIf (condition : Condition)
  | ret
  | returnIf (condition : Condition)
  | rst (vector : Fin 8)
  | pchl
  | push (pair : Pair)
  | pop (pair : Pair)
  | xthl
  | sphl
  | input
  | output
  | ei
  | di
  | rim
  | sim
  | nop
  | hlt
deriving DecidableEq, Repr

namespace Operation

/-- The mnemonic as it is written.  A conditional transfer is written with its
condition attached: `JNZ`, `CPE`, `RM`. -/
def mnemonic : Operation → String
  | mov _ _ => "MOV"
  | mvi _ => "MVI"
  | lxi _ => "LXI"
  | lda => "LDA"
  | sta => "STA"
  | lhld => "LHLD"
  | shld => "SHLD"
  | ldax _ => "LDAX"
  | stax _ => "STAX"
  | xchg => "XCHG"
  | arithmetic op _ => op.mnemonic
  | immediate op => op.immediateMnemonic
  | inr _ => "INR"
  | dcr _ => "DCR"
  | inx _ => "INX"
  | dcx _ => "DCX"
  | dad _ => "DAD"
  | daa => "DAA"
  | rlc => "RLC"
  | rrc => "RRC"
  | ral => "RAL"
  | rar => "RAR"
  | cma => "CMA"
  | cmc => "CMC"
  | stc => "STC"
  | jmp => "JMP"
  | jumpIf condition => "J" ++ condition.name
  | call => "CALL"
  | callIf condition => "C" ++ condition.name
  | ret => "RET"
  | returnIf condition => "R" ++ condition.name
  | rst _ => "RST"
  | pchl => "PCHL"
  | push _ => "PUSH"
  | pop _ => "POP"
  | xthl => "XTHL"
  | sphl => "SPHL"
  | input => "IN"
  | output => "OUT"
  | ei => "EI"
  | di => "DI"
  | rim => "RIM"
  | sim => "SIM"
  | nop => "NOP"
  | hlt => "HLT"

def slots : Operation → List Slot
  | mov target source => [.reg target, .reg source]
  | mvi target => [.reg target, .data8]
  | lxi pair => [.pair pair, .data16]
  | lda | sta | lhld | shld | jmp | call | jumpIf _ | callIf _ => [.address]
  | ldax pair | stax pair | inx pair | dcx pair | dad pair | push pair | pop pair => [.pair pair]
  | arithmetic _ source => [.reg source]
  | inr target | dcr target => [.reg target]
  | immediate _ | input | output => [.data8]
  | rst vector => [.vector vector]
  | _ => []

/-- The bytes of an instruction: the opcode and what its slots add. -/
def length (o : Operation) : Nat := 1 + (o.slots.map Slot.width).foldr (· + ·) 0

def shape (o : Operation) : Shape := Shape.dominant o.slots

end Operation
end I8085
