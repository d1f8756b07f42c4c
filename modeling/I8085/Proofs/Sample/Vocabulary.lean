import I8085.Instruction

/-!
# The instructions of the samples

Each is written down as its opcode, the operation that the chart has for it, and its literal.
-/

namespace I8085
namespace Sample
namespace Vocabulary

/-- The entry of an opcode whose operation has been looked up in the chart. -/
def entry (opcode : Byte) (operation : Operation)
    (h : decide (Opcode.chart opcode = some operation) = true) : Entry :=
  ⟨opcode, operation, of_decide_eq_true h⟩

/-! ## Moves -/

def lda (x : Word) : Instruction := ⟨entry 0x3A .lda rfl, x⟩

def sta (x : Word) : Instruction := ⟨entry 0x32 .sta rfl, x⟩

def lhld (x : Word) : Instruction := ⟨entry 0x2A .lhld rfl, x⟩

def shld (x : Word) : Instruction := ⟨entry 0x22 .shld rfl, x⟩

def lxiHL (x : Word) : Instruction := ⟨entry 0x21 (.lxi .hl) rfl, x⟩

def lxiSP (x : Word) : Instruction := ⟨entry 0x31 (.lxi .sp) rfl, x⟩

def mviA (b : Byte) : Instruction := ⟨entry 0x3E (.mvi .a) rfl, Word.ofByte b⟩

def mviC (b : Byte) : Instruction := ⟨entry 0x0E (.mvi .c) rfl, Word.ofByte b⟩

def mviD (b : Byte) : Instruction := ⟨entry 0x16 (.mvi .d) rfl, Word.ofByte b⟩

def mviH (b : Byte) : Instruction := ⟨entry 0x26 (.mvi .h) rfl, Word.ofByte b⟩

def movAM : Instruction := ⟨entry 0x7E (.mov .a .m) rfl, 0⟩

def movMA : Instruction := ⟨entry 0x77 (.mov .m .a) rfl, 0⟩

def movCA : Instruction := ⟨entry 0x4F (.mov .c .a) rfl, 0⟩

def movEA : Instruction := ⟨entry 0x5F (.mov .e .a) rfl, 0⟩

def movLA : Instruction := ⟨entry 0x6F (.mov .l .a) rfl, 0⟩

/-! ## Arithmetic -/

def addA : Instruction := ⟨entry 0x87 (.arithmetic .add .a) rfl, 0⟩

def addM : Instruction := ⟨entry 0x86 (.arithmetic .add .m) rfl, 0⟩

def subM : Instruction := ⟨entry 0x96 (.arithmetic .sub .m) rfl, 0⟩

def xraA : Instruction := ⟨entry 0xAF (.arithmetic .xra .a) rfl, 0⟩

def adi (b : Byte) : Instruction := ⟨entry 0xC6 (.immediate .add) rfl, Word.ofByte b⟩

def ani (b : Byte) : Instruction := ⟨entry 0xE6 (.immediate .ana) rfl, Word.ofByte b⟩

def inrA : Instruction := ⟨entry 0x3C (.inr .a) rfl, 0⟩

def dcrC : Instruction := ⟨entry 0x0D (.dcr .c) rfl, 0⟩

def inxHL : Instruction := ⟨entry 0x23 (.inx .hl) rfl, 0⟩

def dcxHL : Instruction := ⟨entry 0x2B (.dcx .hl) rfl, 0⟩

def dadDE : Instruction := ⟨entry 0x19 (.dad .de) rfl, 0⟩

def dadHL : Instruction := ⟨entry 0x29 (.dad .hl) rfl, 0⟩

def daa : Instruction := ⟨entry 0x27 .daa rfl, 0⟩

def cma : Instruction := ⟨entry 0x2F .cma rfl, 0⟩

/-! ## Control and the stack -/

def jnz (x : Word) : Instruction := ⟨entry 0xC2 (.jumpIf .nz) rfl, x⟩

def call (x : Word) : Instruction := ⟨entry 0xCD .call rfl, x⟩

def ret : Instruction := ⟨entry 0xC9 .ret rfl, 0⟩

def pushBC : Instruction := ⟨entry 0xC5 (.push .bc) rfl, 0⟩

def popBC : Instruction := ⟨entry 0xC1 (.pop .bc) rfl, 0⟩

def hlt : Instruction := ⟨entry 0x76 .hlt rfl, 0⟩

end Vocabulary
end Sample
end I8085
