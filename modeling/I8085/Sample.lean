import I8085.Word

/-!
# Sample programs

Exercises of an introductory course: each comes with bytes to seed memory with,
a source, and the bytes that memory must hold once it has halted.  Operands are
taken from `C050` on and results put behind them.
-/

namespace I8085

/-- A program with the bytes it is given and the bytes it must leave. -/
structure Sample where
  name : String
  title : String
  inputs : List (Word × Byte)
  source : List String
  expected : List (Word × Byte)
deriving DecidableEq

namespace Sample

/-- Where every sample is placed and started. -/
def origin : Word := 0

def onesComplement : Sample where
  name := "ones-complement"
  title := "1's complement of an 8-bit number"
  inputs := [(0xC050, 0x96)]
  source := ["LDA C050", "CMA", "STA C051", "HLT"]
  expected := [(0xC051, 0x69)]

def twosComplement : Sample where
  name := "twos-complement"
  title := "2's complement of an 8-bit number"
  inputs := [(0xC050, 0x96)]
  source := ["LDA C050", "CMA", "INR A", "STA C051", "HLT"]
  expected := [(0xC051, 0x6A)]

def add : Sample where
  name := "add"
  title := "Addition of two 8-bit numbers"
  inputs := [(0xC050, 0x55), (0xC051, 0x66)]
  source := ["LXI H,C050", "MOV A,M", "INX H", "ADD M", "STA C052", "HLT"]
  expected := [(0xC052, 0xBB)]

def subtract : Sample where
  name := "subtract"
  title := "Subtraction of two 8-bit numbers"
  inputs := [(0xC050, 0x95), (0xC051, 0x65)]
  source := ["LXI H,C050", "MOV A,M", "INX H", "SUB M", "INX H", "MOV M,A", "HLT"]
  expected := [(0xC052, 0x30)]

def shiftLeft : Sample where
  name := "shift-left"
  title := "Shift an 8-bit number left by 1 bit"
  inputs := [(0xC050, 0x65)]
  source := ["LDA C050", "ADD A", "STA C051", "HLT"]
  expected := [(0xC051, 0xCA)]

def squareTable : List (Word × Byte) :=
  [(0xC060, 0), (0xC061, 1), (0xC062, 4), (0xC063, 9), (0xC064, 16),
   (0xC065, 25), (0xC066, 36), (0xC067, 49), (0xC068, 64), (0xC069, 81)]

def square : Sample where
  name := "square"
  title := "Find a square from a lookup table"
  inputs := squareTable ++ [(0xC050, 9)]
  source := ["LDA C050", "ADI 60", "MOV L,A", "MVI H,C0", "MOV A,M", "STA C051", "HLT"]
  expected := [(0xC051, 0x51)]

def bcdSubtract : Sample where
  name := "bcd-subtract"
  title := "8-bit decimal subtraction (10's complement when negative)"
  inputs := [(0xC050, 0x99), (0xC051, 0x48)]
  source :=
    ["LXI H,C051", "MVI A,99", "SUB M", "INR A", "DCX H", "ADD M", "DAA", "STA C052", "HLT"]
  expected := [(0xC052, 0x51)]

def maskLow : Sample where
  name := "mask-low"
  title := "Mask off the least significant 4 bits"
  inputs := [(0xC050, 0x96)]
  source := ["LDA C050", "ANI F0", "STA C051", "HLT"]
  expected := [(0xC051, 0x90)]

def maskHigh : Sample where
  name := "mask-high"
  title := "Mask off the most significant 4 bits"
  inputs := [(0xC050, 0x96)]
  source := ["LDA C050", "ANI 0F", "STA C051", "HLT"]
  expected := [(0xC051, 0x06)]

def shift16 : Sample where
  name := "shift16"
  title := "Shift a 16-bit number left by 1 bit"
  inputs := [(0xC050, 0x96), (0xC051, 0x75)]
  source := ["LHLD C050", "DAD H", "SHLD C052", "HLT"]
  expected := [(0xC052, 0x2C), (0xC053, 0xEB)]

def shift16By2 : Sample where
  name := "shift16-by-2"
  title := "Shift a 16-bit number left by 2 bits"
  inputs := [(0xC050, 0x96), (0xC051, 0x15)]
  source := ["LHLD C050", "DAD H", "DAD H", "SHLD C052", "HLT"]
  expected := [(0xC052, 0x58), (0xC053, 0x56)]

def onesComplement16 : Sample where
  name := "ones-complement16"
  title := "1's complement of a 16-bit number"
  inputs := [(0xC050, 0x85), (0xC051, 0x54)]
  source :=
    ["LXI H,C050", "MOV A,M", "CMA", "STA C052", "INX H", "MOV A,M", "CMA", "STA C053", "HLT"]
  expected := [(0xC052, 0x7A), (0xC053, 0xAB)]

/-- The loop at `000D` adds the first factor once for every count of the second. -/
def multiply : Sample where
  name := "multiply"
  title := "Multiply two 8-bit numbers by repeated addition"
  inputs := [(0xC050, 0x12), (0xC051, 0x0A)]
  source :=
    ["LDA C050", "MOV E,A", "MVI D,00", "LDA C051", "MOV C,A", "LXI H,0000",
     "DAD D", "DCR C", "JNZ 000D", "SHLD C052", "HLT"]
  expected := [(0xC052, 0xB4), (0xC053, 0x00)]

/-- The subroutine at `0015` adds one byte and leaves the loop's counter as it
found it. -/
def sum : Sample where
  name := "sum"
  title := "Sum four bytes through a subroutine"
  inputs := [(0xC050, 0x11), (0xC051, 0x22), (0xC052, 0x33), (0xC053, 0x44)]
  source :=
    ["LXI SP,D000", "LXI H,C050", "MVI C,04", "XRA A", "CALL 0015", "INX H", "DCR C",
     "JNZ 0009", "STA C054", "HLT", "PUSH B", "MVI C,00", "ADD M", "POP B", "RET"]
  expected := [(0xC054, 0xAA)]

/-- Every sample, in the order they are listed. -/
def all : List Sample :=
  [onesComplement, twosComplement, add, subtract, shiftLeft, square, bcdSubtract, maskLow,
   maskHigh, shift16, shift16By2, onesComplement16, multiply, sum]

/-- The sample of a name. -/
def find? (name : String) : Option Sample := all.find? fun sample => sample.name == name

end Sample
end I8085
