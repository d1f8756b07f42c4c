import I8085.Word

/-!
# Input and output ports

No device is attached: each of the 256 ports remembers the byte last written to
it and gives that byte back.
-/

namespace I8085

structure Ports where
  latches : Vector Byte 256
deriving DecidableEq

namespace Ports

def zero : Ports := ⟨Vector.replicate 256 0⟩

instance : Inhabited Ports := ⟨zero⟩

/-- Every byte is the number of a port. -/
theorem toNat_lt (port : Byte) : port.toNat < 256 := port.isLt

def read (p : Ports) (port : Byte) : Byte := getElem p.latches port.toNat (toNat_lt port)

def write (p : Ports) (port : Byte) (value : Byte) : Ports :=
  ⟨p.latches.set port.toNat value (toNat_lt port)⟩

@[simp]
theorem read_zero (x : Byte) : zero.read x = 0 := by
  simp [zero, read]

theorem read_write (p : Ports) (x y : Byte) (v : Byte) :
    (p.write x v).read y = if x = y then v else p.read y := by
  simp only [read, write, Vector.getElem_set, BitVec.toNat_inj]

end Ports
end I8085
