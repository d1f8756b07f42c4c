/-!
# The halt latch

The latch that ends a run.  It belongs to whoever runs the machine: the halt
instruction sets it, and only its owner clears it.
-/

namespace I8085

@[ext]
structure Control where
  halted : Bool := false
deriving DecidableEq, Inhabited

namespace Control

def signalHalt (c : Control) : Control := { c with halted := true }

@[simp]
theorem halted_signalHalt (c : Control) : c.signalHalt.halted = true := rfl

/-- Clears the latch for another run. -/
def reset (c : Control) : Control := { c with halted := false }

end Control
end I8085
