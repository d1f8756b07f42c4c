import I8085.Proofs.Machine.Execution

/-!
# Steps called one after another

Whoever steps a machine is told whether the step succeeded and may call the next in
either case.  `outcome` is what the next call answers with, `stepped` the machine it
leaves and `after` the machine that so many calls leave.  A call that fails leaves the
machine as it was, and so every later one fails in the same way.
-/

namespace I8085
namespace Machine

variable {Q : Type} [Deque Q]

/-- What the next step answers with: the instruction it carries out, or the fault. -/
def outcome (m : Machine Q) : Except Fault Fetched := m.step.map Prod.fst

/-- The machine that the next step leaves. -/
def stepped (m : Machine Q) : Machine Q :=
  match m.step with
  | .error _ => m
  | .ok (_, next) => next

/-- The machine that so many steps leave, failed ones counted too. -/
def after (m : Machine Q) : (count : Nat) → Machine Q
  | 0 => m
  | count + 1 => (m.after count).stepped

variable {m : Machine Q} {f : Fetched} {fault : Fault}

theorem outcome_eq_fetch (m : Machine Q) : m.outcome = m.fetch := by
  unfold outcome step
  cases m.fetch <;> rfl

theorem stepped_of_ok (h : m.fetch = .ok f) : m.stepped = m.execute f := by
  unfold stepped step
  rw [h]

theorem stepped_of_error (h : m.fetch = .error fault) : m.stepped = m := by
  unfold stepped step
  rw [h]

end Machine
end I8085
