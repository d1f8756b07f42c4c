import I8085.Proofs.Instruction.Fetch
import I8085.Proofs.Machine.Frame

/-!
# Executions

`Executes m fs last` says that steps lead from `m` to `last` and carry out the
instructions `fs` on the way.  It is the history of a machine without the rules
of a run: a step looks at no latch and no limit.  Everything a run is said to do
is said through it.
-/

namespace I8085
namespace Machine

variable {Q : Type} [Deque Q]

/-! ## One step -/

theorem step_eq_ok_iff {m next : Machine Q} {f : Fetched} :
    m.step = .ok (f, next) ↔ m.fetch = .ok f ∧ next = m.execute f := by
  unfold step
  cases h : m.fetch with
  | error fault => simp
  | ok g =>
    simp only [Except.ok.injEq, Prod.mk.injEq]
    constructor
    · rintro ⟨rfl, rfl⟩
      exact ⟨rfl, rfl⟩
    · rintro ⟨rfl, rfl⟩
      exact ⟨rfl, rfl⟩

theorem step_eq_error_iff {m : Machine Q} {fault : Fault} :
    m.step = .error fault ↔ Opcode.chart (m.memory.read m.registers.pc) = none ∧
      fault = .illegalOpcode (m.memory.read m.registers.pc) m.registers.pc := by
  rw [← Memory.fetch_eq_error_iff]
  show m.step = .error fault ↔ m.fetch = .error fault
  unfold step
  cases h : m.fetch <;> simp

theorem execute_registers (m : Machine Q) (f : Fetched) : (m.execute f).registers =
    (((m.advance f).action f.toInstruction).apply (m.advance f)).registers := rfl

theorem execute_steps (m : Machine Q) (f : Fetched) : (m.execute f).steps = m.steps + 1 :=
  congrArg (· + 1) (Action.apply_steps _ (m.advance f))

theorem execute_halted (m : Machine Q) (f : Fetched) :
    (m.execute f).halted = (m.halted || decide (f.operation = .hlt)) := by
  have h := Action.apply_halted ((m.advance f).action f.toInstruction) (m.advance f)
  rw [decide_eq_decide.2 ((m.advance f).action_eq_hlt_iff f.toInstruction)] at h
  exact h

theorem execute_pc (m : Machine Q) {f : Fetched} (h : f.operation.isTransfer = false) :
    (m.execute f).registers.pc = f.next :=
  Action.apply_pc (m.advance f) ((m.advance f).isTransfer_action h)

/-- The addresses the next instruction stores at. -/
def stores (m : Machine Q) : List Word :=
  match m.fetch with
  | .error _ => []
  | .ok f => ((m.advance f).action f.toInstruction).stores (m.advance f)

theorem stores_of_fetch {m : Machine Q} {f : Fetched} (hf : m.fetch = .ok f) :
    m.stores = ((m.advance f).action f.toInstruction).stores (m.advance f) := by
  rw [stores, hf]

theorem read_execute_of_not_mem_stores {m : Machine Q} {f : Fetched} {x : Word}
    (hf : m.fetch = .ok f) (h : x ∉ m.stores) :
    (m.execute f).memory.read x = m.memory.read x := by
  rw [stores_of_fetch hf] at h
  exact Action.read_apply_of_not_mem_stores h

/-! ## Several steps -/

/-- From a machine, the instructions one after another lead to another. -/
inductive Executes : Machine Q → List Fetched → Machine Q → Prop
  | refl (m : Machine Q) : Executes m [] m
  | cons {m next last : Machine Q} {f : Fetched} {fs : List Fetched} :
      m.step = .ok (f, next) → Executes next fs last → Executes m (f :: fs) last

namespace Executes

variable {m mid last : Machine Q} {f : Fetched} {fs gs : List Fetched}

theorem single (h : m.step = .ok (f, last)) : Executes m [f] last := .cons h (.refl last)

theorem append (h : Executes m fs mid) (h' : Executes mid gs last) :
    Executes m (fs ++ gs) last := by
  induction h with
  | refl m => exact h'
  | cons hs _ ih => exact .cons hs (ih h')

theorem exists_of_append (h : Executes m (fs ++ gs) last) :
    ∃ mid, Executes m fs mid ∧ Executes mid gs last := by
  induction fs generalizing m with
  | nil => exact ⟨m, .refl m, h⟩
  | cons f fs ih =>
    cases h with
    | cons hs hr =>
      obtain ⟨mid, hfs, hgs⟩ := ih hr
      exact ⟨mid, .cons hs hfs, hgs⟩

theorem eq_of_length_eq {last' : Machine Q} (h : Executes m fs last) (h' : Executes m gs last')
    (hl : fs.length = gs.length) : fs = gs ∧ last = last' := by
  induction h generalizing gs with
  | refl m =>
    cases h' with
    | refl => exact ⟨rfl, rfl⟩
    | cons => cases hl
  | cons hs _ ih =>
    cases h' with
    | refl => cases hl
    | cons hs' hr' =>
      rw [hs] at hs'
      cases hs'
      obtain ⟨rfl, rfl⟩ := ih hr' (Nat.succ.inj hl)
      exact ⟨rfl, rfl⟩

theorem steps_eq (h : Executes m fs last) : last.steps = m.steps + fs.length := by
  induction h with
  | refl m => rfl
  | cons hs _ ih =>
    obtain ⟨_, rfl⟩ := step_eq_ok_iff.1 hs
    rw [ih, execute_steps, List.length_cons]
    omega

theorem halted_eq (h : Executes m fs last) (hfs : ∀ f ∈ fs, f.operation ≠ .hlt) :
    last.halted = m.halted := by
  induction h with
  | refl m => rfl
  | cons hs _ ih =>
    obtain ⟨_, rfl⟩ := step_eq_ok_iff.1 hs
    rw [ih (fun g hg => hfs g (List.mem_cons_of_mem _ hg)), execute_halted,
      decide_eq_false (hfs _ List.mem_cons_self), Bool.or_false]

end Executes
end Machine
end I8085
