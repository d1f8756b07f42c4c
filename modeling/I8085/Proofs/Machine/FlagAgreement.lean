import I8085.Proofs.Machine.Calls
import I8085.Proofs.Machine.Flags

/-!
# Flags that agree with each other

Zero, sign and parity tell of one result where they are set together: a result of zero has even
parity and no sign.  Some operations set none of the three, the others all of them, so the three
go on agreeing; only flags that come from the stack need not.  One step is gone through by the
kind of its operation, and a run by induction on its steps, failed ones included.
-/

namespace I8085

/-- If the flags tell of a result of zero, they tell of its parity and sign too. -/
def Flags.Agree (f : Flags) : Prop := f.z = true → f.p = true ∧ f.s = false

theorem Flags.Reflects.agree {f : Flags} {result : Byte} (h : f.Reflects result) : f.Agree := by
  obtain ⟨hz, hs, hp⟩ := h
  intro hzero
  obtain rfl := hz.1 hzero
  exact ⟨hp, hs⟩

theorem Flags.agree_clear : Flags.Agree {} := fun h => Bool.noConfusion h

namespace Machine

variable {m : Machine} {f : Fetched} {condition : Condition}

/-! ## One step -/

/-- A comparison has the flags of the subtraction that it is. -/
theorem agree_execute_of_comparison {o : Operation} (h : f.operation.subtraction? = some o) :
    (m.execute f).registers.flags.Agree := by
  obtain ⟨g, hg, -, -, heq⟩ := execute_of_comparison (m := m) h
  have hresult : g.operation.result? = some .a := by
    rw [hg]
    obtain ⟨source, -, rfl⟩ | ⟨-, rfl⟩ := Operation.comparison_cases h <;> rfl
  rw [heq, setReg_flags]
  exact (execute_reflects hresult).agree

theorem agree_execute (h : m.registers.flags.Agree) (hf : f.operation ≠ .pop .psw) :
    (m.execute f).registers.flags.Agree := by
  cases hcarry : f.operation.setsCarryOnly with
  | true =>
    rw [execute_flags_of_carryOnly hcarry]
    exact h
  | false =>
    cases hresult : f.operation.result? with
    | some target => exact (execute_reflects hresult).agree
    | none =>
      -- A comparison names no result, as it stores none, and sets the flags all the same.
      cases hcomparison : f.operation.subtraction? with
      | some o => exact agree_execute_of_comparison hcomparison
      | none =>
        rw [execute_flags_of_other hcarry hresult hcomparison hf]
        exact h

/-- The next step does not take the flags from the stack. -/
def KeepsStatus (m : Machine) : Prop := ∀ f, m.outcome = .ok f → f.operation ≠ .pop .psw

theorem agree_stepped (h : m.registers.flags.Agree) (hkeeps : m.KeepsStatus) :
    m.stepped.registers.flags.Agree := by
  cases hfetch : m.fetch with
  | error fault =>
    rw [stepped_of_error hfetch]
    exact h
  | ok f =>
    rw [stepped_of_ok hfetch]
    exact agree_execute h (hkeeps f ((outcome_eq_fetch m).trans hfetch))

/-! ## Every number of steps -/

theorem agree_after (h : m.registers.flags.Agree) {count : Nat}
    (hkeeps : ∀ k < count, (m.after k).KeepsStatus) :
    (m.after count).registers.flags.Agree := by
  induction count with
  | zero => exact h
  | succ count ih =>
    have hbefore := ih fun k hk => hkeeps k (Nat.lt_succ_of_lt hk)
    exact agree_stepped hbefore (hkeeps count (Nat.lt_succ_self count))

/-- The machine carries out the conditional transfer that it fetched. -/
def Takes (m : Machine) (f : Fetched) : Prop := (m.advance f).action f.toInstruction ≠ .nop

theorem actionIf_ne_nop_iff {action : Action} (h : action ≠ .nop) :
    m.actionIf condition action ≠ .nop ↔ m.registers.holds condition = true := by
  unfold actionIf
  split
  · next holds => exact iff_of_true h holds
  · next fails => exact iff_of_false (fun ne => ne rfl) fails

theorem takes_iff_holds
    (h : f.operation ∈ [.jumpIf condition, .callIf condition, .returnIf condition]) :
    m.Takes f ↔ m.registers.holds condition = true := by
  simp only [List.mem_cons, List.not_mem_nil, or_false] at h
  unfold Takes action
  obtain ho | ho | ho := h
  all_goals
    rw [show f.toInstruction.operation = _ from ho]
    exact actionIf_ne_nop_iff (m := m.advance f) Action.noConfusion

/-- From flags that are all clear, and as long as none are taken from the stack, every step leaves
zero only with even parity and without sign, so zero and sign are never set together.  What is
taken because a result is zero would be taken for even parity and for no sign too. -/
theorem flags_agree_after {count : Nat} (hclear : m.registers.flags = {})
    (hkeeps : ∀ k < count, (m.after k).KeepsStatus) :
    let r := (m.after count).registers
    (r.flags.z = true → r.flags.p = true ∧ r.flags.s = false) ∧
    ¬(r.flags.z = true ∧ r.flags.s = true) ∧
    ∀ f next, (m.after count).step = .ok (f, next) →
      f.operation ∈ [.jumpIf .z, .callIf .z, .returnIf .z] → (m.after count).Takes f →
      r.holds .pe = true ∧ r.holds .p = true := by
  intro r
  have hagree : r.flags.Agree := agree_after (hclear ▸ Flags.agree_clear) hkeeps
  refine ⟨hagree, fun ⟨hz, hs⟩ => ?_, fun f next _ hf htakes => ?_⟩
  · exact Bool.noConfusion ((hagree hz).2.symm.trans hs)
  · obtain ⟨hp, hs⟩ := hagree ((takes_iff_holds hf).1 htakes)
    exact ⟨hp, congrArg Bool.not hs⟩

/-- `XRA A` in the last cell and `RZ` in the first, which is taken. -/
theorem flags_agree_after_clearing :
    ∃ (m next : Machine) (f : Fetched), m.registers.flags = {} ∧ m.KeepsStatus ∧
      (m.after 1).step = .ok (f, next) ∧ f.operation = .returnIf .z ∧ (m.after 1).Takes f ∧
      (m.after 1).registers.holds .pe = true ∧ (m.after 1).registers.holds .p = true := by
  let xra : Fetched :=
    { entry := ⟨0xAF, .arithmetic .xra .a, rfl⟩, data := 0, address := 0xFFFF }
  let rz : Fetched := { entry := ⟨0xC8, .returnIf .z, rfl⟩, data := 0, address := 0 }
  let m : Machine :=
    { memory := (Memory.zero.load 0 rz.bytes).load 0xFFFF xra.bytes
      registers := { a := 5, pc := 0xFFFF } }
  have xra_fits : xra.Fits := show (0#16).toNat < 256 ^ 0 by decide
  have rz_fits : rz.Fits := show (0#16).toNat < 256 ^ 0 by decide
  have hxra : m.fetch = .ok xra := Memory.fetch_load xra_fits _ 0xFFFF
  have moved : m.after 1 = m.execute xra := stepped_of_ok hxra
  have wrapped : (m.execute xra).registers.pc = 0 := show xra.next = 0 by decide
  have hrz : (m.after 1).fetch = .ok rz := by
    rw [moved, fetch, wrapped]
    refine Memory.fetch_congr (Memory.fetch_load rz_fits Memory.zero 0) fun i hi => ?_
    obtain rfl : i = 0 := Nat.lt_one_iff.1 hi
    exact Memory.read_load_of_ne (by decide)
  have keeps : m.KeepsStatus := by
    intro f hf
    rw [outcome_eq_fetch] at hf
    cases hxra.symm.trans hf
    decide
  have asks : rz.operation ∈ [.jumpIf .z, .callIf .z, .returnIf .z] := by decide
  have takes : (m.after 1).Takes rz := by
    rw [takes_iff_holds asks, moved]
    decide
  have step : (m.after 1).step = .ok (rz, (m.after 1).execute rz) := step_eq_ok_iff.2 ⟨hrz, rfl⟩
  have always : ∀ k < 1, (m.after k).KeepsStatus := fun k hk => by
    obtain rfl : k = 0 := Nat.lt_one_iff.1 hk
    exact keeps
  obtain ⟨-, -, transfer⟩ := flags_agree_after rfl always
  exact ⟨m, _, rz, rfl, keeps, step, rfl, takes, transfer rz _ step asks takes⟩

end Machine
end I8085
