import I8085.Proofs.Machine.Journey

/-!
# A run is its steps

A run that starts with the latch clear follows the steps of the machine up to
the first halt, the first byte that is no opcode, or the last step it may take,
whichever comes first.  A halt in the last step it may take still counts as a
halt.
-/

namespace I8085
namespace Machine

variable {m mid last next : Machine} {f : Fetched} {fs : List Fetched} {k j : Nat}

/-- The `k`-th step is the first to execute a halt, and it leaves `last`. -/
def HaltsAt (m : Machine) (k : Nat) (last : Machine) : Prop :=
  ∃ fs f, m.Executes (fs ++ [f]) last ∧ HaltFree fs ∧ f.operation = .hlt ∧ k = fs.length + 1

/-- The `j`-th step is the first to find no opcode, in `last`, and no halt came
before it. -/
def FaultsAt (m : Machine) (j : Nat) (last : Machine) : Prop :=
  ∃ fs, m.Executes fs last ∧ HaltFree fs ∧
    Opcode.chart (last.memory.read last.registers.pc) = none ∧ j = fs.length + 1

theorem HaltsAt.cons (hs : m.step = .ok (f, next)) (hf : f.operation ≠ .hlt)
    (h : next.HaltsAt k last) : m.HaltsAt (k + 1) last := by
  obtain ⟨fs, g, he, hfree, hg, rfl⟩ := h
  exact ⟨f :: fs, g, .cons hs he, hfree.cons hf, hg, rfl⟩

theorem FaultsAt.cons (hs : m.step = .ok (f, next)) (hf : f.operation ≠ .hlt)
    (h : next.FaultsAt j last) : m.FaultsAt (j + 1) last := by
  obtain ⟨fs, he, hfree, hnone, rfl⟩ := h
  exact ⟨f :: fs, .cons hs he, hfree.cons hf, hnone, rfl⟩

/-! ## The loop -/

section Loop

variable {ε : Type} {check : Nat → Option ε} {left : Nat}

theorem follow_of_haltsAt (h : m.halted = false) (hk : m.HaltsAt k last)
    (hcheck : ∀ i < k, check (m.steps + i) = none) (hb : k ≤ left) :
    (m.follow check left).ending = .halted ∧ (m.follow check left).machine = last := by
  obtain ⟨fs, f, he, hfree, hf, rfl⟩ := hk
  obtain ⟨mid, hfs, hlast⟩ := he.exists_of_append
  cases hlast with
  | cons hs hr =>
    cases hr
    obtain ⟨_, rfl⟩ := step_eq_ok_iff.1 hs
    have hmid : mid.halted = false := (hfs.halted_eq hfree).trans h
    have hend : (mid.execute f).halted = true := by
      rw [execute_halted, hmid, decide_eq_true hf, Bool.or_true]
    have hpass : check mid.steps = none := by
      rw [hfs.steps_eq]
      exact hcheck fs.length (Nat.lt_succ_self _)
    obtain ⟨notes, -, hrest⟩ := exists_notes_of_executes hfs hfree h
    have hsplit : left = fs.length + (left - fs.length - 1 + 1) := by omega
    rw [hsplit, hrest check fun i hi => hcheck i (Nat.lt_succ_of_lt hi),
      follow_succ_of_ok hmid hpass hs, follow_of_halted check hend]
    exact ⟨rfl, rfl⟩

theorem follow_of_faultsAt (h : m.halted = false) (hj : m.FaultsAt j last)
    (hcheck : ∀ i < j, check (m.steps + i) = none) (hb : j ≤ left) :
    (m.follow check left).ending =
        .faulted (.illegalOpcode (last.memory.read last.registers.pc) last.registers.pc) ∧
      (m.follow check left).machine = last := by
  obtain ⟨fs, he, hfree, hnone, rfl⟩ := hj
  have hlast : last.halted = false := (he.halted_eq hfree).trans h
  have hpass : check last.steps = none := by
    rw [he.steps_eq]
    exact hcheck fs.length (Nat.lt_succ_self _)
  obtain ⟨notes, -, hrest⟩ := exists_notes_of_executes he hfree h
  have hsplit : left = fs.length + (left - fs.length - 1 + 1) := by omega
  rw [hsplit, hrest check fun i hi => hcheck i (Nat.lt_succ_of_lt hi),
    follow_succ_of_error hlast hpass (step_eq_error_iff.2 ⟨hnone, rfl⟩)]
  exact ⟨rfl, rfl⟩

theorem follow_of_executes {reason : ε} (h : m.halted = false) (he : m.Executes fs last)
    (hfree : HaltFree fs) (hcheck : ∀ i < fs.length, check (m.steps + i) = none)
    (hstop : check (m.steps + fs.length) = some reason) (hb : fs.length ≤ left) :
    (m.follow check left).ending = .stopped reason ∧ (m.follow check left).machine = last := by
  have hlast : last.halted = false := (he.halted_eq hfree).trans h
  obtain ⟨notes, -, hrest⟩ := exists_notes_of_executes he hfree h
  obtain ⟨spare, rfl⟩ := Nat.exists_eq_add_of_le hb
  rw [hrest check hcheck, follow_of_stop hlast (he.steps_eq.symm ▸ hstop)]
  exact ⟨rfl, rfl⟩

end Loop

/-- Within any number of steps there is a halt, a fault, or that many
instructions without either. -/
theorem exists_executes (m : Machine) (bound : Nat) :
    (∃ k ≤ bound, ∃ last, m.HaltsAt k last) ∨ (∃ j ≤ bound, ∃ last, m.FaultsAt j last) ∨
      ∃ fs last, m.Executes fs last ∧ HaltFree fs ∧ fs.length = bound := by
  induction bound generalizing m with
  | zero => exact .inr (.inr ⟨[], m, .refl m, .nil, rfl⟩)
  | succ bound ih =>
    cases hs : m.step with
    | error fault =>
      have hnone := (step_eq_error_iff.1 hs).1
      exact .inr (.inl ⟨1, Nat.le_add_left 1 bound, m, [], .refl m, .nil, hnone, rfl⟩)
    | ok p =>
      obtain ⟨f, next⟩ := p
      by_cases hf : f.operation = .hlt
      · exact .inl ⟨1, Nat.le_add_left 1 bound, next, [], f, .single hs, .nil, hf, rfl⟩
      · rcases ih next with ⟨k, hk, last, h⟩ | ⟨j, hj, last, h⟩ | ⟨fs, last, he, hfree, hl⟩
        · exact .inl ⟨k + 1, Nat.succ_le_succ hk, last, h.cons hs hf⟩
        · exact .inr (.inl ⟨j + 1, Nat.succ_le_succ hj, last, h.cons hs hf⟩)
        · exact .inr (.inr ⟨f :: fs, last, .cons hs he, hfree.cons hf, congrArg (· + 1) hl⟩)

/-! ## The run -/

theorem executes_journey (limit : Option Nat) (m : Machine) :
    m.Executes (m.journey limit).executed (m.journey limit).machine :=
  executes_follow (overLimit limit m.steps) (bound limit) m

theorem overLimit_of_lt {limit : Option Nat} {i : Nat} (h : i < bound limit) (start : Nat) :
    overLimit limit start (start + i) = none := by
  cases limit with
  | none => rfl
  | some limit =>
    have hi : i < limit := h
    rw [overLimit, if_neg (by omega)]

theorem overLimit_of_eq (limit start : Nat) :
    overLimit (some limit) start (start + limit) = some limit := by
  rw [overLimit, if_pos (by omega)]

theorem journey_of_haltsAt {limit : Option Nat} (h : m.halted = false) (hk : m.HaltsAt k last)
    (hb : k ≤ bound limit) :
    (m.journey limit).ending = .halted ∧ (m.journey limit).machine = last :=
  follow_of_haltsAt h hk (fun _ hi => overLimit_of_lt (Nat.lt_of_lt_of_le hi hb) m.steps) hb

theorem journey_of_faultsAt {limit : Option Nat} (h : m.halted = false) (hj : m.FaultsAt j last)
    (hb : j ≤ bound limit) :
    (m.journey limit).ending =
        .faulted (.illegalOpcode (last.memory.read last.registers.pc) last.registers.pc) ∧
      (m.journey limit).machine = last :=
  follow_of_faultsAt h hj (fun _ hi => overLimit_of_lt (Nat.lt_of_lt_of_le hi hb) m.steps) hb

theorem journey_of_executes (h : m.halted = false) (he : m.Executes fs last)
    (hfree : HaltFree fs) :
    (m.journey (some fs.length)).ending = .stopped fs.length ∧
      (m.journey (some fs.length)).machine = last :=
  follow_of_executes h he hfree (fun _ hi => overLimit_of_lt hi m.steps)
    (overLimit_of_eq fs.length m.steps) (Nat.le_refl _)

theorem run_of_journey {limit : Option Nat} {ending : Ending Nat}
    (h : (m.journey limit).ending = ending ∧ (m.journey limit).machine = last) :
    run limit m = (ending.result (last.steps - m.steps), last) := by
  obtain ⟨rfl, rfl⟩ := h
  rfl

theorem run_of_haltsAt {limit : Option Nat} (h : m.halted = false) (hk : m.HaltsAt k last)
    (hb : k ≤ bound limit) : run limit m = (.ok k, last) := by
  rw [run_of_journey (journey_of_haltsAt h hk hb)]
  obtain ⟨fs, f, he, -, -, rfl⟩ := hk
  have hsteps := he.steps_eq
  rw [List.length_append, List.length_singleton] at hsteps
  rw [hsteps, Nat.add_sub_cancel_left]
  rfl

theorem run_of_faultsAt {limit : Option Nat} (h : m.halted = false) (hj : m.FaultsAt j last)
    (hb : j ≤ bound limit) : run limit m =
      (.error (.illegalOpcode (last.memory.read last.registers.pc) last.registers.pc), last) :=
  run_of_journey (journey_of_faultsAt h hj hb)

theorem run_of_executes (h : m.halted = false) (he : m.Executes fs last) (hfree : HaltFree fs) :
    run (some fs.length) m = (.error (.stepLimitExceeded fs.length), last) :=
  run_of_journey (journey_of_executes h he hfree)

theorem run_of_halted (h : m.halted = true) (limit : Option Nat) : run limit m = (.ok 0, m) := by
  have hjourney : m.journey limit = { ending := .halted, machine := m } := follow_of_halted _ h _
  rw [run_of_journey ⟨congrArg Journey.ending hjourney, congrArg Journey.machine hjourney⟩,
    Nat.sub_self]
  rfl

/-- A run is iterated stepping.  With the latch set it does nothing.  Otherwise
the first halt within the limit ends it, or the first byte that is no opcode, or
the limit itself; without a limit the first two hold as long as a counter of
sixty-four bits can count the steps.  Whatever ends it, the machine it leaves is
reached by as many instructions as were counted. -/
theorem run_eq_iterated_step (m : Machine) (limit : Nat) :
    (m.halted = true → ∀ l, run l m = (.ok 0, m)) ∧
    (m.halted = false →
      (∀ k last, m.HaltsAt k last →
        (k ≤ limit → run (some limit) m = (.ok k, last)) ∧
        (m.steps + k < countRange → run none m = (.ok k, last))) ∧
      (∀ j last, m.FaultsAt j last →
        (j ≤ limit → run (some limit) m =
          (.error (.illegalOpcode (last.memory.read last.registers.pc) last.registers.pc),
            last)) ∧
        (m.steps + (j - 1) < countRange → run none m =
          (.error (.illegalOpcode (last.memory.read last.registers.pc) last.registers.pc),
            last))) ∧
      ((¬∃ k ≤ limit, ∃ last, m.HaltsAt k last) → (¬∃ j ≤ limit, ∃ last, m.FaultsAt j last) →
        ∃ fs last, m.Executes fs last ∧ fs.length = limit ∧ last.halted = false ∧
          run (some limit) m = (.error (.stepLimitExceeded limit), last))) ∧
    ∀ l, ∃ fs, m.Executes fs (run l m).2 ∧ (run l m).2.steps = m.steps + fs.length ∧
      ∀ n, (run l m).1 = .ok n → n = fs.length := by
  refine ⟨fun h => run_of_halted h, fun h => ⟨fun k last hk => ⟨fun hb => ?_, fun hb => ?_⟩,
    fun j last hj => ⟨fun hb => ?_, fun hb => ?_⟩, fun hno hno' => ?_⟩, fun l => ?_⟩
  · exact run_of_haltsAt h hk hb
  · refine run_of_haltsAt h hk ?_
    show k ≤ countRange
    omega
  · exact run_of_faultsAt h hj hb
  · refine run_of_faultsAt h hj ?_
    show j ≤ countRange
    omega
  · rcases m.exists_executes limit with hk | hj | ⟨fs, last, he, hfree, rfl⟩
    · exact absurd hk hno
    · exact absurd hj hno'
    · exact ⟨fs, last, he, rfl, (he.halted_eq hfree).trans h, run_of_executes h he hfree⟩
  · have he := executes_journey l m
    refine ⟨_, he, he.steps_eq, fun n hn => ?_⟩
    have hcount : (m.journey l).machine.steps - m.steps = (m.journey l).executed.length := by
      rw [he.steps_eq, Nat.add_sub_cancel_left]
    change (m.journey l).ending.result ((m.journey l).machine.steps - m.steps) = .ok n at hn
    rw [hcount] at hn
    cases hend : (m.journey l).ending <;> rw [hend] at hn <;> cases hn
    rfl

/-- A halt in the second of two steps is a halt, and no fault of the limit. -/
theorem run_eq_iterated_step_at_the_limit :
    ∃ m last, m.halted = false ∧ HaltsAt m 2 last ∧ run (some 2) m = (.ok 2, last) := by
  let m : Machine := { memory := Memory.zero.write 1 0x76, registers := {} }
  let nop : Fetched := { entry := ⟨0, .nop, rfl⟩, data := 0, address := 0 }
  let hlt : Fetched := { entry := ⟨0x76, .hlt, rfl⟩, data := 0, address := 1 }
  have first : m.memory.read 0 = 0 := by
    rw [Memory.read_write_of_ne _ _ (by decide), Memory.read_zero]
  have second : m.memory.read 1 = 0x76 := Memory.read_write_self _ _ _
  have hnop : m.fetch = .ok nop := Memory.fetch_eq_ok_iff.2 ⟨first.symm, rfl, rfl⟩
  have hhlt : (m.execute nop).fetch = .ok hlt := Memory.fetch_eq_ok_iff.2 ⟨second.symm, rfl, rfl⟩
  have halts : m.HaltsAt 2 ((m.execute nop).execute hlt) := by
    refine .cons (step_eq_ok_iff.2 ⟨hnop, rfl⟩) (by decide) ?_
    exact ⟨[], hlt, .single (step_eq_ok_iff.2 ⟨hhlt, rfl⟩), .nil, rfl, rfl⟩
  have run := ((run_eq_iterated_step m 2).2.1 rfl).1 2 _ halts
  exact ⟨m, _, rfl, halts, run.1 (Nat.le_refl 2)⟩

end Machine
end I8085
