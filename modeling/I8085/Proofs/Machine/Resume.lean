import I8085.Proofs.Machine.Run

/-!
# A run taken up again

A run that has used up its limit leaves a machine that can be run on.  A limit counts
from the machine a run begins with and nothing else is carried from one run to the next,
so two runs with the limits `n` and `k` come to the same as one with the limit `n + k`.
A run that ended for another reason has not looked at its limit, and a larger one or
none changes nothing.
-/

namespace I8085
namespace Machine

variable {m mid last : Machine} {fs : List Fetched} {n k : Nat} {ending : Ending Nat}

/-! ## The loop -/

/-- The endings that a run comes to whatever its limit. -/
inductive Own : Ending Nat → Prop
  | halted : Own .halted
  | illegal (opcode : Byte) (address : Word) : Own (.faulted (.illegalOpcode opcode address))

/-- The loop ends by itself, and so it does within any larger limit, or it takes every
step it may without meeting a halt. -/
theorem journey_cases (m : Machine) (n : Nat) :
    (∃ ending last, Own ending ∧ ∀ limit, n ≤ bound limit →
      (m.journey limit).ending = ending ∧ (m.journey limit).machine = last) ∨
    ∃ fs last, m.halted = false ∧ m.Executes fs last ∧ HaltFree fs ∧ fs.length = n := by
  cases hhalted : m.halted with
  | true =>
    refine .inl ⟨.halted, m, .halted, fun limit _ => ?_⟩
    rw [journey, follow_of_halted _ hhalted]
    exact ⟨rfl, rfl⟩
  | false =>
    rcases m.exists_executes n with ⟨k, hk, last, hat⟩ | ⟨j, hj, last, hat⟩ |
      ⟨fs, last, he, hfree, hl⟩
    · exact .inl ⟨.halted, last, .halted, fun limit hb => journey_of_haltsAt hhalted hat
        (Nat.le_trans hk hb)⟩
    · exact .inl ⟨_, last, .illegal _ _, fun limit hb => journey_of_faultsAt hhalted hat
        (Nat.le_trans hj hb)⟩
    · exact .inr ⟨fs, last, rfl, he, hfree, hl⟩

/-- A limit sees to it that a journey comes to an ending. -/
theorem own_or_stopped (m : Machine) (n : Nat) :
    Own (m.journey (some n)).ending ∨ (m.journey (some n)).ending = .stopped n := by
  rcases journey_cases m n with ⟨ending, last, hown, hloop⟩ | ⟨fs, last, h, he, hfree, rfl⟩
  · exact .inl ((hloop (some n) (Nat.le_refl n)).1 ▸ hown)
  · exact .inr (journey_of_executes h he hfree).1

/-- What is left of a limit after some instructions is the limit of the journey from where
they lead: both checks hold the same gain against the same number. -/
theorem exists_notes_journey_add (he : m.Executes fs mid) (hfree : HaltFree fs)
    (h : m.halted = false) (k : Nat) :
    ∃ notes : Notes, m.journey (some (fs.length + k)) =
      ((mid.journey (some k)).map (fs.length + ·)).behind notes := by
  obtain ⟨notes, -, hrest⟩ := exists_notes_of_executes he hfree h
  refine ⟨notes, ?_⟩
  have hpass : ∀ i < fs.length, overLimit (some (fs.length + k)) m.steps (m.steps + i) = none :=
    fun i hi => overLimit_of_lt (Nat.lt_add_right k hi) m.steps
  have hmid := follow_map (fs.length + ·) (overLimit (some k) mid.steps) k mid
  show m.follow _ (fs.length + k) = ((mid.follow _ k).map _).behind notes
  rw [hrest _ hpass, ← hmid]
  congr 1
  refine follow_congr k mid fun count hcount => ?_
  rw [looks_follow, List.mem_range'_1] at hcount
  have hsteps := he.steps_eq
  by_cases hk : k ≤ count - mid.steps
  · rw [overLimit, overLimit, if_pos hk, if_pos (by omega)]
    rfl
  · rw [overLimit, overLimit, if_neg hk, if_neg (by omega)]
    rfl

/-! ## The run -/

/-- The answer of a run as that of the longer run which it goes on with, when `n`
instructions have been executed before. -/
def answerAfter (n : Nat) : Except Fault Nat → Except Fault Nat
  | .ok executed => .ok (n + executed)
  | .error (.stepLimitExceeded limit) => .error (.stepLimitExceeded (n + limit))
  | .error (.illegalOpcode opcode address) => .error (.illegalOpcode opcode address)

/-- The limit that is left when some instructions have been executed is the limit of a
run from where they lead. -/
theorem run_add (h : m.halted = false) (he : m.Executes fs mid) (hfree : HaltFree fs) (k : Nat) :
    run (some (fs.length + k)) m =
      (answerAfter fs.length (run (some k) mid).1, (run (some k) mid).2) := by
  obtain ⟨notes, hjourney⟩ := exists_notes_journey_add he hfree h k
  have hcount : (mid.journey (some k)).machine.steps - m.steps =
      fs.length + ((mid.journey (some k)).machine.steps - mid.steps) := by
    have := he.steps_eq
    have := (executes_journey (some k) mid).steps_eq
    omega
  unfold run
  rw [hjourney]
  simp only [Journey.behind_ending, Journey.behind_machine, Journey.map]
  rw [hcount]
  have hending := own_or_stopped mid k
  generalize (mid.journey (some k)).ending = ending at hending ⊢
  rcases hending with hown | rfl
  · cases hown <;> rfl
  · rfl

/-- A run may be cut at any limit and resumed.  If it stopped at the limit `n`, running on
under a limit `k` leaves the machine that one run under `n + k` leaves, and answers as
that run does with `n` instructions taken off.  If it ended before, with a count or at a
byte that is no opcode, it ends so under any larger limit and under none. -/
theorem run_resume (m : Machine) (n : Nat) :
    (∀ limit mid, run (some n) m = (.error (.stepLimitExceeded limit), mid) → ∀ k,
      run (some (n + k)) m = (answerAfter n (run (some k) mid).1, (run (some k) mid).2)) ∧
    ∀ answer last, run (some n) m = (answer, last) →
      (∃ executed, answer = .ok executed) ∨
        (∃ opcode address, answer = .error (.illegalOpcode opcode address)) →
      (∀ limit, n ≤ limit → run (some limit) m = (answer, last)) ∧
        (n ≤ countRange → run none m = (answer, last)) := by
  rcases journey_cases m n with ⟨ending, last, hown, hloop⟩ | ⟨fs, mid, hhalted, he, hfree, rfl⟩
  · have hrun {limit : Option Nat} (hb : n ≤ bound limit) := run_of_journey (hloop limit hb)
    have hshort : run (some n) m = _ := hrun (Nat.le_refl n)
    refine ⟨fun limit mid h => ?_, fun answer last' h _ => ?_⟩
    · rw [hshort] at h
      cases hown <;> cases h
    · rw [← h, hshort]
      exact ⟨fun limit hb => hrun hb, fun hb => hrun hb⟩
  · have hshort := run_of_executes hhalted he hfree
    refine ⟨fun limit mid' h => ?_, fun answer last h hanswer => ?_⟩
    · rw [hshort] at h
      cases h
      exact run_add hhalted he hfree
    · rw [hshort] at h
      cases h
      rcases hanswer with ⟨_, ⟨⟩⟩ | ⟨_, _, ⟨⟩⟩

/-- `EI` in the last cell and `HLT` in the first, cut between the two. -/
theorem run_resume_before_the_halt :
    ∃ m mid last : Machine, run (some 1) m = (.error (.stepLimitExceeded 1), mid) ∧
      run (some 1) mid = (.ok 1, last) ∧ run (some 2) m = (.ok 2, last) ∧
      run none m = (.ok 2, last) := by
  let m : Machine :=
    { memory := (Memory.zero.write 0 0x76).write 0xFFFF 0xFB, registers := { pc := 0xFFFF } }
  let ei : Fetched := { entry := ⟨0xFB, .ei, rfl⟩, data := 0, address := 0xFFFF }
  let hlt : Fetched := { entry := ⟨0x76, .hlt, rfl⟩, data := 0, address := 0 }
  have first : m.memory.read 0xFFFF = 0xFB := Memory.read_write_self _ _ _
  have second : m.memory.read 0 = 0x76 := by
    rw [Memory.read_write_of_ne _ _ (by decide), Memory.read_write_self]
  have hei : m.fetch = .ok ei := Memory.fetch_eq_ok_iff.2 ⟨first.symm, rfl, rfl⟩
  have wrapped : (m.execute ei).registers.pc = 0 := show ei.next = 0 by decide
  have hhlt : (m.execute ei).fetch = .ok hlt := by
    rw [fetch, wrapped]
    exact Memory.fetch_eq_ok_iff.2 ⟨second.symm, rfl, rfl⟩
  have begun : m.Executes [ei] (m.execute ei) := .single (step_eq_ok_iff.2 ⟨hei, rfl⟩)
  have unhalted : HaltFree [ei] := HaltFree.nil.cons (by decide)
  have cut := run_of_executes rfl begun unhalted
  rw [List.length_singleton] at cut
  have halts : (m.execute ei).HaltsAt 1 ((m.execute ei).execute hlt) :=
    ⟨[], hlt, .single (step_eq_ok_iff.2 ⟨hhlt, rfl⟩), .nil, rfl, rfl⟩
  have rest : run (some 1) (m.execute ei) = (.ok 1, (m.execute ei).execute hlt) :=
    run_of_haltsAt (execute_halted m ei) halts (Nat.le_refl 1)
  have whole := (run_resume m 1).1 1 _ cut 1
  rw [rest] at whole
  have unlimited := ((run_resume m 2).2 _ _ whole (.inl ⟨2, rfl⟩)).2 (by decide)
  exact ⟨m, _, _, cut, rest, whole, unlimited⟩

end Machine
end I8085
