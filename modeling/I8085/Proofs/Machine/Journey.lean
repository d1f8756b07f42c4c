import I8085.Machine.Run
import I8085.Proofs.Machine.Execution

/-!
# Following a machine

What `follow` does in each of its cases, with the notes of the cases put in front of those
that the rest of the loop takes.  From the cases come the facts that hold of every journey,
whatever its check: the instructions noted lead to the machine that is left, the counter is
looked at from its first value on without a gap, and the events announce the instructions.
-/

namespace I8085

/-! ## Notes in front of a journey -/

namespace Journey

variable {ε δ Q : Type}

/-- The journey with what was noted before it. -/
def behind (earlier : Notes) (j : Journey ε Q) : Journey ε Q where
  looks := earlier.looks ++ j.looks
  executed := earlier.executed ++ j.executed
  events := earlier.events ++ j.events
  ending := j.ending
  machine := j.machine

theorem behind_behind (first second : Notes) (j : Journey ε Q) :
    (j.behind second).behind first =
      j.behind ⟨first.looks ++ second.looks, first.executed ++ second.executed,
        first.events ++ second.events⟩ := by
  simp only [behind, List.append_assoc]

@[simp]
theorem behind_ending (earlier : Notes) (j : Journey ε Q) : (j.behind earlier).ending = j.ending :=
  rfl

@[simp]
theorem behind_machine (earlier : Notes) (j : Journey ε Q) :
    (j.behind earlier).machine = j.machine := rfl

/-- The journey of a loop that gives other reasons. -/
def map (g : ε → δ) (j : Journey ε Q) : Journey δ Q where
  toNotes := j.toNotes
  ending :=
    match j.ending with
    | .halted => .halted
    | .stopped reason => .stopped (g reason)
    | .faulted fault => .faulted fault
    | .unfinished => .unfinished
  machine := j.machine

end Journey

/-- The instruction that an event announces. -/
def Event.instruction? : Event → Option Fetched
  | executing f => some f
  | _ => none

/-- The looks that no instruction follows: none before a halt, and else the last. -/
def Ending.lastLooks {ε : Type} : Ending ε → Nat
  | halted => 0
  | _ => 1

namespace Machine

variable {ε δ Q : Type} [Deque Q] {check : Nat → Option ε} {m next last : Machine Q} {f : Fetched}
  {fs : List Fetched} {fault : Fault} {reason : ε}

/-! ## The cases of the loop -/

theorem followFrom_eq_behind (check : Nat → Option ε) (left : Nat) (m : Machine Q) (past : Notes) :
    m.followFrom check left past = (m.follow check left).behind past.inOrder := by
  induction left generalizing m past with
  | zero =>
    unfold follow followFrom
    cases m.halted with
    | true => simp [Journey.behind, Notes.inOrder]
    | false => cases check m.steps <;> simp [Journey.behind, Notes.inOrder, Notes.looked]
  | succ left ih =>
    unfold follow followFrom
    cases m.halted with
    | true => simp [Journey.behind, Notes.inOrder]
    | false =>
      cases check m.steps with
      | some reason => simp [Journey.behind, Notes.inOrder, Notes.looked]
      | none =>
        cases m.step with
        | error fault => simp [Journey.behind, Notes.inOrder, Notes.looked, Notes.reported]
        | ok p =>
          obtain ⟨f, next⟩ := p
          simp [ih, Journey.behind, Notes.inOrder, Notes.looked, Notes.reported, Notes.carriedOut]

theorem follow_of_halted (check : Nat → Option ε) (h : m.halted = true) (left : Nat) :
    m.follow check left = { ending := .halted, machine := m } := by
  unfold follow followFrom
  rw [if_pos h]
  rfl

theorem follow_of_stop (h : m.halted = false) (hc : check m.steps = some reason) (left : Nat) :
    m.follow check left =
      { looks := [m.steps], ending := .stopped reason, machine := m } := by
  unfold follow followFrom
  simp [h, hc, Notes.inOrder, Notes.looked]

theorem follow_zero (h : m.halted = false) (hc : check m.steps = none) :
    m.follow check 0 = { looks := [m.steps], ending := .unfinished, machine := m } := by
  unfold follow followFrom
  simp [h, hc, Notes.inOrder, Notes.looked]

theorem follow_succ_of_error (h : m.halted = false) (hc : check m.steps = none)
    (hs : m.step = .error fault) (left : Nat) :
    m.follow check (left + 1) =
      { looks := [m.steps], events := m.stepEvents, ending := .faulted fault, machine := m } := by
  unfold follow followFrom
  simp [h, hc, hs, Notes.inOrder, Notes.looked, Notes.reported]

theorem follow_succ_of_ok (h : m.halted = false) (hc : check m.steps = none)
    (hs : m.step = .ok (f, next)) (left : Nat) :
    m.follow check (left + 1) =
      (next.follow check left).behind ⟨[m.steps], [f], m.stepEvents⟩ := by
  rw [follow, followFrom]
  simp only [h, hc, hs, Bool.false_eq_true, if_false]
  rw [followFrom_eq_behind]
  simp [Notes.inOrder, Notes.looked, Notes.reported, Notes.carriedOut]

/-- What holds of the cases of the loop holds of every journey. -/
theorem follow_induction (check : Nat → Option ε)
    {P : (left : Nat) → Machine Q → Journey ε Q → Prop}
    (halted : ∀ left m, m.halted = true → P left m { ending := .halted, machine := m })
    (stopped : ∀ left m reason, m.halted = false → check m.steps = some reason →
      P left m { looks := [m.steps], ending := .stopped reason, machine := m })
    (unfinished : ∀ m, m.halted = false → check m.steps = none →
      P 0 m { looks := [m.steps], ending := .unfinished, machine := m })
    (faulted : ∀ left m fault, m.halted = false → check m.steps = none → m.step = .error fault →
      P (left + 1) m
        { looks := [m.steps], events := m.stepEvents, ending := .faulted fault, machine := m })
    (executed : ∀ left m f next, m.halted = false → check m.steps = none →
      m.step = .ok (f, next) → P left next (next.follow check left) →
      P (left + 1) m ((next.follow check left).behind ⟨[m.steps], [f], m.stepEvents⟩))
    (left : Nat) (m : Machine Q) : P left m (m.follow check left) := by
  induction left generalizing m with
  | zero =>
    cases h : m.halted with
    | true => exact follow_of_halted check h 0 ▸ halted 0 m h
    | false =>
      cases hc : check m.steps with
      | some reason => exact follow_of_stop h hc 0 ▸ stopped 0 m reason h hc
      | none => exact follow_zero h hc ▸ unfinished m h hc
  | succ left ih =>
    cases h : m.halted with
    | true => exact follow_of_halted check h (left + 1) ▸ halted (left + 1) m h
    | false =>
      cases hc : check m.steps with
      | some reason => exact follow_of_stop h hc (left + 1) ▸ stopped (left + 1) m reason h hc
      | none =>
        cases hs : m.step with
        | error fault =>
          exact follow_succ_of_error h hc hs left ▸ faulted left m fault h hc hs
        | ok p =>
          obtain ⟨f, next⟩ := p
          exact follow_succ_of_ok h hc hs left ▸ executed left m f next h hc hs (ih next)

/-! ## Every journey -/

def HaltFree (fs : List Fetched) : Prop := ∀ f ∈ fs, f.operation ≠ .hlt

theorem HaltFree.nil : HaltFree [] := fun _ h => absurd h List.not_mem_nil

theorem HaltFree.cons (hf : f.operation ≠ .hlt) (h : HaltFree fs) : HaltFree (f :: fs) := by
  intro g hg
  rcases List.mem_cons.1 hg with rfl | hg
  · exact hf
  · exact h g hg

/-- The instructions noted are those that lead to the machine that is left, however the
journey ends. -/
theorem executes_follow (check : Nat → Option ε) (left : Nat) (m : Machine Q) :
    m.Executes (m.follow check left).executed (m.follow check left).machine := by
  refine follow_induction check (P := fun _ m j => m.Executes j.executed j.machine)
    ?_ ?_ ?_ ?_ ?_ left m
  · exact fun left m _ => .refl m
  · exact fun left m reason _ _ => .refl m
  · exact fun m _ _ => .refl m
  · exact fun left m fault _ _ _ => .refl m
  · exact fun left m f next _ _ hs ih => .cons hs ih

/-- A step announces the instruction that it fetches, and nothing else. -/
theorem filterMap_stepEvents (m : Machine Q) :
    m.stepEvents.filterMap Event.instruction? = m.fetch.toOption.toList := by
  unfold stepEvents
  cases hf : m.fetch with
  | error fault =>
    obtain ⟨-, rfl⟩ := Memory.fetch_eq_error_iff.1 hf
    rw [Memory.fetchEvents, show m.memory.fetch m.registers.pc = _ from hf]
    rfl
  | ok f =>
    have quiet (action : Action) (n : Machine Q) :
        (action.events n).filterMap Event.instruction? = [] := by
      cases action <;> rfl
    rw [List.filterMap_cons, Event.instruction?, quiet]
    rfl

/-- The instructions announced are those that are carried out. -/
theorem filterMap_events_follow (check : Nat → Option ε) (left : Nat) (m : Machine Q) :
    (m.follow check left).events.filterMap Event.instruction? =
      (m.follow check left).executed := by
  refine follow_induction check
    (P := fun _ _ j => j.events.filterMap Event.instruction? = j.executed) ?_ ?_ ?_ ?_ ?_ left m
  · exact fun left m _ => rfl
  · exact fun left m reason _ _ => rfl
  · exact fun m _ _ => rfl
  · intro left m fault _ _ hs
    have hf : m.fetch = .error fault := Memory.fetch_eq_error_iff.2 (step_eq_error_iff.1 hs)
    rw [filterMap_stepEvents, hf]
    rfl
  · intro left m f next _ _ hs ih
    have hf : m.fetch = .ok f := (step_eq_ok_iff.1 hs).1
    simp only [Journey.behind, List.filterMap_append, filterMap_stepEvents, hf, ih]
    rfl

/-- One instruction is executed from one look at the counter to the next. -/
theorem looks_follow (check : Nat → Option ε) (left : Nat) (m : Machine Q) :
    (m.follow check left).looks = List.range' m.steps
      ((m.follow check left).executed.length + (m.follow check left).ending.lastLooks) := by
  refine follow_induction check
    (P := fun _ m j => j.looks = List.range' m.steps (j.executed.length + j.ending.lastLooks))
    ?_ ?_ ?_ ?_ ?_ left m
  · exact fun left m _ => rfl
  · exact fun left m reason _ _ => rfl
  · exact fun m _ _ => rfl
  · exact fun left m fault _ _ _ => rfl
  · intro left m f next _ _ hs ih
    have hcount : next.steps = m.steps + 1 := (Executes.single hs).steps_eq
    simp only [Journey.behind, List.singleton_append, List.length_cons]
    rw [ih, hcount, Nat.add_right_comm, List.range'_succ]

/-- A check is asked at the looks only. -/
theorem follow_congr {check' : Nat → Option ε} (left : Nat) (m : Machine Q)
    (h : ∀ n ∈ (m.follow check left).looks, check' n = check n) :
    m.follow check' left = m.follow check left := by
  revert h
  refine follow_induction check (P := fun left m j =>
    (∀ n ∈ j.looks, check' n = check n) → m.follow check' left = j) ?_ ?_ ?_ ?_ ?_ left m
  · exact fun left m hh _ => follow_of_halted check' hh left
  · exact fun left m reason hh hc h =>
      follow_of_stop hh ((h m.steps List.mem_cons_self).trans hc) left
  · exact fun m hh hc h => follow_zero hh ((h m.steps List.mem_cons_self).trans hc)
  · exact fun left m fault hh hc hs h =>
      follow_succ_of_error hh ((h m.steps List.mem_cons_self).trans hc) hs left
  · intro left m f next hh hc hs ih h
    rw [follow_succ_of_ok hh ((h m.steps List.mem_cons_self).trans hc) hs,
      ih fun n hn => h n (List.mem_append_right _ hn)]

theorem follow_map (g : ε → δ) (check : Nat → Option ε) (left : Nat) (m : Machine Q) :
    m.follow (fun n => (check n).map g) left = (m.follow check left).map g := by
  refine follow_induction check
    (P := fun left m j => m.follow (fun n => (check n).map g) left = j.map g) ?_ ?_ ?_ ?_ ?_ left m
  · exact fun left m hh => follow_of_halted _ hh left
  · exact fun left m reason hh hc => follow_of_stop hh (congrArg (Option.map g) hc) left
  · exact fun m hh hc => follow_zero hh (congrArg (Option.map g) hc)
  · exact fun left m fault hh hc hs => follow_succ_of_error hh (congrArg (Option.map g) hc) hs left
  · intro left m f next hh hc hs ih
    rw [follow_succ_of_ok hh (congrArg (Option.map g) hc) hs, ih]
    rfl

/-- Where no check stops them and none of them halts, so many instructions leave the loop
where they lead to, with the same notes whatever the check. -/
theorem exists_notes_of_executes (he : m.Executes fs last) (hfree : HaltFree fs)
    (h : m.halted = false) :
    ∃ notes : Notes, notes.executed = fs ∧ ∀ {ε : Type} (check : Nat → Option ε),
      (∀ i < fs.length, check (m.steps + i) = none) → ∀ left,
        m.follow check (fs.length + left) = (last.follow check left).behind notes := by
  induction he with
  | refl m => exact ⟨{}, rfl, fun check _ left => by rw [List.length_nil, Nat.zero_add]; rfl⟩
  | @cons m next last f fs hs _ ih =>
    have hone := (Executes.single hs).halted_eq
      (fun g hg => hfree g (List.mem_singleton.1 hg ▸ List.mem_cons_self))
    have hcount : next.steps = m.steps + 1 := (Executes.single hs).steps_eq
    obtain ⟨notes, hnotes, hlater⟩ :=
      ih (fun g hg => hfree g (List.mem_cons_of_mem _ hg)) (hone.trans h)
    refine ⟨⟨m.steps :: notes.looks, f :: notes.executed, m.stepEvents ++ notes.events⟩,
      congrArg (f :: ·) hnotes, fun check hcheck left => ?_⟩
    have hrest : ∀ i < fs.length, check (next.steps + i) = none := by
      intro i hi
      rw [hcount, Nat.add_assoc, Nat.add_comm 1 i]
      exact hcheck (i + 1) (Nat.succ_lt_succ hi)
    rw [List.length_cons, Nat.add_right_comm,
      follow_succ_of_ok h (hcheck 0 (Nat.succ_pos _)) hs, hlater check hrest,
      Journey.behind_behind]
    rfl

end Machine
end I8085
