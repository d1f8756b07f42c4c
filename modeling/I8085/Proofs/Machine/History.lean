import I8085.Proofs.Machine.Calls
import I8085.Proofs.Machine.Journey
import I8085.Proofs.Machine.Stages
import Mathlib.Data.List.DropRight

/-!
# What has been executed

Whoever holds a machine may step it, run it, run it under another latch and write to its
ports, in any order, and may go on after a call that failed.  The instructions that the
calls carry out are the history of the machine.  Count and trail say nothing but the
history: `Remembers` states what they say, one executed instruction keeps it true, and so
does every sequence of calls.
-/

namespace I8085

variable {Q : Type} [Deque Q]

/-! ## A queue that gives up its oldest -/

namespace Deque

variable {capacity : Nat} [LawfulDeque Q capacity] {q : Q}

/-- Of the elements that have been recorded a queue keeps as many as it can, the latest: a full
one has given up its front, so that there is room behind. -/
theorem toList_record (hcapacity : 0 < capacity) (h : (toList q).length ≤ capacity) (x : Word) :
    toList (record q x) = (toList q ++ [x]).rtake capacity := by
  have hfull : isFull q = true ↔ (toList q).length = capacity := LawfulDeque.isFull_iff q
  have hpop := LawfulDeque.toList_popFront capacity q
  unfold record
  by_cases hlength : (toList q).length = capacity
  · have hroom : (toList (popFront q).2).length < capacity := by
      rw [hpop, List.length_tail]
      omega
    rw [if_pos (hfull.2 hlength), LawfulDeque.toList_pushBack _ x hroom, hpop, List.rtake,
      List.length_append, List.length_singleton, hlength, Nat.add_sub_cancel_left]
    cases hq : toList q with
    | nil => rw [hq] at hlength; exact absurd hlength (Nat.ne_of_lt hcapacity)
    | cons first rest => rfl
  · have hroom : (toList q).length < capacity := Nat.lt_of_le_of_ne h hlength
    rw [if_neg (fun full => hlength (hfull.1 full)), LawfulDeque.toList_pushBack q x hroom,
      List.rtake, List.length_append, List.length_singleton, Nat.sub_eq_zero_of_le hroom]
    rfl

end Deque

namespace Machine

/-! ## Calls and their history -/

/-- What the holder of a machine may ask of it. -/
inductive Call
  | step
  | run (limit : Option Nat)
  /-- The calls that follow are made under this latch. -/
  | latch (halted : Bool)
  | writePort (port value : Byte)

namespace Call

/-- The machine that a call leaves. -/
def apply (m : Machine Q) : Call → Machine Q
  | step => m.stepped
  | run limit => (m.run limit).2
  | latch halted => { m with halted }
  | writePort port value => { m with ports := m.ports.write port value }

/-- The instructions that a call carries out. -/
def executed (m : Machine Q) : Call → List Fetched
  | step =>
    match m.step with
    | .error _ => []
    | .ok (f, _) => [f]
  | run limit => (m.journey limit).executed
  | latch _ | writePort _ _ => []

end Call

def afterCalls (m : Machine Q) (calls : List Call) : Machine Q := calls.foldl Call.apply m

/-- The instructions that calls carry out one after another. -/
def history : Machine Q → List Call → List Fetched
  | _, [] => []
  | m, call :: calls => call.executed m ++ history (call.apply m) calls

variable {m last : Machine Q} {past fs : List Fetched}

/-- A run leaves the machine that its instructions lead to, however it ends. -/
theorem executes_run (m : Machine Q) (limit : Option Nat) :
    m.Executes ((Call.run limit).executed m) (m.run limit).2 :=
  executes_follow (overLimit limit m.steps) (bound limit) m

theorem executes_step (m : Machine Q) : m.Executes (Call.step.executed m) m.stepped := by
  cases hs : m.step with
  | error fault =>
    simp only [Call.executed, stepped, hs]
    exact .refl m
  | ok p =>
    simp only [Call.executed, stepped, hs]
    exact .single hs

/-! ## Count and trail -/

/-- The count is the length of the history, and the trail has its latest addresses. -/
structure Remembers (m : Machine Q) (past : List Fetched) : Prop where
  count : m.steps = past.length
  recent : m.recent = (past.map Fetched.address).rtake trailLength

namespace Remembers

theorem recent_eq_latest (h : m.Remembers past) :
    m.recent = (past.map Fetched.address).rtake (min past.length 16) := by
  rw [h.recent, List.rtake, List.rtake, List.length_map, show trailLength = 16 from rfl]
  congr 1
  omega

variable [LawfulDeque Q trailLength]

theorem fresh (memory : Memory) (registers : Registers) :
    Remembers ({ memory, registers } : Machine Q) [] :=
  ⟨rfl, LawfulDeque.toList_empty trailLength⟩

theorem execute (h : m.Remembers past) (f : Fetched) : (m.execute f).Remembers (past ++ [f]) where
  count := by
    rw [execute_steps, h.count, List.length_append, List.length_singleton]
  recent := by
    have hrecent : Deque.toList m.trail = _ := h.recent
    have hlength : (Deque.toList m.trail).length ≤ trailLength := by
      rw [hrecent, List.rtake, List.length_drop]
      omega
    -- What the sixteen forget, a seventeenth would have forgotten too.
    rw [Machine.recent, execute_trail, Deque.toList_record (by decide) hlength, hrecent,
      List.map_append, List.rtake_eq_reverse_take_reverse, List.rtake_eq_reverse_take_reverse,
      List.rtake_eq_reverse_take_reverse]
    simp [List.take_take, trailLength]

theorem executes (h : m.Remembers past) (he : m.Executes fs last) :
    last.Remembers (past ++ fs) := by
  induction he generalizing past with
  | refl m => rwa [List.append_nil]
  | cons hs _ ih =>
    obtain ⟨-, rfl⟩ := step_eq_ok_iff.1 hs
    rw [List.append_cons]
    exact ih (h.execute _)

/-- A call adds what it executed, and a call that executed nothing changes neither count
nor trail. -/
theorem call (h : m.Remembers past) (call : Call) :
    (call.apply m).Remembers (past ++ call.executed m) := by
  cases call with
  | step => exact h.executes (executes_step m)
  | run limit => exact h.executes (executes_run m limit)
  | latch halted | writePort port value =>
    rw [Call.executed, List.append_nil]
    exact ⟨h.count, h.recent⟩

theorem calls (h : m.Remembers past) (calls : List Call) :
    (m.afterCalls calls).Remembers (past ++ m.history calls) := by
  induction calls generalizing m past with
  | nil => rwa [history, List.append_nil]
  | cons call calls ih =>
    rw [history, ← List.append_assoc]
    exact ih (h.call call)

end Remembers
end Machine
end I8085
