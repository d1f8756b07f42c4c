import I8085.Console.Session
import I8085.Proofs.Machine.Run

/-!
# A session is a run

A session that nobody interrupts ends as the run of the same machine ends, with the
same machine left and the run's count or fault in its log.  The two loops check their
limits differently: a session holds the counter itself against the limit, a run the
part of the counter that it has added.  On a machine that begins to count at zero the
two checks agree at every count, and so the two journeys are one but for the name that
their ending has.
-/

namespace I8085
namespace Console
namespace Session

variable {Q : Type} [Deque Q]

/-- How a session tells that a limit is used up. -/
def ofLimit (limit : Nat) : Outcome := .failed (.stepLimitExceeded limit)

theorem stop_of_quiet (limit : Option Nat) :
    stop (fun _ => false) limit = fun count => (Machine.overLimit limit 0 count).map ofLimit := by
  funext count
  cases limit with
  | none => rfl
  | some limit =>
    simp only [stop, Machine.overLimit, Nat.sub_zero, Bool.false_eq_true, if_false]
    split <;> rfl

theorem journey_of_quiet {m : Machine Q} (h : m.steps = 0) (limit : Option Nat) :
    journey (fun _ => false) limit m = (m.journey limit).map ofLimit := by
  rw [journey, stop_of_quiet, Machine.follow_map, Machine.journey, h]

theorem execute_of_quiet (memory : Memory) (registers : Registers) (start : Word)
    (limit : Option Nat) :
    execute memory registers start limit (fun _ => false) = ofJourney
      ((Machine.journey limit (({ memory, registers } : Machine Q).jump start)).map ofLimit) :=
  congrArg ofJourney (journey_of_quiet rfl limit)

theorem succeeded_ofJourney (whole : Journey Nat Q) (executed : Nat) :
    (ofJourney (whole.map ofLimit)).succeeded = true ↔
      ∃ count, whole.ending.result executed = .ok count := by
  obtain ⟨notes, ending, last⟩ := whole
  cases ending with
  | halted => exact iff_of_true rfl ⟨_, rfl⟩
  | stopped _ | faulted _ | unfinished =>
    exact iff_of_false Bool.false_ne_true (by rintro ⟨count, ⟨⟩⟩)

section

variable (memory : Memory) (registers : Registers) (start : Word) (limit : Option Nat)

theorem machine_of_quiet :
    (execute memory registers start limit (fun _ => false) : Session Q).machine =
      (Machine.runFrom start limit ({ memory, registers } : Machine Q)).2 :=
  congrArg Session.machine (execute_of_quiet memory registers start limit)

theorem succeeded_of_quiet :
    (execute memory registers start limit (fun _ => false) : Session Q).succeeded = true ↔
      ∃ count, (Machine.runFrom start limit ({ memory, registers } : Machine Q)).1 = .ok count := by
  rw [execute_of_quiet]
  exact succeeded_ofJourney _ _

/-- A session that nobody interrupts leaves the machine that a run from the same
address under the same limit leaves, and succeeds if that run answers with a count.
Its log holds what the machine reported on the way and closes with that count, or
with the run's fault in its own words. -/
theorem execute_eq_runFrom :
    let session : Session := execute memory registers start limit fun _ => false
    let machine : Machine := { memory, registers }
    let run := machine.runFrom start limit
    let reports := ((machine.jump start).journey limit).events
    session.machine = run.2 ∧
    (session.succeeded = true ↔ ∃ count, run.1 = .ok count) ∧
    (∀ count, run.1 = .ok count →
      session.records = reports.map .event ++ [.halted count]) ∧
    ∀ fault, run.1 = .error fault →
      session.records =
        reports.map .event ++ [.failed fault, .recentlyExecuted run.2.recent] ∧
      (Record.failed fault).message = fault.message := by
  intro session machine run reports
  refine ⟨machine_of_quiet memory registers start limit,
    succeeded_of_quiet memory registers start limit, ?_⟩
  have hsession : session = ofJourney _ := execute_of_quiet memory registers start limit
  have hrun : run = _ := Machine.run_of_journey ⟨rfl, rfl⟩
  have hreports : reports = ((machine.jump start).journey limit).events := rfl
  rw [hsession, hrun, hreports]
  generalize (machine.jump start).journey limit = whole
  obtain ⟨notes, ending, last⟩ := whole
  cases ending with
  | halted =>
    refine ⟨fun count h => ?_, fun fault => nofun⟩
    cases h
    rfl
  | stopped _ | faulted _ | unfinished =>
    refine ⟨fun count => nofun, fun fault h => ?_⟩
    cases h
    exact ⟨rfl, rfl⟩

end

end Session
end Console
end I8085
