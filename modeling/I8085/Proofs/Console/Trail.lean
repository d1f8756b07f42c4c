import I8085.Proofs.Console.Executed
import I8085.Proofs.Machine.History

/-!
# What the trail tells

The trail of a machine is a window on its history, sixteen instructions wide, and the
count says how long the history is.  Both hold after any sequence of calls, and so does
what a session that failed writes into its log: a session does nothing with its machine
but step it.
-/

namespace I8085

namespace Console.Session

variable {Q : Type} [Deque Q]

theorem records_of_failed {memory : Memory} {registers : Registers} {start : Word}
    {limit : Option Nat} {pending : Nat → Bool} {fault : Fault} {session : Session Q}
    (hsession : session = execute memory registers start limit pending)
    (h : session.outcome = .failed fault) :
    ∃ reports : List Event, session.records =
      reports.map .event ++ [.failed fault, .recentlyExecuted session.machine.recent] := by
  subst hsession
  unfold execute ofJourney at h ⊢
  dsimp only at h ⊢
  rw [h]
  exact ⟨_, rfl⟩

end Console.Session

namespace Machine

open Console (Session)

/-- On a machine that began its life with a memory and registers, the count is the number
of instructions that all calls together executed, and the trail has the addresses of the
latest sixteen of them, or of all if there are fewer, the oldest first.  An instruction
is executed when a step succeeds, at the address the program counter then has; a step that
fails leaves the machine as it was, and a run leaves the one that its instructions lead
to, whatever ended it.  A session that fails closes its log with the latest addresses of
the instructions it executed.  The queue can be any that keeps what is promised of it for
sixteen addresses. -/
theorem trail_eq_latest_addresses (Q : Type) [Deque Q] [LawfulDeque Q trailLength]
    (memory : Memory) (registers : Registers) (calls : List Call) :
    let m : Machine Q := { memory, registers }
    let past := m.history calls
    (m.afterCalls calls).steps = past.length ∧
    (m.afterCalls calls).recent = (past.map Fetched.address).rtake (min past.length 16) ∧
    (∀ (s : Machine Q) (f : Fetched) (next : Machine Q), s.step = .ok (f, next) →
      Call.step.executed s = [f] ∧ Call.step.apply s = next ∧ f.address = s.registers.pc) ∧
    (∀ (s : Machine Q) (fault : Fault), s.step = .error fault →
      Call.step.executed s = [] ∧ Call.step.apply s = s) ∧
    (∀ (s : Machine Q) (limit : Option Nat),
      s.Executes ((Call.run limit).executed s) (s.run limit).2) ∧
    ∀ (start : Word) (limit : Option Nat) (pending : Nat → Bool) (fault : Fault),
      let session : Session Q := .execute memory registers start limit pending
      session.outcome = .failed fault →
      ∃ (executed : List Fetched) (reports : List Event),
        (m.jump start).Executes executed session.machine ∧
        session.records = reports.map .event ++ [.failed fault, .recentlyExecuted
          ((executed.map Fetched.address).rtake (min executed.length 16))] := by
  intro m past
  have remembers := (Remembers.fresh (Q := Q) memory registers).calls calls
  refine ⟨remembers.count, remembers.recent_eq_latest, fun s f next hs => ?_,
    fun s fault hs => ?_, executes_run, ?_⟩
  · obtain ⟨hf, -⟩ := step_eq_ok_iff.1 hs
    refine ⟨?_, ?_, (Memory.fetch_eq_ok_iff.1 hf).2.2⟩
    · rw [Call.executed, hs]
    · rw [Call.apply, stepped, hs]
  · refine ⟨?_, ?_⟩
    · rw [Call.executed, hs]
    · rw [Call.apply, stepped, hs]
  · intro start limit pending fault session hfailed
    have he : (m.jump start).Executes (Console.executed session.records) session.machine :=
      Session.executes_execute memory registers start limit pending
    have hend : session.machine.Remembers (Console.executed session.records) :=
      (Remembers.fresh memory { registers with pc := start }).executes he
    obtain ⟨reports, hrecords⟩ := Session.records_of_failed rfl hfailed
    refine ⟨Console.executed session.records, reports, he, ?_⟩
    rw [← hend.recent_eq_latest]
    exact hrecords

/-- Seventeen steps through memory that holds nothing but zeros, each of them a `NOP`: the first
address is forgotten. -/
theorem trail_of_seventeen_steps :
    let m : Machine := { memory := Memory.zero, registers := {} }
    let last := m.afterCalls (List.replicate 17 .step)
    last.steps = 17 ∧ last.recent = (List.range' 1 16).map (BitVec.ofNat 16) := by
  intro m last
  let nop (x : Word) : Fetched :=
    { entry := ⟨0x00, .nop, rfl⟩, data := 0, address := x }
  have addresses (n : Nat) (k : Machine) (hk : k.memory = Memory.zero) :
      (k.history (List.replicate n .step)).map Fetched.address =
        (List.range n).map fun i => k.registers.pc + BitVec.ofNat 16 i := by
    induction n generalizing k with
    | zero => rfl
    | succ n ih =>
      have hs : k.step = .ok (nop k.registers.pc, k.execute (nop k.registers.pc)) := by
        refine step_eq_ok_iff.2 ⟨Memory.fetch_eq_ok_iff.2 ⟨?_, rfl, rfl⟩, rfl⟩
        rw [hk, Memory.read_zero]
      have hpc : (k.execute (nop k.registers.pc)).registers.pc = k.registers.pc + 1 := rfl
      have hhistory : k.history (List.replicate (n + 1) .step) =
          nop k.registers.pc :: (k.execute (nop k.registers.pc)).history (.replicate n .step) := by
        rw [List.replicate_succ, history, Call.apply, stepped, Call.executed, hs]
        rfl
      rw [hhistory, List.map_cons, ih (k.execute (nop k.registers.pc)) hk, hpc,
        List.range_succ_eq_map, List.map_cons, List.map_map]
      refine congrArg₂ _ (BitVec.add_zero _).symm (List.map_congr_left fun i _ => ?_)
      rw [Function.comp_apply, BitVec.add_assoc, Nat.succ_eq_add_one, Nat.add_comm,
        BitVec.ofNat_add]
      rfl
  obtain ⟨hsteps, hrecent, -⟩ :=
    trail_eq_latest_addresses Trail Memory.zero {} (List.replicate 17 .step)
  have hpast := addresses 17 m rfl
  have hlength := congrArg List.length hpast
  rw [List.length_map] at hlength
  refine ⟨hsteps.trans hlength, hrecent.trans ?_⟩
  rw [hpast, hlength]
  decide

end Machine
end I8085
