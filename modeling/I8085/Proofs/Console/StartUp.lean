import I8085.Proofs.Console.FirstFault
import Mathlib.Data.List.Infix

/-!
# Interrupts while the source is read

A file is read before anything of it is run.  An interrupt that came meanwhile waits until the
session first looks, so a file that comes to no session is refused as it would have been without
it, and any other session ends before its first instruction.  A second one ends the program, how
far it may have come with its file.
-/

namespace I8085
namespace Console

/-- A session with an interrupt that waits ends where it begins. -/
theorem Session.execute_of_waiting (memory : Memory) (registers : Registers) (start : Word)
    (limit : Option Nat) :
    execute memory registers start limit (fun _ => true) =
      ({ outcome := .interrupted
         machine := { memory, registers := { registers with pc := start } }
         records := [.interrupted start 0] } : Session) := by
  have hstop : stop (fun _ => true) limit 0 = some .interrupted := rfl
  exact congrArg ofJourney (Machine.follow_of_stop rfl hstop (Machine.bound limit))

theorem run_of_waiting {job : Job} {finish : Word} {memory : Memory}
    (h : Assembler.load job.program job.settings.origin job.memory = (.ok finish, memory)) :
    job.run (fun _ => true) =
      { result := .ok false
        output := printed { memory, registers := { pc := job.settings.start } } job.settings.range
        records := (Assembler.loadEvents job.program job.settings.origin).map .event ++
          [.filePlaced job.settings.origin finish, .interrupted job.settings.start 0] } := by
  unfold Job.run
  rw [h]
  simp only [Session.execute_of_waiting]
  rfl

section

variable {path : String} {content : Except SystemFault ByteArray} {options : RunOptions}

/-- A file with a fault is refused in the same words whatever waits. -/
theorem runFile_of_firstFault {fault : FileError}
    (h : firstFault (checks path content options) = some fault) (pending pending' : Nat → Bool) :
    runFile path content options pending = runFile path content options pending' := by
  cases hjob : Job.ofFile path content options with
  | error e => rw [runFile_of_fault hjob, runFile_of_fault hjob]
  | ok job =>
    have hresult : (job.run pending).result = .error fault := by
      rw [← faultOf_eq_some_iff, ← runFile_of_job hjob, faultOf_runFile, h]
    rw [runFile_of_job hjob, runFile_of_job hjob]
    rcases hload : Assembler.load job.program job.settings.origin job.memory with
      ⟨e | finish, memory⟩
    · rw [run_of_refused hload, run_of_refused hload]
    · rw [(run_of_load hload pending).1] at hresult
      cases hresult

/-- The program of a file without a fault is placed. -/
theorem exists_load_of_no_fault (h : firstFault (checks path content options) = none) :
    ∃ text settings cells finish memory, content = .ok text.toUTF8 ∧
      options.Say settings cells ∧
      Assembler.load (SourceLine.program text) settings.origin (seeded Memory.zero cells) =
        (.ok finish, memory) := by
  rw [firstFault_checks, Option.or_eq_none_iff] at h
  obtain ⟨hmade, hprogram⟩ := h
  obtain ⟨job, hjob⟩ := faultOf_eq_none_iff.1 hmade
  obtain ⟨text, settings, cells, rfl, hsay, rfl⟩ := exists_text_of_job hjob
  obtain ⟨halted, hresult⟩ := faultOf_eq_none_iff.1
    ((faultOf_run hjob fun _ => false).trans hprogram)
  rcases hload : Assembler.load (jobOf path text settings cells).program settings.origin
    (seeded Memory.zero cells) with ⟨e | finish, memory⟩
  · rw [run_of_refused hload] at hresult
    cases hresult
  · rw [program_jobOf] at hload
    exact ⟨text, settings, cells, finish, memory, rfl, hsay, hload⟩

/-- A file without a fault whose session an interrupt waits for: its program is placed, and what is
printed is what the session would have begun with. -/
theorem runPath_of_waiting {text : String} {settings : RunSettings} {cells : List (Word × Byte)}
    {finish : Word} {memory : Memory} (hsay : options.Say settings cells)
    (hload : Assembler.load (SourceLine.program text) settings.origin
      (seeded Memory.zero cells) = (.ok finish, memory)) (path : String) :
    Command.runPath path (.ok text.toUTF8) options (fun _ => true) =
      { status := 1
        output := printed { memory, registers := { pc := settings.start } } settings.range
        records := (Assembler.loadEvents (SourceLine.program text) settings.origin).map .event ++
          [.filePlaced settings.origin finish, .interrupted settings.start 0] } := by
  rw [← program_jobOf path text settings cells] at hload ⊢
  have hrun : runFile path (.ok text.toUTF8) options (fun _ => true) = _ :=
    (runFile_of_say hsay _).trans (run_of_waiting hload)
  simp only [Command.runPath, hrun]
  rfl

end

/-- What interrupts do that come until the source of a file is read.  `startUp` is all that happens
in this time, in any order.  The handler is called for each of them once, one at a time, and has
answered them all at the end.

One interrupt is found by every look of the session.  If the file or its options have a fault, the
command ends as it does without the interrupt; otherwise nothing is executed, the command exits
with 1, and printed are registers that are all zero but for the counter, which is at the start, and
then the range that was asked for in the memory that the program was placed in.  Two or more end
the program with 255 and nothing is printed.

At no moment do more messages wait than one, and the handler never waits for room, whenever
interrupts come and however many, and whenever it is called. -/
theorem respond_interrupted_at_start (C : Type) [Channel C] [LawfulChannel C] (s : Surroundings)
    {arguments : List String} {path : String} {options : RunOptions}
    (hruns : s.Runs arguments path options)
    (hcalled : Keyboard.Dispatched C s.startUp) (hanswered : Keyboard.Settled C s.startUp) :
    let keyboard : Keyboard C := Keyboard.start.after s.startUp
    let response := respond C s arguments
    (s.startUp.count .interrupt = 1 →
      (∀ later, ∀ seen ∈ keyboard.found later, seen = true) ∧
      match firstFault (checks path (s.files path) options) with
      | some _ => response = respond C { s with parsing := [], reading := [] } arguments
      | none =>
        ∃ text settings cells finish memory, s.files path = .ok text.toUTF8 ∧
          options.Say settings cells ∧
          Assembler.load (SourceLine.program text) settings.origin (seeded Memory.zero cells) =
            (.ok finish, memory) ∧
          response.status = 1 ∧
          response.output = Registers.text { pc := settings.start } ::
            (match settings.range with
            | none => []
            | some (first, last) => dump memory first last) ∧
          executed response.records = [] ∧
          response.records.getLast? = some (.interrupted settings.start 0)) ∧
    (2 ≤ s.startUp.count .interrupt →
      keyboard.handler = .exited (-1) ∧
        response = { status := 255, output := [], records := [] }) ∧
    ∀ moments, Channel.len (Keyboard.start.after moments : Keyboard C).channel ≤ 1 ∧
      ¬(Keyboard.start.after moments : Keyboard C).Blocked := by
  intro keyboard response
  refine ⟨fun hone => ?_, fun htwo => ?_, fun moments => ?_⟩
  · obtain ⟨hidle, hlen⟩ := Keyboard.len_of_one_interrupt hcalled hanswered hone
    have hwaits : Channel.len keyboard.channel ≠ 0 := by
      rw [show Channel.len keyboard.channel = 1 from hlen]
      exact Nat.one_ne_zero
    have hresponse : response = Command.runPath path (s.files path) options fun _ => true := by
      have hrunning (code : Int) : keyboard.handler ≠ .exited code := by
        rw [show keyboard.handler = .idle from hidle]
        nofun
      have hpending : keyboard.isPending = true := keyboard.isPending_iff.2 hwaits
      rw [← hpending]
      exact respond_of_not_exited hruns hrunning
    refine ⟨Keyboard.found_of_waiting (Keyboard.accounts_after hcalled.apart) hwaits, ?_⟩
    cases hfault : firstFault (checks path (s.files path) options) with
    | some fault =>
      have hquiet : Surroundings.Runs { s with parsing := [], reading := [] } arguments path
          options := ⟨hruns.handlerSet, hruns.parsed⟩
      have alone : respond C { s with parsing := [], reading := [] } arguments =
          Command.runPath path (s.files path) options fun _ => false :=
        respond_of_undisturbed hquiet rfl rfl
      have same := runFile_of_firstFault hfault (fun _ => true) fun _ => false
      show response = respond C { s with parsing := [], reading := [] } arguments
      rw [hresponse, alone, Command.runPath, Command.runPath, same]
    | none =>
      obtain ⟨text, settings, cells, finish, memory, hfile, hsay, hload⟩ :=
        exists_load_of_no_fault hfault
      rw [hfile, runPath_of_waiting hsay hload] at hresponse
      rw [hresponse]
      refine ⟨text, settings, cells, finish, memory, hfile, hsay, hload, rfl, rfl, ?_, ?_⟩
      · rw [executed_append, executed_loadEvents]
        rfl
      · rw [List.getLast?_append]
        rfl
  · have hexited := Keyboard.exited_of_two_interrupts hcalled hanswered htwo
    exact ⟨hexited, respond_of_exited hruns hexited⟩
  · exact ⟨Keyboard.len_after_le moments, Keyboard.not_blocked_after moments⟩

/-- The handler is called while the source is read, looks and sends. -/
theorem respond_interrupted_at_start_once :
    let s : Surroundings :=
      { parse := Arguments.parse
        files := fun _ => .ok "MVI A,05\nHLT".toUTF8
        reading := [.interrupt, .call, .handler, .handler] }
    let arguments := ["run", "five.asm", "--start", "C000"]
    s.Runs arguments "five.asm" { start := some "C000" } ∧
    Keyboard.Dispatched Mailbox s.startUp ∧ Keyboard.Settled Mailbox s.startUp ∧
    s.startUp.count .interrupt = 1 ∧ (respond Mailbox s arguments).status = 1 ∧
    executed (respond Mailbox s arguments).records = [] := by
  intro s arguments
  have hruns : s.Runs arguments "five.asm" { start := some "C000" } := by
    have hread : (s.parse Command.rules arguments).toOption.bind Command.ofMatches? =
        some (.run "five.asm" { start := some "C000" }) := by decide +kernel
    obtain ⟨m, hm, hcommand⟩ := Option.bind_eq_some_iff.1 hread
    refine ⟨rfl, m, ?_, hcommand⟩
    cases hparse : s.parse Command.rules arguments with
    | error e => rw [hparse] at hm; cases hm
    | ok m' => rw [hparse] at hm; cases hm; rfl
  have answering : ∀ past ∈ s.startUp.inits, past.count .call ≤ past.count .interrupt := by
    decide +kernel
  have apart : ∀ past ∈ s.startUp.inits, past ++ [.call] <+: s.startUp →
      (Keyboard.start.after past : Keyboard Mailbox).handler = .idle := by decide +kernel
  have hcalled : Keyboard.Dispatched Mailbox s.startUp :=
    { answering := fun past h => answering past ((List.mem_inits past _).2 h)
      apart := fun past h =>
        apart past ((List.mem_inits past _).2 ((List.prefix_append past _).trans h)) h }
  have hanswered : Keyboard.Settled Mailbox s.startUp := .inr ⟨rfl, rfl⟩
  have hclean : firstFault (checks "five.asm" (s.files "five.asm") { start := some "C000" }) =
      none := by decide +kernel
  obtain ⟨hone, -, -⟩ := respond_interrupted_at_start Mailbox s hruns hcalled hanswered
  obtain ⟨-, hresponse⟩ := hone rfl
  rw [hclean] at hresponse
  obtain ⟨text, settings, cells, finish, memory, -, -, -, hstatus, -, hexecuted, -⟩ := hresponse
  exact ⟨hruns, hcalled, hanswered, rfl, hstatus, hexecuted⟩

end Console
end I8085
