import I8085.Proofs.Console.RunFile

/-!
# What running a file executes

A log names every instruction that was executed, in order, by the record that was made in front
of it.  Read off the log of a session these are the instructions that lead from its first machine
to its last.  A file holds one session or none, and what the run of the file reports is what that
session leaves; without a session there is an error, nothing is printed and nothing is executed.
-/

namespace I8085

namespace Console

/-- The instructions that a log tells of, in the order of their execution. -/
def executed (records : List Record) : List Fetched :=
  records.filterMap fun record =>
    match record with
    | .event event => event.instruction?
    | _ => none

theorem executed_append (records rest : List Record) :
    executed (records ++ rest) = executed records ++ executed rest := List.filterMap_append

theorem executed_map_event (events : List Event) :
    executed (events.map .event) = events.filterMap Event.instruction? := by
  rw [executed, List.filterMap_map]
  rfl

namespace Session

variable {Q : Type} [Deque Q]

theorem executed_closing (outcome : Outcome) (m : Machine Q) :
    executed (closing outcome m) = [] := by
  cases outcome <;> rfl

/-- A session leads from its first machine to its last by the instructions that its log tells
of. -/
theorem executes_execute (memory : Memory) (registers : Registers) (start : Word)
    (limit : Option Nat) (pending : Nat → Bool) :
    let first : Machine Q := { memory, registers := { registers with pc := start } }
    let session : Session Q := execute memory registers start limit pending
    first.Executes (executed session.records) session.machine := by
  intro first session
  have told : executed session.records = (journey pending limit first).executed := by
    show executed (List.map _ _ ++ closing _ _) = _
    rw [executed_append, executed_map_event, executed_closing, List.append_nil]
    exact Machine.filterMap_events_follow _ _ first
  rw [told]
  exact Machine.executes_follow _ _ first

end Session

/-! ## The session of a file -/

/-- The session that is held over a job, if its program is placed. -/
def Job.session? (j : Job) (pending : Nat → Bool) : Option Session :=
  match Assembler.load j.program j.settings.origin j.memory with
  | (.error _, _) => none
  | (.ok _, memory) => some (.execute memory {} j.settings.start j.settings.limit pending)

/-- The session of a file, if it comes to one. -/
def session? (path : String) (content : Except SystemFault ByteArray) (options : RunOptions)
    (pending : Nat → Bool) : Option Session :=
  (Job.ofFile path content options).toOption.bind fun job => job.session? pending

section

variable {job : Job} {memory : Memory}

theorem session?_of_load {finish : Word} (h : Assembler.load job.program job.settings.origin
    job.memory = (.ok finish, memory)) (pending : Nat → Bool) :
    job.session? pending =
      some (.execute memory {} job.settings.start job.settings.limit pending) := by
  unfold Job.session?
  rw [h]

theorem session?_of_refused {e : LoadError} (h : Assembler.load job.program job.settings.origin
    job.memory = (.error e, memory)) (pending : Nat → Bool) : job.session? pending = none := by
  unfold Job.session?
  rw [h]

end

theorem executed_loadEvents (lines : List String) (origin : Word) :
    executed ((Assembler.loadEvents lines origin).map .event) = [] := by
  have placing (cursor : Word) :
      (Assembler.loadEventsFrom origin lines cursor).filterMap Event.instruction? = [] := by
    induction lines generalizing cursor with
    | nil => rfl
    | cons line lines ih =>
      rw [Assembler.loadEventsFrom]
      cases Assembler.encode line with
      | error cause => rfl
      | ok i => exact ih _
  rw [executed_map_event]
  exact placing origin

theorem settings_of_ofFile {path : String} {content : Except SystemFault ByteArray}
    {options : RunOptions} {job : Job} (h : Job.ofFile path content options = .ok job) :
    options.settings = .ok job.settings := by
  simp only [Job.ofFile, Assembler.bind_eq_ok_iff, mapError_eq_ok_iff] at h
  obtain ⟨text, -, settings, hsettings, cells, -, hjob⟩ := h
  cases hjob
  exact hsettings

section

variable {path : String} {content : Except SystemFault ByteArray} {options : RunOptions}
  {pending : Nat → Bool} {session : Session}

theorem runFile_of_job {job : Job} (h : Job.ofFile path content options = .ok job) :
    runFile path content options pending = job.run pending := by
  rw [runFile, h]

/-- Where a fault keeps a job from being made, nothing is left to report. -/
theorem runFile_of_fault {e : FileError} (h : Job.ofFile path content options = .error e) :
    runFile path content options pending = { result := .error e, output := [], records := [] } := by
  rw [runFile, h]

theorem exists_job_of_session (h : session? path content options pending = some session) :
    ∃ job, Job.ofFile path content options = .ok job ∧ job.session? pending = some session := by
  unfold session? at h
  cases hjob : Job.ofFile path content options with
  | error e =>
    rw [hjob] at h
    cases h
  | ok job =>
    rw [hjob] at h
    exact ⟨job, rfl, h⟩

/-- A file that comes to a session reports what the session leaves. -/
theorem runFile_of_session (h : session? path content options pending = some session) :
    let report := runFile path content options pending
    report.result = .ok session.succeeded ∧
      (∃ settings, options.settings = .ok settings ∧
        report.output = printed session.machine settings.range) ∧
      executed report.records = executed session.records := by
  intro report
  obtain ⟨job, hjob, hsession⟩ := exists_job_of_session h
  have hreport : report = job.run pending := runFile_of_job hjob
  rw [hreport]
  rcases hload : Assembler.load job.program job.settings.origin job.memory with
    ⟨e | finish, memory⟩
  · rw [session?_of_refused hload] at hsession
    cases hsession
  · rw [session?_of_load hload] at hsession
    cases hsession
    obtain ⟨hresult, houtput⟩ := run_of_load hload pending
    refine ⟨hresult, ⟨job.settings, settings_of_ofFile hjob, houtput⟩, ?_⟩
    unfold Job.run
    rw [hload]
    show executed (_ ++ (Record.filePlaced _ finish :: _)) = _
    rw [executed_append, executed_loadEvents]
    rfl

theorem no_session_of_error {e : FileError}
    (h : (runFile path content options pending).result = .error e) :
    session? path content options pending = none := by
  cases hsession : session? path content options pending with
  | none => rfl
  | some session =>
    rw [(runFile_of_session hsession).1] at h
    cases h

/-- A file that comes to no session reports why, and has printed and executed nothing. -/
theorem runFile_of_no_session (h : session? path content options pending = none) :
    let report := runFile path content options pending
    (∃ e, report.result = .error e) ∧ report.output = [] ∧ executed report.records = [] := by
  intro report
  cases hjob : Job.ofFile path content options with
  | error e =>
    have hreport : report = _ := runFile_of_fault hjob
    rw [hreport]
    exact ⟨⟨e, rfl⟩, rfl, rfl⟩
  | ok job =>
    have hreport : report = job.run pending := runFile_of_job hjob
    rw [session?, hjob] at h
    have hnone : job.session? pending = none := h
    rcases hload : Assembler.load job.program job.settings.origin job.memory with
      ⟨e | finish, memory⟩
    · rw [hreport, run_of_refused hload]
      exact ⟨⟨_, rfl⟩, rfl, executed_loadEvents _ _⟩
    · rw [session?_of_load hload] at hnone
      cases hnone

end

end Console
end I8085
