import I8085.Console.Command
import I8085.Proofs.Assembler.Loading
import I8085.Proofs.Console.Handler
import I8085.Proofs.Console.Session
import I8085.Proofs.Console.Source
import Mathlib.Data.List.Forall2

/-!
# Running a file is running its program

A file is run if its text, its settings and the lines of its program can all be read, and
then it is one run: of the program, placed over the cells that were set, from the start.
What is printed is the state which that run leaves, whether or not it halted.

The pipeline is read backwards once.  `RunOptions.Say` is what the options mean, without
the order in which they are looked at, and `ofFile_eq_ok_iff` says that a job is made of
nothing else; `load_eq_ok_iff` says when its program is placed.
-/

namespace I8085

/-! ## Reading several things one after another -/

namespace Console

theorem mapError_eq_ok_iff {ε ε' α : Type} {g : ε → ε'} {x : Except ε α} {a : α} :
    x.mapError g = .ok a ↔ x = .ok a := by
  cases x <;> simp [Except.mapError]

theorem mapM_eq_ok_iff {ε α β : Type} {read : α → Except ε β} {xs : List α} {ys : List β} :
    xs.mapM read = .ok ys ↔ List.Forall₂ (fun x y => read x = .ok y) xs ys := by
  induction xs generalizing ys with
  | nil =>
    rw [List.mapM_nil, List.forall₂_nil_left_iff]
    exact ⟨fun h => by cases h; rfl, fun h => by rw [h]; rfl⟩
  | cons x xs ih =>
    simp only [List.mapM_cons, Assembler.bind_eq_ok_iff, List.forall₂_cons_left_iff, ih]
    constructor
    · rintro ⟨y, hx, rest, hxs, hys⟩
      cases hys
      exact ⟨y, rest, hx, hxs, rfl⟩
    · rintro ⟨y, rest, hx, hxs, rfl⟩
      exact ⟨y, hx, rest, hxs, rfl⟩

/-- An option that was not given is read as none. -/
def OptionSays {α : Type} (read : String → Except SettingError α) :
    Option String → Option α → Prop
  | none, value => value = none
  | some text, value => ∃ a, read text = .ok a ∧ value = some a

theorem optional_eq_ok_iff {α : Type} {read : String → Except SettingError α}
    {text : Option String} {value : Option α} :
    Setting.optional read text = .ok value ↔ OptionSays read text value := by
  cases text with
  | none => simp [Setting.optional, OptionSays, eq_comm]
  | some text =>
    rw [Setting.optional, OptionSays]
    cases read text with
    | error e => simp [Except.map]
    | ok a => simp [Except.map, eq_comm]

/-! ## The settings -/

/-- What the options say, if each of them can be read.  The start is the origin unless it
is given. -/
structure RunOptions.Say (o : RunOptions) (settings : RunSettings) (cells : List (Word × Byte)) :
    Prop where
  origin : Setting.address o.origin = .ok settings.origin
  start : ∃ given, OptionSays Setting.address o.start given ∧
    settings.start = given.getD settings.origin
  limit : OptionSays Setting.stepCount o.maxSteps settings.limit
  range : OptionSays Setting.range o.dump settings.range
  cells : List.Forall₂ (fun text cell => Setting.cell text = .ok cell) o.set cells

theorem settings_eq_ok_iff {o : RunOptions} {settings : RunSettings}
    {cells : List (Word × Byte)} :
    o.settings = .ok settings ∧ o.set.mapM Setting.cell = .ok cells ↔ o.Say settings cells := by
  simp only [RunOptions.settings, Assembler.bind_eq_ok_iff, optional_eq_ok_iff, mapM_eq_ok_iff]
  constructor
  · rintro ⟨⟨origin, horigin, start, hstart, limit, hlimit, range, hrange, h⟩, hcells⟩
    cases h
    exact ⟨horigin, ⟨start, hstart, rfl⟩, hlimit, hrange, hcells⟩
  · rintro ⟨horigin, ⟨start, hstart, heq⟩, hlimit, hrange, hcells⟩
    refine ⟨⟨settings.origin, horigin, start, hstart, settings.limit, hlimit, settings.range,
      hrange, ?_⟩, hcells⟩
    rw [← heq]
    rfl

theorem fileText_toUTF8 (path text : String) :
    fileText path (.ok text.toUTF8) = .ok text := by
  have valid : String.fromUTF8? text.toUTF8 = some text := by
    simp only [String.fromUTF8?, String.toUTF8_eq_toByteArray, dif_pos text.isValidUTF8]
    rfl
  rw [fileText, valid]

/-- The job of a text with readable options. -/
def jobOf (path text : String) (settings : RunSettings) (cells : List (Word × Byte)) : Job :=
  { path, settings, lines := SourceLine.ofText text, memory := seeded Memory.zero cells }

theorem program_jobOf (path text : String) (settings : RunSettings)
    (cells : List (Word × Byte)) :
    (jobOf path text settings cells).program = SourceLine.program text :=
  SourceLine.map_text_ofText text

/-- A job is what the text and the options of a file say. -/
theorem ofFile_eq_ok_iff {path text : String} {options : RunOptions} {job : Job} :
    Job.ofFile path (.ok text.toUTF8) options = .ok job ↔
      ∃ settings cells, options.Say settings cells ∧
        job = jobOf path text settings cells := by
  simp only [Job.ofFile, Assembler.bind_eq_ok_iff, fileText_toUTF8, mapError_eq_ok_iff,
    Except.ok.injEq, exists_eq_left', ← settings_eq_ok_iff]
  constructor
  · rintro ⟨settings, hsettings, cells, hcells, h⟩
    cases h
    exact ⟨settings, cells, ⟨hsettings, hcells⟩, rfl⟩
  · rintro ⟨settings, cells, ⟨hsettings, hcells⟩, rfl⟩
    exact ⟨settings, hsettings, cells, hcells, rfl⟩

/-! ## The cells that were set -/

/-- Of two values set for a cell the later one stands. -/
theorem read_seeded (m : Memory) (cells : List (Word × Byte)) (x : Word) :
    (seeded m cells).read x =
      ((cells.reverse.find? fun cell => cell.1 = x).map Prod.snd).getD (m.read x) := by
  induction cells generalizing m with
  | nil => rfl
  | cons cell cells ih =>
    obtain ⟨y, v⟩ := cell
    show (seeded (m.write y v) cells).read x = _
    rw [ih, Memory.read_write, List.reverse_cons, List.find?_append]
    cases cells.reverse.find? fun cell => cell.1 = x with
    | some later => rfl
    | none => by_cases h : y = x <;> simp [h]

end Console

/-! ## The program -/

namespace Assembler

theorem load_eq_ok_iff {lines : List String} {a : Word} {m : Memory} :
    (∃ finish, (load lines a m).1 = .ok finish) ↔ ∀ line ∈ lines, ∃ i, encode line = .ok i := by
  rcases assemble_cases lines with ⟨program, h⟩ | ⟨before, cause, after, h⟩
  · refine iff_of_true ⟨_, congrArg Prod.fst (load_of_accepted h a m)⟩ (fun line hline => ?_)
    have hmem : encode line ∈ program.map .ok := h ▸ List.mem_map_of_mem hline
    obtain ⟨i, -, hi⟩ := List.mem_map.1 hmem
    exact ⟨i, hi.symm⟩
  · refine iff_of_false ?_ (fun hall => ?_)
    · rintro ⟨finish, hfinish⟩
      rw [load_of_refused h] at hfinish
      cases hfinish
    · have hmem : Except.error cause ∈ assemble lines := by simp [h]
      obtain ⟨line, hline, hcause⟩ := List.mem_map.1 hmem
      obtain ⟨i, hi⟩ := hall line hline
      rw [hi] at hcause
      cases hcause

end Assembler

namespace Console

open Assembler (load encode load_eq_ok_iff)

/-- A job whose program is placed holds a session and tells what it leaves. -/
theorem run_of_load {job : Job} {finish : Word} {memory : Memory}
    (h : load job.program job.settings.origin job.memory = (.ok finish, memory))
    (pending : Nat → Bool) :
    let session : Session := .execute memory {} job.settings.start job.settings.limit pending
    (job.run pending).result = .ok session.succeeded ∧
      (job.run pending).output = printed session.machine job.settings.range := by
  unfold Job.run
  rw [h]
  exact ⟨rfl, rfl⟩

theorem run_of_refused {job : Job} {e : LoadError} {memory : Memory}
    (h : load job.program job.settings.origin job.memory = (.error e, memory))
    (pending : Nat → Bool) :
    job.run pending =
      { result := .error (lineError job.path job.lines e)
        output := []
        records := (Assembler.loadEvents job.program job.settings.origin).map .event } := by
  unfold Job.run
  rw [h]

theorem run_ok_iff (job : Job) (pending : Nat → Bool) :
    (∃ halted, (job.run pending).result = .ok halted) ↔
      ∀ line ∈ job.program, ∃ i, encode line = .ok i := by
  rw [← load_eq_ok_iff (a := job.settings.origin) (m := job.memory)]
  rcases h : load job.program job.settings.origin job.memory with ⟨e | finish, memory⟩
  · rw [run_of_refused h]
    simp
  · exact iff_of_true ⟨_, (run_of_load h pending).1⟩ ⟨finish, rfl⟩

/-! ## The file -/

section

variable {path text : String} {options : RunOptions} {settings : RunSettings}
  {cells : List (Word × Byte)}

theorem runFile_of_say (h : options.Say settings cells) (pending : Nat → Bool) :
    runFile path (.ok text.toUTF8) options pending =
      (jobOf path text settings cells).run pending := by
  unfold runFile
  rw [ofFile_eq_ok_iff.2 ⟨settings, cells, h, rfl⟩]

theorem exists_say_of_ok {pending : Nat → Bool} {halted : Bool}
    (h : (runFile path (.ok text.toUTF8) options pending).result = .ok halted) :
    ∃ settings cells, options.Say settings cells := by
  unfold runFile at h
  cases hjob : Job.ofFile path (.ok text.toUTF8) options with
  | error e =>
    rw [hjob] at h
    cases h
  | ok job =>
    obtain ⟨settings, cells, hsay, -⟩ := ofFile_eq_ok_iff.1 hjob
    exact ⟨settings, cells, hsay⟩

end

/-- The command that runs a file prints what the run prints, and exits with 0 if the file
halts. -/
theorem runPath_of_runFile (path : String) (content : Except SystemFault ByteArray)
    (options : RunOptions) (pending : Nat → Bool) :
    let response := Command.runPath path content options pending
    let report := runFile path content options pending
    response.output = report.output ∧ (report.result = .ok true → response.status = 0) ∧
      (report.result ≠ .ok true → response.status = 1) := by
  cases h : (runFile path content options pending).result with
  | error e => simp [Command.runPath, h]
  | ok halted => cases halted <;> simp [Command.runPath, Command.status, h]

/-- The program was started to run a file: the handler of interrupts is set, and a parser has
found the command and its options. -/
structure Surroundings.Runs (s : Surroundings) (arguments : List String) (path : String)
    (options : RunOptions) : Prop where
  handlerSet : s.handlerSet = .ok ()
  parsed : ∃ m, s.parse Command.rules arguments = .ok m ∧
    Command.ofMatches? m = some (.run path options)

namespace Keyboard

theorem unlessExited_of_exited {C : Type} {k : Keyboard C} {code : Int}
    (h : k.handler = .exited code) (said further : Response) :
    k.unlessExited said further = said.exit code := by
  rw [unlessExited, h]

theorem unlessExited_of_not_exited {C : Type} {k : Keyboard C}
    (h : ∀ code, k.handler ≠ .exited code) (said further : Response) :
    k.unlessExited said further = further := by
  rw [unlessExited]
  split
  · next code hexited => exact absurd hexited (h code)
  · rfl

end Keyboard

/-- All that happens until the source is read. -/
def Surroundings.startUp (s : Surroundings) : List Moment := s.parsing ++ s.reading

section

variable {C : Type} [Channel C] {s : Surroundings} {arguments : List String} {path : String}
  {options : RunOptions}

theorem respond_of_runs (h : s.Runs arguments path options) :
    let parsed : Keyboard C := Keyboard.start.after s.parsing
    let read : Keyboard C := Keyboard.start.after s.startUp
    respond C s arguments = parsed.unlessExited .silent (read.unlessExited .silent
      (Command.runPath path (s.files path) options fun _ => read.isPending)) := by
  intro parsed read
  obtain ⟨m, hparse, hcommand⟩ := h.parsed
  have hread : read = parsed.after s.reading := Keyboard.after_append _ s.parsing s.reading
  rw [hread]
  unfold respond
  rw [h.handlerSet]
  simp only [hparse, hcommand]
  rfl

/-- A handler that has ended the program leaves the status that it asked for, and nothing is
said. -/
theorem respond_of_exited {code : Int} (h : s.Runs arguments path options)
    (hexited : (Keyboard.start.after s.startUp : Keyboard C).handler = .exited code) :
    respond C s arguments = Response.silent.exit code := by
  rw [respond_of_runs h]
  by_cases hparsed : ∃ code', (Keyboard.start.after s.parsing : Keyboard C).handler = .exited code'
  · obtain ⟨code', hcode⟩ := hparsed
    have same := Keyboard.after_of_exited hcode s.reading
    rw [← Keyboard.after_append, ← Surroundings.startUp] at same
    rw [Keyboard.unlessExited_of_exited (same ▸ hexited)]
  · rw [Keyboard.unlessExited_of_not_exited (not_exists.1 hparsed),
      Keyboard.unlessExited_of_exited hexited]

/-- Otherwise the file is run, and the session finds what waits in the channel. -/
theorem respond_of_not_exited (h : s.Runs arguments path options)
    (hrunning : ∀ code, (Keyboard.start.after s.startUp : Keyboard C).handler ≠ .exited code) :
    respond C s arguments = Command.runPath path (s.files path) options
      fun _ => (Keyboard.start.after s.startUp : Keyboard C).isPending := by
  rw [respond_of_runs h, Keyboard.unlessExited_of_not_exited,
    Keyboard.unlessExited_of_not_exited hrunning]
  intro code hexited
  refine hrunning code ?_
  rw [Surroundings.startUp, Keyboard.after_append, Keyboard.after_of_exited hexited, hexited]

theorem respond_of_undisturbed [LawfulChannel C] (h : s.Runs arguments path options)
    (hparsing : s.parsing = []) (hreading : s.reading = []) :
    respond C s arguments = Command.runPath path (s.files path) options fun _ => false := by
  have hstart : s.startUp = [] := by rw [Surroundings.startUp, hparsing, hreading, List.nil_append]
  have hempty : (Keyboard.start : Keyboard C).isPending = false := by
    rw [← Bool.not_eq_true, Keyboard.isPending_iff, not_not]
    exact LawfulChannel.len_bounded 1
  rw [respond_of_not_exited h ?_, hstart]
  · exact congrArg (fun waits => Command.runPath path (s.files path) options fun _ => waits) hempty
  · rw [hstart]
    exact Keyboard.not_exited_after (Nat.zero_le 1)

end

/-- The text of a file is run if its options can be read and every line of its program is
an instruction, and not otherwise.  Then the cells that the options set are written into
zeroed memory in their order, the program is placed over them at its origin, and the file
halts if the run of this memory from the start, with all registers zero, answers with a
count.  Printed are the registers that this run leaves and, if a range was asked for, the
memory it leaves there.  The command that runs the file exits with 0 if the file halts,
with 1 in every other case. -/
theorem runFile_of_text (path text : String) (options : RunOptions) :
    let report := runFile path (.ok text.toUTF8) options fun _ => false
    ((∃ halted, report.result = .ok halted) ↔
      (∃ settings cells, options.Say settings cells) ∧
        ∀ line ∈ SourceLine.program text, ∃ i, encode line = .ok i) ∧
    (∀ settings cells, options.Say settings cells →
      (∀ line ∈ SourceLine.program text, ∃ i, encode line = .ok i) →
      let set := seeded Memory.zero cells
      let memory := (load (SourceLine.program text) settings.origin set).2
      let machine : Machine := { memory, registers := {} }
      let run := machine.runFrom settings.start settings.limit
      (∀ x, set.read x =
        ((cells.reverse.find? fun cell => cell.1 = x).map Prod.snd).getD 0) ∧
      (report.result = .ok true ↔ ∃ count, run.1 = .ok count) ∧
      report.output = run.2.registers.text ::
        match settings.range with
        | none => []
        | some (first, last) => dump run.2.memory first last) ∧
    ∀ (C : Type) [Channel C] [LawfulChannel C] (s : Surroundings) (arguments : List String),
      s.Runs arguments path options → s.files path = .ok text.toUTF8 →
      s.parsing = [] → s.reading = [] →
      let response := respond C s arguments
      response.output = report.output ∧ (report.result = .ok true → response.status = 0) ∧
        (report.result ≠ .ok true → response.status = 1) := by
  intro report
  refine ⟨⟨?_, ?_⟩, fun settings cells hsay hlines => ?_,
    fun C _ _ s arguments hruns hfile hparsing hreading => ?_⟩
  · rintro ⟨halted, hhalted⟩
    obtain ⟨settings, cells, hsay⟩ := exists_say_of_ok hhalted
    refine ⟨⟨settings, cells, hsay⟩, ?_⟩
    rw [← program_jobOf path text settings cells, ← run_ok_iff _ fun _ => false,
      ← runFile_of_say hsay]
    exact ⟨halted, hhalted⟩
  · rintro ⟨⟨settings, cells, hsay⟩, hlines⟩
    rw [← program_jobOf path text settings cells, ← run_ok_iff _ fun _ => false,
      ← runFile_of_say hsay] at hlines
    exact hlines
  · intro set memory machine run
    have hreport : report = _ := runFile_of_say hsay fun _ => false
    obtain ⟨finish, hfinish⟩ := load_eq_ok_iff (a := settings.origin) (m := set).2 hlines
    have hload : load (jobOf path text settings cells).program settings.origin set =
        (.ok finish, memory) := by
      rw [program_jobOf]
      exact Prod.ext hfinish rfl
    obtain ⟨hresult, houtput⟩ := run_of_load hload fun _ => false
    refine ⟨fun x => ?_, ?_, ?_⟩
    · rw [read_seeded, Memory.read_zero]
    · rw [hreport, hresult, Except.ok.injEq]
      exact Session.succeeded_of_quiet memory {} settings.start settings.limit
    · rw [hreport, houtput]
      exact congrArg (printed · settings.range)
        (Session.machine_of_quiet memory {} settings.start settings.limit)
  · rw [respond_of_undisturbed hruns hparsing hreading, hfile]
    exact runPath_of_runFile path (.ok text.toUTF8) options fun _ => false

end Console
end I8085
