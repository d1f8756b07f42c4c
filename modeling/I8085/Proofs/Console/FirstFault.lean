import I8085.Proofs.Console.Executed
import I8085.Proofs.Console.RefusedLine

/-!
# The first fault of a file

Many things can be wrong with a file and the options it is run with, and any number of them at
once.  `checks` lists what there is to find fault with, in a fixed order, and each of them looks at
nothing but its own text; only the lines of the program have to be placed to be named, and so need
the file and its origin.  The first fault in the list is what a run of the file reports, and all
that it does.
-/

namespace I8085
namespace Console

open Assembler (load size)
open SourceLine (instruction? refusal?)

/-- What is wrong with something that was read, if anything is. -/
def faultOf {ε α : Type} : Except ε α → Option ε
  | .error e => some e
  | .ok _ => none

def firstFault {ε : Type} (checks : List (Option ε)) : Option ε := checks.findSome? id

section

variable {ε ε' α β : Type}

theorem firstFault_cons (check : Option ε) (checks : List (Option ε)) :
    firstFault (check :: checks) = check.or (firstFault checks) := by
  cases check <;> rfl

theorem firstFault_append (checks rest : List (Option ε)) :
    firstFault (checks ++ rest) = (firstFault checks).or (firstFault rest) := by
  rw [firstFault, List.findSome?_append, firstFault, firstFault]

theorem firstFault_map (g : ε → ε') (checks : List (Option ε)) :
    firstFault (checks.map (Option.map g)) = (firstFault checks).map g := by
  induction checks with
  | nil => rfl
  | cons check checks ih =>
    rw [List.map_cons, firstFault_cons, firstFault_cons, ih]
    cases check <;> rfl

/-- A list is read up to the first of its texts that is at fault. -/
theorem faultOf_mapM (read : α → Except ε β) (xs : List α) :
    faultOf (xs.mapM read) = firstFault (xs.map fun x => faultOf (read x)) := by
  induction xs with
  | nil => rfl
  | cons x xs ih =>
    rw [List.mapM_cons, List.map_cons, firstFault_cons, ← ih]
    cases read x with
    | error e => rfl
    | ok y => cases xs.mapM read <;> rfl

theorem faultOf_eq_none_iff {x : Except ε α} : faultOf x = none ↔ ∃ a, x = .ok a := by
  cases x <;> simp [faultOf]

theorem faultOf_eq_some_iff {x : Except ε α} {e : ε} : faultOf x = some e ↔ x = .error e := by
  cases x <;> simp [faultOf]

end

/-! ## The options -/

/-- The option texts: origin, start, limit and range, then the cells in the order in which they
are given. -/
def RunOptions.checks (o : RunOptions) : List (Option SettingError) :=
  [faultOf (Setting.address o.origin),
   faultOf (Setting.optional Setting.address o.start),
   faultOf (Setting.optional Setting.stepCount o.maxSteps),
   faultOf (Setting.optional Setting.range o.dump)] ++
  o.set.map fun text => faultOf (Setting.cell text)

theorem faultOf_settings (o : RunOptions) :
    faultOf o.settings =
      firstFault [faultOf (Setting.address o.origin),
        faultOf (Setting.optional Setting.address o.start),
        faultOf (Setting.optional Setting.stepCount o.maxSteps),
        faultOf (Setting.optional Setting.range o.dump)] := by
  unfold RunOptions.settings
  cases Setting.address o.origin with
  | error e => rfl
  | ok origin =>
    cases Setting.optional Setting.address o.start with
    | error e => rfl
    | ok start =>
      cases Setting.optional Setting.stepCount o.maxSteps with
      | error e => rfl
      | ok limit => cases Setting.optional Setting.range o.dump <;> rfl

theorem firstFault_options (o : RunOptions) :
    firstFault o.checks = (faultOf o.settings).or (faultOf (o.set.mapM Setting.cell)) := by
  rw [RunOptions.checks, firstFault_append, ← faultOf_settings, ← faultOf_mapM]

/-- Options without a fault say something. -/
theorem firstFault_options_eq_none_iff {o : RunOptions} :
    firstFault o.checks = none ↔ ∃ settings cells, o.Say settings cells := by
  rw [firstFault_options, Option.or_eq_none_iff, faultOf_eq_none_iff, faultOf_eq_none_iff]
  constructor
  · rintro ⟨⟨settings, hsettings⟩, cells, hcells⟩
    exact ⟨settings, cells, settings_eq_ok_iff.1 ⟨hsettings, hcells⟩⟩
  · rintro ⟨settings, cells, hsay⟩
    obtain ⟨hsettings, hcells⟩ := settings_eq_ok_iff.2 hsay
    exact ⟨⟨settings, hsettings⟩, cells, hcells⟩

theorem faultOf_ofFile (path : String) (content : Except SystemFault ByteArray)
    (options : RunOptions) :
    faultOf (Job.ofFile path content options) =
      (faultOf (fileText path content)).or ((firstFault options.checks).map .setting) := by
  rw [firstFault_options]
  unfold Job.ofFile
  cases fileText path content with
  | error e => rfl
  | ok text =>
    cases options.settings with
    | error e => rfl
    | ok settings => cases options.set.mapM Setting.cell <;> rfl

/-! ## The program -/

/-- The first refused line among lines that are counted from a number on and placed from an
address up. -/
def firstRefused? (path : String) : Nat → Word → List (List Char) → Option FileError
  | _, _, [] => none
  | number, address, line :: lines =>
    match refusal? line with
    | some cause => some (.line path number cause address)
    | none =>
      firstRefused? path (number + 1)
        (address + BitVec.ofNat 16 (size (instruction? line).toList)) lines

/-- The program's fault, if the file and its origin can be read. -/
def programFault? (path : String) (content : Except SystemFault ByteArray)
    (options : RunOptions) : Option FileError :=
  match fileText path content, Setting.address options.origin with
  | .ok text, .ok origin => firstRefused? path 1 origin (SourceLine.lines text.toList)
  | _, _ => none

/-- All there is to find fault with, in the order in which it is reported. -/
def checks (path : String) (content : Except SystemFault ByteArray) (options : RunOptions) :
    List (Option FileError) :=
  faultOf (fileText path content) ::
    (options.checks.map (Option.map .setting) ++ [programFault? path content options])

/-- The line that is found is refused, none before it is, and the instructions of those lines lead
to its address. -/
theorem firstRefused?_cases (path : String) (number : Nat) (address : Word)
    (lines : List (List Char)) :
    ((∀ line ∈ lines, refusal? line = none) ∧ firstRefused? path number address lines = none) ∨
      ∃ before line after cause, lines = before ++ line :: after ∧
        (∀ earlier ∈ before, refusal? earlier = none) ∧ refusal? line = some cause ∧
        firstRefused? path number address lines =
          some (.line path (number + before.length) cause
            (address + BitVec.ofNat 16 (size (before.filterMap instruction?)))) := by
  induction lines generalizing number address with
  | nil => exact .inl ⟨by simp, rfl⟩
  | cons line lines ih =>
    rw [firstRefused?]
    cases hline : refusal? line with
    | some cause =>
      refine .inr ⟨[], line, lines, cause, rfl, by simp, hline, ?_⟩
      rw [List.filterMap_nil, Assembler.size_nil, BitVec.add_zero]
      rfl
    | none =>
      rcases ih (number + 1) (address + BitVec.ofNat 16 (size (instruction? line).toList)) with
        ⟨hnone, hfirst⟩ | ⟨before, bad, after, cause, hlines, hbefore, hbad, hfirst⟩
      · exact .inl ⟨List.forall_mem_cons.2 ⟨hline, hnone⟩, hfirst⟩
      · have place : (line :: before).filterMap instruction? =
            (instruction? line).toList ++ before.filterMap instruction? := by
          cases h : instruction? line with
          | none => rw [List.filterMap_cons_none h]; rfl
          | some i => rw [List.filterMap_cons_some h]; rfl
        refine .inr ⟨line :: before, bad, after, cause, by rw [hlines]; rfl,
          List.forall_mem_cons.2 ⟨hline, hbefore⟩, hbad, hfirst.trans ?_⟩
        rw [place, Assembler.size_append, BitVec.ofNat_add, BitVec.add_assoc, List.length_cons,
          Nat.add_assoc, Nat.add_comm 1]

/-! ## What is reported -/

theorem fileText_eq_ok_iff {path text : String} {content : Except SystemFault ByteArray} :
    fileText path content = .ok text ↔ content = .ok text.toUTF8 := by
  constructor
  · intro h
    unfold fileText at h
    split at h
    · cases h
    · next bytes =>
      split at h
      · next read hread =>
        cases h
        unfold String.fromUTF8? at hread
        split at hread
        · cases hread
          rfl
        · cases hread
      · cases h
  · rintro rfl
    exact fileText_toUTF8 path text

section

variable {path : String} {content : Except SystemFault ByteArray} {options : RunOptions}

theorem firstFault_checks :
    firstFault (checks path content options) =
      (faultOf (Job.ofFile path content options)).or (programFault? path content options) := by
  rw [checks, firstFault_cons, firstFault_append, firstFault_map, faultOf_ofFile, Option.or_assoc,
    firstFault_cons]
  cases programFault? path content options <;> rfl

/-- A job that was made is the job of a text, whose options say something. -/
theorem exists_text_of_job {job : Job} (h : Job.ofFile path content options = .ok job) :
    ∃ text settings cells, content = .ok text.toUTF8 ∧ options.Say settings cells ∧
      job = jobOf path text settings cells := by
  obtain ⟨text, htext⟩ : ∃ text, fileText path content = .ok text := by
    have whole := faultOf_ofFile path content options
    rw [h] at whole
    exact faultOf_eq_none_iff.1 (Option.or_eq_none_iff.1 whole.symm).1
  obtain rfl := fileText_eq_ok_iff.1 htext
  obtain ⟨settings, cells, hsay, hjob⟩ := ofFile_eq_ok_iff.1 h
  exact ⟨text, settings, cells, rfl, hsay, hjob⟩

/-- A job that was made has no fault but that of its program. -/
theorem faultOf_run {job : Job} (h : Job.ofFile path content options = .ok job)
    (pending : Nat → Bool) :
    faultOf (job.run pending).result = programFault? path content options := by
  obtain ⟨text, settings, cells, rfl, hsay, rfl⟩ := exists_text_of_job h
  have found : programFault? path (.ok text.toUTF8) options =
      firstRefused? path 1 settings.origin (SourceLine.lines text.toList) := by
    rw [programFault?, fileText_toUTF8, hsay.origin]
  rw [found]
  rcases firstRefused?_cases path 1 settings.origin (SourceLine.lines text.toList) with
    ⟨hnone, hfirst⟩ | ⟨before, line, after, cause, hlines, hbefore, hline, hfirst⟩
  · have assembled := SourceLine.assemble_numbered hnone 1
    rw [← SourceLine.ofText_eq_numbered] at assembled
    have placed : load (jobOf path text settings cells).program settings.origin
        (seeded Memory.zero cells) = _ := Assembler.load_of_accepted assembled _ _
    rw [hfirst, (run_of_load placed pending).1]
    rfl
  · rw [hfirst, ← runFile_of_say hsay, runFile_of_refused path hsay hlines hbefore hline,
      Nat.add_comm 1]
    rfl

theorem faultOf_runFile (pending : Nat → Bool) :
    faultOf (runFile path content options pending).result =
      firstFault (checks path content options) := by
  rw [firstFault_checks]
  cases h : Job.ofFile path content options with
  | error e => rw [runFile_of_fault h]; rfl
  | ok job => rw [runFile_of_job h, faultOf_run h]; rfl

end

/-- Whatever else is wrong with a file and its options, the first fault in the list is what a run
of the file reports, and its message is the last record of the command that runs it, which exits
with 1.  No session is held, so that nothing is executed, and neither registers nor memory are
printed.  A file without a fault is run. -/
theorem runFile_reports_first_fault (path : String) (content : Except SystemFault ByteArray)
    (options : RunOptions) (pending : Nat → Bool) :
    let report := runFile path content options pending
    match firstFault (checks path content options) with
    | some fault =>
      report.result = .error fault ∧ report.output = [] ∧ executed report.records = [] ∧
        session? path content options pending = none ∧
        Command.runPath path content options pending =
          { status := 1, output := [], records := report.records ++ [.refused fault.message] }
    | none => ∃ halted, report.result = .ok halted := by
  intro report
  have hreport : faultOf report.result = _ := faultOf_runFile pending
  rw [← hreport]
  cases hresult : report.result with
  | ok halted => exact ⟨halted, rfl⟩
  | error fault =>
    have hsession := no_session_of_error hresult
    obtain ⟨-, houtput, hrecords⟩ := runFile_of_no_session hsession
    refine ⟨rfl, houtput, hrecords, hsession, ?_⟩
    simp only [Command.runPath, show (runFile path content options pending).result = _ from hresult,
      houtput]
    rfl

end Console
end I8085
