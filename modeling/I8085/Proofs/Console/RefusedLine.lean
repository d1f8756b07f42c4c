import I8085.Proofs.Console.RunFile

/-!
# The line that is named when a file is not run

Two counts lead to a bad line.  The assembler counts instructions, and the file is read by its
lines, of which any number can be blank or hold a comment and nothing else.  The first refused line
of the file is the first refused instruction of its program: it is named by its own number, and its
address is the origin and the lengths of the instructions on the lines before it.
-/

namespace I8085

namespace Assembler

theorem encode_trim (s : List Char) :
    encode (String.ofList (Text.trim s)) = encode (String.ofList s) := by
  simp only [encode, String.toList_ofList, Text.trim_trim]

/-! ## What is reported of a program that is refused -/

/-- Of a program with a refused line only the lines that were placed are reported. -/
theorem exists_linePlaced_of_mem_loadEventsFrom {lines : List String}
    (h : ∃ line ∈ lines, ∃ cause, encode line = .error cause) {origin cursor : Word} {event : Event}
    (hevent : event ∈ loadEventsFrom origin lines cursor) :
    ∃ address line bytes, event = .linePlaced address line bytes := by
  induction lines generalizing cursor with
  | nil =>
    obtain ⟨line, hline, -⟩ := h
    cases hline
  | cons line lines ih =>
    obtain ⟨bad, hbad, cause, hcause⟩ := h
    rw [loadEventsFrom] at hevent
    cases hencode : encode line with
    | error _ =>
      rw [hencode] at hevent
      cases hevent
    | ok i =>
      rw [hencode] at hevent
      rcases List.mem_cons.1 hevent with rfl | hevent
      · exact ⟨cursor, line, i.bytes, rfl⟩
      · refine ih ⟨bad, ?_, cause, hcause⟩ hevent
        rcases List.mem_cons.1 hbad with rfl | hbad
        · rw [hcause] at hencode
          cases hencode
        · exact hbad

end Assembler

namespace Console

open Assembler (assemble encode load loadEvents size)

namespace SourceLine

/-- What a line without a comment means. -/
def meaningOf (s : List Char) : Option (Except AsmError Instruction) :=
  if Text.trim s = [] then none else some (encode (String.ofList s))

/-- The instruction that a line stands for or the cause it is refused for, if it holds more than a
comment. -/
def meaning? (line : List Char) : Option (Except AsmError Instruction) :=
  meaningOf (Text.upTo ';' line)

theorem assemble_numbered_eq_meanings (first : Nat) (lines : List (List Char)) :
    assemble ((numbered first lines).map text) = lines.filterMap meaning? := by
  rw [map_text_numbered]
  induction lines with
  | nil => rfl
  | cons line lines ih =>
    rw [List.map_cons, List.filterMap_cons, meaning?, meaningOf]
    by_cases h : Text.trim (Text.upTo ';' line) = []
    · have skipped : instructionText line = [] := h
      rw [List.filter_cons_of_neg (by simp [skipped]), if_pos h]
      exact ih
    · have held : instructionText line ≠ [] := h
      rw [List.filter_cons_of_pos (by simp [held]), if_neg h, List.map_cons, assemble,
        List.map_cons, ← assemble, ih, instructionText, Assembler.encode_trim]

/-- What the instruction on a line is refused for, if the line holds more than a comment and what
it holds is refused. -/
def refusal? (line : List Char) : Option AsmError :=
  if instructionText line = [] then none
  else
    match encode (String.ofList (instructionText line)) with
    | .error cause => some cause
    | .ok _ => none

/-- The instruction on a line, if there is one. -/
def instruction? (line : List Char) : Option Instruction :=
  if instructionText line = [] then none
  else (encode (String.ofList (instructionText line))).toOption

theorem refusal?_eq_some_iff {line : List Char} {cause : AsmError} :
    refusal? line = some cause ↔
      instructionText line ≠ [] ∧ encode (String.ofList (instructionText line)) = .error cause := by
  unfold refusal?
  split
  · next blank => simp [blank]
  · next held =>
    rw [and_iff_right held]
    cases encode (String.ofList (instructionText line)) with
    | error other => simp
    | ok i => simp

theorem exists_first_refusal {lines : List (List Char)}
    (h : ∃ line ∈ lines, refusal? line ≠ none) :
    ∃ before line after cause, lines = before ++ line :: after ∧
      (∀ earlier ∈ before, refusal? earlier = none) ∧ refusal? line = some cause := by
  cases hfirst : lines.findSome? refusal? with
  | none =>
    obtain ⟨line, hline, hrefused⟩ := h
    exact absurd (List.findSome?_eq_none_iff.1 hfirst line hline) hrefused
  | some cause =>
    obtain ⟨before, line, after, hlines, hcause, hbefore⟩ := List.findSome?_eq_some_iff.1 hfirst
    exact ⟨before, line, after, cause, hlines, hbefore, hcause⟩

theorem meaning?_of_not_refused {line : List Char} (h : refusal? line = none) :
    meaning? line = (instruction? line).map .ok := by
  unfold refusal? at h
  rw [meaning?, meaningOf, instruction?, ← Assembler.encode_trim, ← instructionText]
  split
  · rfl
  · next held =>
    rw [if_neg held] at h
    cases hencode : encode (String.ofList (instructionText line)) with
    | error cause =>
      rw [hencode] at h
      cases h
    | ok i => rfl

/-- Lines of which none is refused are assembled to the instructions on them, wherever their
numbers begin. -/
theorem assemble_numbered {lines : List (List Char)} (h : ∀ line ∈ lines, refusal? line = none)
    (first : Nat) :
    assemble ((numbered first lines).map text) = (lines.filterMap instruction?).map .ok := by
  rw [assemble_numbered_eq_meanings, List.map_filterMap]
  exact List.filterMap_congr fun line hline => meaning?_of_not_refused (h line hline)

theorem numbered_cons_of_ne_nil {line : List Char} (h : instructionText line ≠ []) (first : Nat)
    (lines : List (List Char)) :
    numbered first (line :: lines) =
      { number := first, text := String.ofList (instructionText line) } ::
        numbered (first + 1) lines := by
  rw [numbered_cons, ofLine?]
  cases htext : instructionText line with
  | nil => exact absurd htext h
  | cons c cs => rfl

end SourceLine

open SourceLine (instruction? numbered refusal? refusal?_eq_some_iff)

section

variable {text : String} {options : RunOptions} {settings : RunSettings}
  {cells : List (Word × Byte)} {before after : List (List Char)} {line : List Char}
  {cause : AsmError}

/-- The program is refused at the instruction of the first refused line, and that instruction has
the number of the line. -/
theorem load_jobOf_of_refused (path : String)
    (hlines : SourceLine.lines text.toList = before ++ line :: after)
    (hbefore : ∀ earlier ∈ before, refusal? earlier = none) (hline : refusal? line = some cause) :
    let job := jobOf path text settings cells
    let address := settings.origin + BitVec.ofNat 16 (size (before.filterMap instruction?))
    ∃ e memory, load job.program settings.origin job.memory = (.error e, memory) ∧
      lineError path job.lines e = .line path (before.length + 1) cause address := by
  intro job address
  obtain ⟨hheld, hcause⟩ := refusal?_eq_some_iff.1 hline
  have count : (numbered 1 before).length = (before.filterMap instruction?).length := by
    have := congrArg List.length (SourceLine.assemble_numbered hbefore 1)
    simpa [assemble] using this
  have read : job.lines = numbered 1 before ++
      { number := 1 + before.length, text := String.ofList (SourceLine.instructionText line) } ::
        numbered (1 + before.length + 1) after := by
    show SourceLine.ofText text = _
    rw [SourceLine.ofText_eq_numbered, hlines, SourceLine.numbered_append,
      SourceLine.numbered_cons_of_ne_nil hheld]
  have assembled : assemble job.program = (before.filterMap instruction?).map .ok ++
      .error cause :: assemble ((numbered (1 + before.length + 1) after).map SourceLine.text) := by
    rw [Job.program, read, List.map_append, List.map_cons, assemble, List.map_append,
      List.map_cons, hcause]
    rw [← assemble, SourceLine.assemble_numbered hbefore, assemble]
  have place : (job.lines.map SourceLine.number)[(before.filterMap instruction?).length]? =
      some (before.length + 1) := by
    rw [read, ← count, List.map_append, List.map_cons, List.getElem?_append_right (by simp),
      List.length_map, Nat.sub_self, List.getElem?_cons_zero, Nat.add_comm]
  refine ⟨_, _, Assembler.load_of_refused assembled _ _, ?_⟩
  rw [lineError, place]
  rfl

theorem runFile_of_refused (path : String) (hsay : options.Say settings cells)
    (hlines : SourceLine.lines text.toList = before ++ line :: after)
    (hbefore : ∀ earlier ∈ before, refusal? earlier = none) (hline : refusal? line = some cause)
    (pending : Nat → Bool) :
    let address := settings.origin + BitVec.ofNat 16 (size (before.filterMap instruction?))
    runFile path (.ok text.toUTF8) options pending =
      { result := .error (.line path (before.length + 1) cause address)
        output := []
        records := (loadEvents (SourceLine.program text) settings.origin).map .event } := by
  intro address
  obtain ⟨e, memory, hload, hfault⟩ := load_jobOf_of_refused path hlines hbefore hline
  rw [runFile_of_say hsay, run_of_refused hload]
  show FileReport.mk (.error (lineError path _ e)) [] _ = _
  rw [hfault, program_jobOf]
  rfl

theorem exists_linePlaced_of_refused
    (hlines : SourceLine.lines text.toList = before ++ line :: after)
    (hline : refusal? line = some cause) {origin : Word} {record : Record}
    (h : record ∈ (loadEvents (SourceLine.program text) origin).map Record.event) :
    ∃ address source bytes, record = .event (.linePlaced address source bytes) := by
  obtain ⟨event, hevent, rfl⟩ := List.mem_map.1 h
  obtain ⟨hheld, hcause⟩ := refusal?_eq_some_iff.1 hline
  have refused : String.ofList (SourceLine.instructionText line) ∈ SourceLine.program text := by
    simp [SourceLine.program, hlines, hheld]
  obtain ⟨address, source, bytes, rfl⟩ :=
    Assembler.exists_linePlaced_of_mem_loadEventsFrom ⟨_, refused, cause, hcause⟩ hevent
  exact ⟨address, source, bytes, rfl⟩

end

/-- If a line of a file holds something that is no instruction, then the file is not run.  Named
are the file, the first such line by its number among all lines of the file, what that line is
refused for, and the address behind the instructions of the lines before it.  Nothing is printed
and nothing is executed: all that was reported is where those instructions were placed.  The
command that runs the file exits with 1 and adds the message to its log, whether or not the handler
was called for an interrupt until the source was read. -/
theorem runFile_names_first_refused (path text : String) (options : RunOptions)
    (settings : RunSettings) (cells : List (Word × Byte)) (hsay : options.Say settings cells)
    (hrefused : ∃ line ∈ SourceLine.lines text.toList, refusal? line ≠ none) :
    ∃ before line after cause, SourceLine.lines text.toList = before ++ line :: after ∧
      (∀ earlier ∈ before, refusal? earlier = none) ∧ refusal? line = some cause ∧
      let address := settings.origin + BitVec.ofNat 16 (size (before.filterMap instruction?))
      let fault : FileError := .line path (before.length + 1) cause address
      fault.message = path ++ ":" ++ (before.length + 1).repr ++ ": " ++ cause.message ++
        " (address " ++ Hex.word address ++ ")" ∧
      (∀ pending : Nat → Bool,
        let report := runFile path (.ok text.toUTF8) options pending
        report.result = .error fault ∧ report.output = [] ∧
          ∀ record ∈ report.records,
            ∃ placed source bytes, record = .event (.linePlaced placed source bytes)) ∧
      ∀ (C : Type) [Channel C] [LawfulChannel C] (s : Surroundings) (arguments : List String),
        s.Runs arguments path options → s.files path = .ok text.toUTF8 →
        s.startUp.count .call ≤ 1 →
        let report := runFile path (.ok text.toUTF8) options fun _ => false
        respond C s arguments =
          { status := 1, output := [], records := report.records ++ [.refused fault.message] } := by
  obtain ⟨before, line, after, cause, hlines, hbefore, hline⟩ :=
    SourceLine.exists_first_refusal hrefused
  refine ⟨before, line, after, cause, hlines, hbefore, hline, ?_⟩
  intro address fault
  have report := runFile_of_refused path hsay hlines hbefore hline
  refine ⟨rfl, fun pending => ?_, fun C _ _ s arguments hruns hfile hcalls => ?_⟩
  · rw [report]
    exact ⟨rfl, rfl, fun record hrecord => exists_linePlaced_of_refused hlines hline hrecord⟩
  · rw [respond_of_not_exited hruns (Keyboard.not_exited_after hcalls), hfile]
    simp only [Command.runPath, report]
    rfl

/-- The bad line is the fourth of its file and the second that holds an instruction, and the
instruction before it goes round the end of memory. -/
theorem runFile_names_fourth_line :
    let text := ";\r\n MVI B,05\n\n MVI C,GG"
    let report := runFile "sum.asm" (.ok text.toUTF8) { origin := "FFFF" } fun _ => false
    ∃ before line after, SourceLine.lines text.toList = before ++ line :: after ∧
      before.length = 3 ∧ refusal? line = some (.malformedImmediate 2) ∧
      report.result = .error (.line "sum.asm" 4 (.malformedImmediate 2) 0x0001) ∧
      report.output = [] := by
  intro text report
  have hsay : RunOptions.Say { origin := "FFFF" }
      { origin := 0xFFFF, start := 0xFFFF, limit := none, range := none } [] :=
    { origin := by decide, start := ⟨none, rfl, rfl⟩, limit := rfl, range := rfl, cells := .nil }
  have hlines : SourceLine.lines text.toList =
      [";".toList, " MVI B,05".toList, []] ++ " MVI C,GG".toList :: [] := by decide +kernel
  have hbad : refusal? " MVI C,GG".toList = some (.malformedImmediate 2) := by
    decide +kernel
  have hmem : " MVI C,GG".toList ∈ SourceLine.lines text.toList := by simp [hlines]
  obtain ⟨before, line, after, cause, hcut, -, hline, -, hreport, -⟩ :=
    runFile_names_first_refused "sum.asm" text _ _ _ hsay ⟨_, hmem, by rw [hbad]; simp⟩
  obtain ⟨hresult, houtput, -⟩ := hreport fun _ => false
  have known := runFile_of_refused "sum.asm" hsay hlines (by decide +kernel) hbad fun _ => false
  have hsize : size ([";".toList, " MVI B,05".toList, []].filterMap instruction?) = 2 := by
    decide +kernel
  rw [hsize] at known
  have same := hresult.symm.trans (congrArg FileReport.result known)
  simp only [Except.error.injEq, FileError.line.injEq, List.length_cons, List.length_nil] at same
  obtain ⟨-, hnumber, rfl, -⟩ := same
  exact ⟨before, line, after, hcut, by omega, hline, congrArg FileReport.result known, houtput⟩

end Console
end I8085
