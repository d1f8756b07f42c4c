import I8085.Proofs.Assembler.Refusal
import I8085.Proofs.Console.FirstFault
import Mathlib.Logic.Relation

/-!
# The layout of a source text

Blank lines, comments and most white space of a source text are there for its reader.  `LineEdit`
and `TextEdit` list what may be done to them, one thing at a time, and a text is laid out anew if
any number of such edits leads to it, each made or taken back.  Only white space around a comma is
not always free: it is where the comma stands among the operands, but the first word of a line ends
at the first white space, and a comma in that word belongs to the mnemonic.

What a line contributes to its program is `meaning?`: nothing, or the instruction it stands for or
the cause it is refused for.  No edit of a line changes it, and an edit of a text changes the
meanings of its lines by none that is nothing.  A file depends on its text by these meanings
alone, but for the number by which it names a line.
-/

namespace I8085

open Text (Blank Solid)

namespace Assembler

/-! ## White space that a line does not need -/

/-- Operand text that is more than white space is taken apart at its commas. -/
theorem operands_of_trim_ne_nil {s : List Char} (h : Text.trim s ≠ []) :
    operands s =
      if ((Text.fields ',' s).map Text.trim).length ≤ 2 ∧ [] ∉ (Text.fields ',' s).map Text.trim
      then .ok ((Text.fields ',' s).map Text.trim) else .error .invalidOperand := by
  unfold operands
  split
  · next empty => exact absurd empty h
  · rw [Text.map_trim_fields_trim (by decide)]

theorem trim_append_comma_ne_nil (left right : List Char) :
    Text.trim (left ++ ',' :: right) ≠ [] := by
  intro e
  obtain ⟨before, after, hbefore, hafter, hs⟩ := Text.exists_trim (left ++ ',' :: right)
  have comma : ',' ∈ before ++ Text.trim (left ++ ',' :: right) ++ after := by
    rw [← hs]
    simp
  rw [e, List.append_nil, List.mem_append] at comma
  rcases comma with comma | comma
  · exact hbefore.not_mem (by decide) comma
  · exact hafter.not_mem (by decide) comma

/-- White space around a comma belongs to no operand. -/
theorem operands_around_comma {w w' : List Char} (hw : Blank w) (hw' : Blank w')
    (left right : List Char) :
    operands (left ++ w ++ ',' :: (w' ++ right)) = operands (left ++ ',' :: right) := by
  have fields : (Text.fields ',' (left ++ w ++ ',' :: (w' ++ right))).map Text.trim =
      (Text.fields ',' (left ++ ',' :: right)).map Text.trim := by
    rw [Text.fields_append_cons, Text.fields_append_cons, List.map_append, List.map_append,
      Text.map_trim_fields_append_blank (by decide) left hw,
      Text.map_trim_fields_blank_append (by decide) hw' right]
  rw [operands_of_trim_ne_nil (trim_append_comma_ne_nil _ _),
    operands_of_trim_ne_nil (trim_append_comma_ne_nil _ _), fields]

/-- A comma in front of all white space is part of the mnemonic, and no entry has one in its
mnemonic. -/
theorem encode_of_comma_in_first_word {line : String} {tokens : List (List Char)}
    (hcomma : ',' ∈ mnemonicText line)
    (htokens : operands (Text.afterFirstWord (Text.trim line.toList)) = .ok tokens) :
    encode line = .error .unknownMnemonic := by
  have unnamed : named (String.ofList (mnemonicText line)) = [] := by
    rw [List.eq_nil_iff_forall_not_mem]
    intro entry hentry
    have hname : entry.mnemonic.toList = mnemonicText line := by
      rw [mem_named.1 hentry, String.toList_ofList]
    exact (isToken_mnemonic entry.operation).2.2 (hname ▸ hcomma)
  exact (assembleParts_of_operands htokens _).trans
    ((assembleTokens_eq_unknownMnemonic_iff tokens).2 unnamed)

/-- A load goes by what its lines are assembled to. -/
theorem load_congr {lines lines' : List String} (h : assemble lines = assemble lines') (a : Word)
    (m : Memory) : load lines a m = load lines' a m := by
  rcases assemble_cases lines with ⟨program, hp⟩ | ⟨before, cause, after, hp⟩
  · rw [load_of_accepted hp, load_of_accepted (h ▸ hp)]
  · rw [load_of_refused hp, load_of_refused (h ▸ hp)]

end Assembler

namespace Console

open Assembler (assemble assembleParts encode load)

/-! ## Edits -/

/-- What may be done to a line.  A carriage return in front of its line feed is white space at its
end, and a line that is edited behind its mnemonic begins with it: white space in front is put
there by an edit of its own, and so is a comment behind.  Around which commas white space may be
put is left open; `movable` is asked of what stands in front of one. -/
inductive LineEdit (movable : List Char → Prop) : List Char → List Char → Prop
  | comment (line words : List Char) : LineEdit movable line (line ++ ';' :: words)
  | leading {w : List Char} (h : Blank w) (line : List Char) : LineEdit movable line (w ++ line)
  | trailing {w : List Char} (line : List Char) (h : Blank w) : LineEdit movable line (line ++ w)
  /-- White space ends the mnemonic, and which it is does not matter. -/
  | gap {name gap gap' : List Char} (hname : Solid name) (hne : name ≠ []) (hgap : Blank gap)
      (hgapne : gap ≠ []) (hgap' : Blank gap') (hgapne' : gap' ≠ []) (operands : List Char) :
      LineEdit movable (name ++ (gap ++ operands)) (name ++ (gap' ++ operands))
  /-- White space on either side of a comma. -/
  | comma {left w w' : List Char} (h : movable left) (hw : Blank w) (hw' : Blank w')
      (right : List Char) :
      LineEdit movable (left ++ ',' :: right) (left ++ w ++ ',' :: (w' ++ right))

/-- What may be done to the lines of a text. -/
inductive TextEdit (movable : List Char → Prop) : List (List Char) → List (List Char) → Prop
  | line {l l' : List Char} (h : LineEdit movable l l') (above below : List (List Char)) :
      TextEdit movable (above ++ l :: below) (above ++ l' :: below)
  /-- A blank line is put in.  With a comment it is a line that holds nothing else. -/
  | blankLine {w : List Char} (h : Blank w) (above below : List (List Char)) :
      TextEdit movable (above ++ below) (above ++ w :: below)

/-- Edits, made or taken back, lead from one text to the other.  The lines of a text are what
stands between its line feeds. -/
def Relaid (movable : List Char → Prop) (text text' : String) : Prop :=
  Relation.EqvGen (TextEdit movable) (Text.fields '\n' text.toList) (Text.fields '\n' text'.toList)

/-- The mnemonic and the white space that ends it stand in front: a comma behind them is one of the
operands. -/
def InOperands (left : List Char) : Prop :=
  ∃ name gap rest, Solid name ∧ name ≠ [] ∧ Blank gap ∧ gap ≠ [] ∧ left = name ++ (gap ++ rest)

/-! ## What a line means -/

namespace SourceLine

theorem meaningOf_congr {s t : List Char} (h : Text.trim s = Text.trim t) :
    meaningOf s = meaningOf t := by
  rw [meaningOf, meaningOf, h, ← Assembler.encode_trim s, ← Assembler.encode_trim t, h]

/-- A mnemonic and what white space sets off from it. -/
theorem meaningOf_append {name gap : List Char} (hname : Solid name) (hne : name ≠ [])
    (hgap : Blank gap) (hgapne : gap ≠ []) (operands : List Char) :
    meaningOf (name ++ (gap ++ operands)) =
      some (assembleParts (String.ofList name) operands) := by
  have held : Text.trim (name ++ (gap ++ operands)) ≠ [] := by
    rw [Text.trim_solid_append hname hne]
    exact fun e => hne (List.append_eq_nil_iff.1 e).1
  rw [meaningOf, if_neg held, Assembler.encode_append hname hne hgap hgapne]

/-- A semicolon in the mnemonic cuts it off; otherwise it is looked for in the operands. -/
theorem meaning?_append {name gap : List Char} (hname : Solid name) (hne : name ≠ [])
    (hgap : Blank gap) (hgapne : gap ≠ []) (operands : List Char) :
    meaning? (name ++ (gap ++ operands)) =
      if ';' ∈ name then meaning? name
      else some (assembleParts (String.ofList name) (Text.upTo ';' operands)) := by
  unfold meaning?
  split
  · next cut => rw [Text.upTo_append_of_mem cut]
  · next whole =>
    rw [Text.upTo_append whole, Text.upTo_append (hgap.not_mem (by decide)),
      meaningOf_append hname hne hgap hgapne]

theorem upTo_append_comma {left : List Char} (h : ';' ∉ left) (right : List Char) :
    Text.upTo ';' (left ++ ',' :: right) = left ++ ',' :: Text.upTo ';' right := by
  rw [Text.upTo_append h, Text.upTo, List.takeWhile_cons_of_pos (by decide), Text.upTo]

/-- No edit of a line changes what it means, as long as it leaves the first word alone. -/
theorem meaning?_of_lineEdit {line line' : List Char} (h : LineEdit InOperands line line') :
    meaning? line = meaning? line' := by
  cases h with
  | comment words =>
    unfold meaning?
    by_cases cut : ';' ∈ line
    · rw [Text.upTo_append_of_mem cut]
    · rw [Text.upTo_append_cons cut, Text.upTo_eq_self cut]
  | leading hw =>
    rw [meaning?, meaning?, Text.upTo_append (hw.not_mem (by decide))]
    exact meaningOf_congr (Text.trim_blank_append hw _).symm
  | trailing _ hw =>
    unfold meaning?
    by_cases cut : ';' ∈ line
    · rw [Text.upTo_append_of_mem cut]
    · rw [Text.upTo_append cut, Text.upTo_eq_self cut,
        Text.upTo_eq_self (hw.not_mem (by decide))]
      exact meaningOf_congr (Text.trim_append_blank line hw).symm
  | gap hname hne hgap hgapne hgap' hgapne' operands =>
    rw [meaning?_append hname hne hgap hgapne, meaning?_append hname hne hgap' hgapne']
  | @comma _ w w' h hw hw' right =>
    obtain ⟨name, gap, left, hname, hne, hgap, hgapne, rfl⟩ := h
    have moved : name ++ (gap ++ left) ++ w ++ ',' :: (w' ++ right) =
        name ++ (gap ++ (left ++ w ++ ',' :: (w' ++ right))) := by
      simp only [List.append_assoc]
    rw [moved, List.append_assoc, List.append_assoc, meaning?_append hname hne hgap hgapne,
      meaning?_append hname hne hgap hgapne]
    by_cases cut : ';' ∈ left
    · rw [List.append_assoc, Text.upTo_append_of_mem cut, Text.upTo_append_of_mem cut]
    · have same := Assembler.operands_around_comma hw hw' left (Text.upTo ';' right)
      have whole := List.not_mem_append cut (hw.not_mem (show Text.isBlank ';' = false by decide))
      rw [upTo_append_comma cut, upTo_append_comma whole,
        Text.upTo_append (hw'.not_mem (by decide)), assembleParts, assembleParts, same]

end SourceLine

/-! ## The lines of a text -/

open SourceLine (meaning?)

theorem filterMap_meaning?_of_textEdit {lines lines' : List (List Char)}
    (h : TextEdit InOperands lines lines') :
    lines.filterMap meaning? = lines'.filterMap meaning? := by
  cases h with
  | line h above below =>
    rw [List.filterMap_append, List.filterMap_append, List.filterMap_cons, List.filterMap_cons,
      SourceLine.meaning?_of_lineEdit h]
  | @blankLine w h above below =>
    have nothing : meaning? w = none := by
      rw [meaning?, Text.upTo_eq_self (h.not_mem (by decide))]
      exact if_pos (Text.trim_append_blank [] h)
    rw [List.filterMap_append, List.filterMap_append, List.filterMap_cons, nothing]

/-- The meanings are the same after any number of edits. -/
theorem Relaid.filterMap_meaning? {text text' : String} (h : Relaid InOperands text text') :
    (Text.fields '\n' text.toList).filterMap meaning? =
      (Text.fields '\n' text'.toList).filterMap meaning? := by
  unfold Relaid at h
  generalize Text.fields '\n' text.toList = lines at h
  generalize Text.fields '\n' text'.toList = lines' at h
  induction h with
  | rel lines lines' edit => exact filterMap_meaning?_of_textEdit edit
  | refl lines => rfl
  | symm lines lines' _ ih => exact ih.symm
  | trans lines lines' lines'' _ _ ih ih' => exact ih.trans ih'

/-! ## The run of a file -/

/-- Two results that differ in no more than the number that a refused line is named by. -/
inductive SameButNumber : Except FileError Bool → Except FileError Bool → Prop
  | same (result : Except FileError Bool) : SameButNumber result result
  | number (path : String) (number number' : Nat) (cause : AsmError) (address : Word) :
      SameButNumber (.error (.line path number cause address))
        (.error (.line path number' cause address))

/-- The job of a text, whether or not its program is accepted, is the job of the same text laid out
anew, but for the numbers of its lines. -/
theorem run_jobOf_of_relaid {text text' : String} (h : Relaid InOperands text text')
    (path : String) (settings : RunSettings) (cells : List (Word × Byte)) (pending : Nat → Bool) :
    let job := jobOf path text settings cells
    let job' := jobOf path text' settings cells
    SameButNumber (job.run pending).result (job'.run pending).result ∧
      (job.run pending).output = (job'.run pending).output ∧
      job.session? pending = job'.session? pending := by
  intro job job'
  have assembled : assemble job.program = assemble job'.program := by
    show assemble ((SourceLine.numbered 1 _).map SourceLine.text) =
      assemble ((SourceLine.numbered 1 _).map SourceLine.text)
    rw [SourceLine.assemble_numbered_eq_meanings, SourceLine.assemble_numbered_eq_meanings]
    exact h.filterMap_meaning?
  have loaded : load job.program settings.origin job.memory =
      load job'.program settings.origin job'.memory :=
    Assembler.load_congr assembled _ _
  rcases hload : load job.program settings.origin job.memory with ⟨e | finish, memory⟩
  · have hload' := loaded.symm.trans hload
    rw [run_of_refused hload, run_of_refused hload', session?_of_refused hload,
      session?_of_refused hload']
    exact ⟨.number path _ _ e.cause e.address, rfl, rfl⟩
  · have hload' := loaded.symm.trans hload
    obtain ⟨result, output⟩ := run_of_load hload pending
    obtain ⟨result', output'⟩ := run_of_load hload' pending
    rw [result, result', output, output', session?_of_load hload,
      session?_of_load hload']
    exact ⟨.same _, rfl, rfl⟩

/-- Options at fault keep a file from being run, whatever its text is. -/
theorem ofFile_of_options {options : RunOptions} {e : SettingError}
    (h : firstFault options.checks = some e) (path text : String) :
    Job.ofFile path (.ok text.toUTF8) options = .error (.setting e) := by
  rw [← faultOf_eq_some_iff, faultOf_ofFile, fileText_toUTF8, h]
  rfl

/-- A source text and the same text laid out anew are run with the same result, but for the number
by which a refused line is named, and what is printed is the same.  They hold the same session or
none: it executes the same instructions and leaves the same machine, memory included.  White space
is put around a comma of the operands only. -/
theorem runFile_of_relaid {text text' : String} (h : Relaid InOperands text text') (path : String)
    (options : RunOptions) (pending : Nat → Bool) :
    let report := runFile path (.ok text.toUTF8) options pending
    let report' := runFile path (.ok text'.toUTF8) options pending
    SameButNumber report.result report'.result ∧ report.output = report'.output ∧
      session? path (.ok text.toUTF8) options pending =
        session? path (.ok text'.toUTF8) options pending ∧
      executed report.records = executed report'.records := by
  intro report report'
  have main : SameButNumber report.result report'.result ∧ report.output = report'.output ∧
      session? path (.ok text.toUTF8) options pending =
        session? path (.ok text'.toUTF8) options pending := by
    cases hfault : firstFault options.checks with
    | some e =>
      have hjob := ofFile_of_options hfault path text
      have hjob' := ofFile_of_options hfault path text'
      have hreport : report = _ := runFile_of_fault hjob
      have hreport' : report' = _ := runFile_of_fault hjob'
      rw [hreport, hreport', session?, session?, hjob, hjob']
      exact ⟨.same _, rfl, rfl⟩
    | none =>
      obtain ⟨settings, cells, hsay⟩ := firstFault_options_eq_none_iff.1 hfault
      have hreport : report = _ := runFile_of_say hsay pending
      have hreport' : report' = _ := runFile_of_say hsay pending
      rw [hreport, hreport', session?, session?, ofFile_eq_ok_iff.2 ⟨settings, cells, hsay, rfl⟩,
        ofFile_eq_ok_iff.2 ⟨settings, cells, hsay, rfl⟩]
      exact run_jobOf_of_relaid h path settings cells pending
  obtain ⟨hresult, houtput, hsession⟩ := main
  refine ⟨hresult, houtput, hsession, ?_⟩
  cases hheld : session? path (.ok text.toUTF8) options pending with
  | some session =>
    have told := (runFile_of_session hheld).2.2
    have told' := (runFile_of_session (hsession.symm.trans hheld)).2.2
    exact told.trans told'.symm
  | none =>
    have told := (runFile_of_no_session hheld).2.2
    have told' := (runFile_of_no_session (hsession.symm.trans hheld)).2.2
    exact told.trans told'.symm

/-- A tab for the space, a comment with a carriage return behind it, and the blank line gone. -/
theorem runFile_of_relaid_inr :
    let text := "INR A\n\nHLT"
    let text' := "INR\tA;\r\nHLT"
    let report := runFile "inr.asm" (.ok text.toUTF8) {} fun _ => false
    let report' := runFile "inr.asm" (.ok text'.toUTF8) {} fun _ => false
    Relaid InOperands text text' ∧ report.result = .ok true ∧ report.output = report'.output := by
  have relaid : Relaid InOperands "INR A\n\nHLT" "INR\tA;\r\nHLT" := by
    have hlines : Text.fields '\n' "INR A\n\nHLT".toList =
        [['I', 'N', 'R', ' ', 'A'], [], ['H', 'L', 'T']] := by rfl
    have hlines' : Text.fields '\n' "INR\tA;\r\nHLT".toList =
        [['I', 'N', 'R', '\t', 'A', ';', '\r'], ['H', 'L', 'T']] := by rfl
    have tab : LineEdit InOperands ['I', 'N', 'R', ' ', 'A'] ['I', 'N', 'R', '\t', 'A'] :=
      @LineEdit.gap InOperands ['I', 'N', 'R'] [' '] ['\t'] (by decide) (by decide) (by decide)
        (by decide) (by decide) (by decide) ['A']
    have comment : LineEdit InOperands ['I', 'N', 'R', '\t', 'A']
        ['I', 'N', 'R', '\t', 'A', ';', '\r'] := .comment ['I', 'N', 'R', '\t', 'A'] ['\r']
    rw [Relaid, hlines, hlines']
    exact .trans _ _ _ (.rel _ _ (.line tab [] [[], ['H', 'L', 'T']]))
      (.trans _ _ _ (.rel _ _ (.line comment [] [[], ['H', 'L', 'T']]))
        (.symm _ _ (.rel _ _ (.blankLine (by decide) [_] [['H', 'L', 'T']]))))
  have halted : (runFile "inr.asm" (.ok "INR A\n\nHLT".toUTF8) {} fun _ => false).result =
      .ok true := by decide +kernel
  obtain ⟨-, houtput, -⟩ := runFile_of_relaid relaid "inr.asm" {} fun _ => false
  exact ⟨relaid, halted, houtput⟩

/-- A text of one line that is refused is refused with that line's number, which is 1. -/
theorem result_of_refused_line (path text : String) {cause : AsmError}
    (hlines : SourceLine.lines text.toList = [text.toList])
    (hline : SourceLine.refusal? text.toList = some cause) :
    (runFile path (.ok text.toUTF8) {} fun _ => false).result =
      .error (.line path 1 cause 0) := by
  have hsay : RunOptions.Say {} { origin := 0, start := 0, limit := none, range := none } [] :=
    { origin := by decide, start := ⟨none, rfl, rfl⟩, limit := rfl, range := rfl, cells := .nil }
  have alone : SourceLine.lines text.toList = [] ++ text.toList :: [] := hlines
  exact congrArg FileReport.result
    (runFile_of_refused path hsay alone (by simp) hline fun _ => false)

/-- A comma in the first word is a part of the mnemonic.  White space in front of it ends the
mnemonic there, and the line is refused for its operands. -/
theorem not_sameButNumber_of_first_word :
    let text := "MOV,A"
    let text' := "MOV ,A"
    let report := runFile "prog.asm" (.ok text.toUTF8) {} fun _ => false
    let report' := runFile "prog.asm" (.ok text'.toUTF8) {} fun _ => false
    Relaid (fun _ => True) text text' ∧ ¬SameButNumber report.result report'.result := by
  have relaid : Relaid (fun _ => True) "MOV,A" "MOV ,A" := by
    have hlines : Text.fields '\n' "MOV,A".toList = [['M', 'O', 'V', ',', 'A']] := by rfl
    have hlines' : Text.fields '\n' "MOV ,A".toList = [['M', 'O', 'V', ' ', ',', 'A']] := by rfl
    have space :
        LineEdit (fun _ => True) ['M', 'O', 'V', ',', 'A'] ['M', 'O', 'V', ' ', ',', 'A'] :=
      @LineEdit.comma _ ['M', 'O', 'V'] [' '] [] trivial (by decide) (by decide) ['A']
    rw [Relaid, hlines, hlines']
    exact .rel _ _ (.line space [] [])
  have unknown : SourceLine.refusal? "MOV,A".toList = some .unknownMnemonic :=
    SourceLine.refusal?_eq_some_iff.2
      ⟨by decide, Assembler.encode_of_comma_in_first_word (by decide) rfl⟩
  have refused := result_of_refused_line "prog.asm" "MOV,A" rfl unknown
  have refused' : _ = Except.error (FileError.line "prog.asm" 1 .invalidOperand 0) :=
    result_of_refused_line "prog.asm" "MOV ,A" rfl rfl
  refine ⟨relaid, ?_⟩
  show ¬SameButNumber (runFile "prog.asm" (.ok "MOV,A".toUTF8) {} fun _ => false).result
    (runFile "prog.asm" (.ok "MOV ,A".toUTF8) {} fun _ => false).result
  rw [refused, refused']
  exact nofun

end Console
end I8085
