import I8085.Console.Source
import I8085.Proofs.Text.Words
import Mathlib.Data.List.Basic

/-!
# The lines of a source text

A line ends with a line feed, or with a carriage return and a line feed, and what stands
behind the last of them is a line too unless it is empty.  The program of a text is what
its lines have in front of their comments, where that is more than white space.  Reading a
source file cuts it at the line feeds alone: the carriage return that is left is white
space at the end of a line, and the empty line that is left at the end has no program.
-/

namespace I8085
namespace Console
namespace SourceLine

/-- A line without the carriage return that stands before its line feed. -/
def withoutReturn (line : List Char) : List Char :=
  if line.getLast? = some '\r' then line.dropLast else line

def lines (s : List Char) : List (List Char) :=
  (Text.fields '\n' s).dropLast.map withoutReturn ++
    (Text.fields '\n' s).getLast?.toList.filter (· ≠ [])

/-- The lines of a text in front of their comments, without those that are blank there. -/
def program (text : String) : List String :=
  (((lines text.toList).map instructionText).filter (· ≠ [])).map String.ofList

theorem blank_return : Text.Blank ['\r'] := by
  intro c hc
  rw [List.mem_singleton.1 hc]
  rfl

/-- A carriage return at the end is in the comment, or it is stripped. -/
theorem instructionText_withoutReturn (line : List Char) :
    instructionText (withoutReturn line) = instructionText line := by
  unfold withoutReturn
  split
  · next hlast =>
    obtain ⟨body, rfl⟩ := List.getLast?_eq_some_iff.1 hlast
    rw [List.dropLast_concat, instructionText, instructionText, Text.upTo, Text.upTo,
      List.takeWhile_append]
    split
    · next hwhole =>
      have all : body.takeWhile (· != ';') = body :=
        (List.takeWhile_prefix _).eq_of_length hwhole
      rw [all]
      exact (Text.trim_append_blank body blank_return).symm
    · rfl
  · rfl

/-! ## Numbers -/

/-- The instructions of lines that are counted from a number on. -/
def numbered (first : Nat) (lines : List (List Char)) : List SourceLine :=
  (lines.zipIdx first).filterMap fun place => ofLine? place.1 place.2

theorem numbered_cons (first : Nat) (line : List Char) (lines : List (List Char)) :
    numbered first (line :: lines) = (ofLine? line first).toList ++ numbered (first + 1) lines := by
  rw [numbered, numbered, List.zipIdx_cons, List.filterMap_cons]
  cases ofLine? line first <;> rfl

theorem numbered_append (first : Nat) (lines rest : List (List Char)) :
    numbered first (lines ++ rest) =
      numbered first lines ++ numbered (first + lines.length) rest := by
  rw [numbered, List.zipIdx_append, List.filterMap_append, numbered, numbered]

theorem numbered_map_withoutReturn (first : Nat) (lines : List (List Char)) :
    numbered first (lines.map withoutReturn) = numbered first lines := by
  induction lines generalizing first with
  | nil => rfl
  | cons line lines ih =>
    rw [List.map_cons, numbered_cons, numbered_cons, ih, ofLine?, ofLine?,
      instructionText_withoutReturn]

/-- What is read from a source text has the number of its line, since the empty field behind the
last line feed holds no instruction. -/
theorem ofText_eq_numbered (s : String) : ofText s = numbered 1 (lines s.toList) := by
  show numbered 1 (Text.fields '\n' s.toList) = _
  unfold lines
  rcases List.eq_nil_or_concat' (Text.fields '\n' s.toList) with hnil | ⟨body, last, hparts⟩
  · exact absurd hnil (List.splitOn_ne_nil _ s.toList)
  · rw [hparts, List.dropLast_concat, List.getLast?_concat, numbered_append, numbered_append,
      numbered_map_withoutReturn, List.length_map]
    cases last <;> rfl

theorem map_text_numbered (first : Nat) (lines : List (List Char)) :
    (numbered first lines).map text =
      ((lines.map instructionText).filter (· ≠ [])).map String.ofList := by
  induction lines generalizing first with
  | nil => rfl
  | cons line lines ih =>
    rw [numbered_cons, List.map_append, ih, List.map_cons, ofLine?]
    cases h : instructionText line with
    | nil => rw [List.filter_cons_of_neg (by simp)]; rfl
    | cons c rest => rw [List.filter_cons_of_pos (by simp)]; rfl

/-- What is read from a source text is its program. -/
theorem map_text_ofText (s : String) : (ofText s).map text = program s := by
  rw [ofText_eq_numbered]
  exact map_text_numbered 1 _

end SourceLine
end Console
end I8085
