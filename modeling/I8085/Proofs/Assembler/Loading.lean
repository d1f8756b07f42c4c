import I8085.Proofs.Assembler.Placement

/-!
# Loading in one piece

A load goes line by line, and the first bad line ends it.  What it amounts to is one copy: of the
whole program, or of the lines before the bad one.  A program can be cut anywhere and its parts
loaded one behind the other.
-/

namespace I8085

/-- The error of a program that so many lines were put in front of. -/
def LoadError.shift (count : Nat) (e : LoadError) : LoadError := { e with line := count + e.line }

namespace Assembler

/-- A program is accepted whole, or there is a first line that is not. -/
theorem assemble_cases (lines : List String) :
    (∃ program : List Instruction, assemble lines = program.map .ok) ∨
      ∃ (before : List Instruction) (cause : AsmError) (after : List (Except AsmError Instruction)),
        assemble lines = before.map .ok ++ .error cause :: after := by
  induction lines with
  | nil => exact .inl ⟨[], rfl⟩
  | cons line lines ih =>
    cases hline : encode line with
    | error cause => exact .inr ⟨[], cause, assemble lines, by simp [assemble, hline]⟩
    | ok i =>
      have first : assemble (line :: lines) = .ok i :: assemble lines := by simp [assemble, hline]
      rcases ih with ⟨program, h⟩ | ⟨before, cause, after, h⟩
      · exact .inl ⟨i :: program, by simp [first, h]⟩
      · exact .inr ⟨i :: before, cause, after, by simp [first, h]⟩

theorem loadFrom_append (index : Nat) (lines rest : List String) (x : Word) (m : Memory) :
    loadFrom index (lines ++ rest) x m =
      match loadFrom index lines x m with
      | (.error e, loaded) => (.error e, loaded)
      | (.ok finish, loaded) => loadFrom (index + lines.length) rest finish loaded := by
  induction lines generalizing index x m with
  | nil => simp [loadFrom]
  | cons line lines ih =>
    rw [List.cons_append, loadFrom, loadFrom]
    cases encode line with
    | error cause => rfl
    | ok i =>
      simp only [ih, List.length_cons]
      rw [Nat.add_assoc, Nat.add_comm 1]

/-- The lines of a program are counted from where the count begins. -/
theorem loadFrom_add (count index : Nat) (lines : List String) (x : Word) (m : Memory) :
    loadFrom (count + index) lines x m =
      ((loadFrom index lines x m).1.mapError (LoadError.shift count),
        (loadFrom index lines x m).2) := by
  induction lines generalizing index x m with
  | nil => rfl
  | cons line lines ih =>
    rw [loadFrom, loadFrom]
    cases encode line with
    | error cause => rfl
    | ok i => exact ih (index + 1) _ _

theorem load_append (lines rest : List String) (a : Word) (m : Memory) :
    load (lines ++ rest) a m =
      match load lines a m with
      | (.error e, loaded) => (.error e, loaded)
      | (.ok finish, loaded) =>
        ((load rest finish loaded).1.mapError (LoadError.shift lines.length),
          (load rest finish loaded).2) := by
  rw [load, loadFrom_append, load]
  split
  · rfl
  · rw [Nat.zero_add, load, ← loadFrom_add, Nat.add_zero]

/-- The load of a program with a bad line copies the lines before it. -/
theorem load_of_refused {lines : List String} {before : List Instruction} {cause : AsmError}
    {after : List (Except AsmError Instruction)}
    (h : assemble lines = before.map .ok ++ .error cause :: after) (a : Word) (m : Memory) :
    load lines a m =
      (.error { line := before.length, address := Memory.cell a (size before), cause },
        m.load a (image before)) := by
  obtain ⟨good, rest, rfl, hgood, hrest⟩ := List.map_eq_append_iff.1 h
  obtain ⟨bad, others, rfl, hbad, -⟩ := List.map_eq_cons_iff.1 hrest
  have hlength : good.length = before.length := by
    have := congrArg List.length hgood
    simpa using this
  have stop (x : Word) (n : Memory) :
      load (bad :: others) x n = (.error { line := 0, address := x, cause }, n) := by
    rw [load, loadFrom, hbad]
  rw [load_append, load_of_accepted hgood]
  show ((load (bad :: others) _ _).1.mapError (LoadError.shift good.length),
    (load (bad :: others) _ _).2) = _
  rw [stop, hlength]
  rfl

/-- A load is one copy of what `assemble` gives: of all of it, or of what stands before the first
error, which is reported with its place among the lines and in memory.  Loading a program is
loading a part of it and then, if that part is accepted, the rest behind it. -/
theorem load_eq_bulk_copy (lines : List String) (a : Word) (m : Memory) :
    ((∃ program : List Instruction, assemble lines = program.map .ok ∧
        load lines a m = (.ok (a + BitVec.ofNat 16 (size program)), m.load a (image program))) ∨
      ∃ (before : List Instruction) (cause : AsmError) (after : List (Except AsmError Instruction)),
        assemble lines = before.map .ok ++ .error cause :: after ∧
        load lines a m =
          (.error { line := before.length, address := a + BitVec.ofNat 16 (size before), cause },
            m.load a (image before))) ∧
    ∀ rest : List String, load (lines ++ rest) a m =
      match load lines a m with
      | (.error e, loaded) => (.error e, loaded)
      | (.ok finish, loaded) =>
        ((load rest finish loaded).1.mapError (LoadError.shift lines.length),
          (load rest finish loaded).2) := by
  refine ⟨?_, fun rest => load_append lines rest a m⟩
  rcases assemble_cases lines with ⟨program, h⟩ | ⟨before, cause, after, h⟩
  · exact .inl ⟨program, h, load_of_accepted h a m⟩
  · exact .inr ⟨before, cause, after, h, load_of_refused h a m⟩

end Assembler
end I8085
