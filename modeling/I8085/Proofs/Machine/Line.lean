import I8085.Proofs.Machine.Code

/-!
# Code without jumps

Code that transfers no control is a function of the machine: its instructions are carried out one
after another, and the program counter has no say in it.  `line` is that function.  It is what a
run does as long as no store reaches the code, which `KeepsCode` says of each instruction in turn.
With both read off the list of instructions, a run of such code needs no stepping through.
-/

namespace I8085
namespace Machine

open Assembler

variable {m : Machine} {code fs : List Fetched} {program : List Instruction}

/-- The machine after instructions are carried out one after another. -/
def line (m : Machine) (fs : List Fetched) : Machine := fs.foldl execute m

@[simp]
theorem line_cons (m : Machine) (f : Fetched) (fs : List Fetched) :
    m.line (f :: fs) = (m.execute f).line fs := rfl

theorem line_append (m : Machine) (fs gs : List Fetched) :
    m.line (fs ++ gs) = (m.line fs).line gs := List.foldl_append

/-- Each of the instructions leaves the code as it is. -/
def KeepsCode (code : List Fetched) : Machine → List Fetched → Prop
  | _, [] => True
  | m, f :: fs => (m.execute f).memory.Holds code ∧ KeepsCode code (m.execute f) fs

theorem keepsCode_append {gs : List Fetched} :
    KeepsCode code m (fs ++ gs) ↔ KeepsCode code m fs ∧ KeepsCode code (m.line fs) gs := by
  induction fs generalizing m with
  | nil => exact (and_iff_right trivial).symm
  | cons f fs ih => rw [List.cons_append, KeepsCode, KeepsCode, ih, line_cons, and_assoc]

/-- Whatever else the machine has in it, the instructions lead from these registers and this memory
to those, and each of them leaves the code as it is. -/
def LeadsAlong (code : List Fetched) (a : Word) (program : List Instruction) (r : Registers)
    (memory : Memory) (r' : Registers) (memory' : Memory) : Prop :=
  ∀ m : Machine, KeepsCode code (m.withState r memory) (located a program) ∧
    ∃ n : Machine, (m.withState r memory).line (located a program) = n.withState r' memory'

namespace LeadsAlong

variable {a : Word} {r r' : Registers} {memory memory' : Memory}

theorem refl (code : List Fetched) (a : Word) (r : Registers) (memory : Memory) :
    LeadsAlong code a [] r memory r memory :=
  fun m => ⟨trivial, m, rfl⟩

/-- One instruction, and those after it.  What it leaves must not depend on the rest of the
machine. -/
theorem cons {i : Instruction} (r₁ : Registers) (memory₁ : Memory)
    (hexecute : ∀ m : Machine,
      ((m.withState r memory).execute { i with address := a }).registers = r₁ ∧
        ((m.withState r memory).execute { i with address := a }).memory = memory₁)
    (hholds : memory₁.Holds code)
    (h : LeadsAlong code (Memory.cell a i.length) program r₁ memory₁ r' memory') :
    LeadsAlong code a (i :: program) r memory r' memory' := by
  intro m
  obtain ⟨rfl, rfl⟩ := hexecute m
  obtain ⟨hkeeps, n, hn⟩ := h ((m.withState r memory).execute { i with address := a })
  exact ⟨⟨hholds, hkeeps⟩, n, hn⟩

theorem keepsCode_and_memory (r' : Registers)
    (h : LeadsAlong code a program m.registers m.memory r' memory') :
    KeepsCode code m (located a program) ∧ (m.line (located a program)).memory = memory' := by
  obtain ⟨hkeeps, n, hn⟩ := h m
  exact ⟨hkeeps, congrArg Machine.memory hn⟩

end LeadsAlong

/-- A program that transfers no control is executed where it stands in the code.  The induction is
on the instructions still to come, each of which begins where the one before it ended. -/
theorem executes_line (h : m.memory.Holds code)
    (hin : ∀ f ∈ located m.registers.pc program, f ∈ code)
    (hstraight : ∀ i ∈ program, i.operation.isTransfer = false)
    (hkeeps : KeepsCode code m (located m.registers.pc program)) :
    let last := m.line (located m.registers.pc program)
    m.Executes (located m.registers.pc program) last ∧
      last.registers.pc = Memory.cell m.registers.pc (size program) ∧ last.memory.Holds code := by
  induction program generalizing m with
  | nil => exact ⟨.refl m, (Memory.cell_zero _).symm, h⟩
  | cons i program ih =>
    let f : Fetched := { i with address := m.registers.pc }
    have hf : m.fetch = .ok f := h f (hin f List.mem_cons_self)
    have hpc : (m.execute f).registers.pc = Memory.cell m.registers.pc i.length :=
      m.execute_pc (hstraight i List.mem_cons_self)
    obtain ⟨hkept, hrest⟩ := hkeeps
    rw [← hpc] at hrest
    obtain ⟨executes, hlast, hholds⟩ := ih hkept
      (fun g hg => hin g (List.mem_cons_of_mem f (hpc ▸ hg)))
      (fun j hj => hstraight j (List.mem_cons_of_mem i hj)) hrest
    rw [hpc] at executes hlast hholds
    refine ⟨.cons (step_eq_ok_iff.2 ⟨hf, rfl⟩) executes, ?_, hholds⟩
    rw [size_cons, ← Memory.cell_add]
    exact hlast

theorem map_toInstruction_located (a : Word) (program : List Instruction) :
    (located a program).map Fetched.toInstruction = program := by
  simpa using map_located id a program

theorem exists_cell_of_mem_codeCells {a x : Word} (h : x ∈ Memory.codeCells (located a program)) :
    ∃ i < size program, Memory.cell a i = x := by
  induction program generalizing a with
  | nil => exact absurd h List.not_mem_nil
  | cons i program ih =>
    rw [located, Memory.codeCells, List.flatMap_cons] at h
    rw [size_cons]
    rcases List.mem_append.1 h with h | h
    · obtain ⟨k, hk, rfl⟩ := List.mem_map.1 h
      exact ⟨k, (List.mem_range.1 hk).trans_le (Nat.le_add_right _ _), rfl⟩
    · obtain ⟨k, hk, rfl⟩ := ih h
      exact ⟨i.length + k, Nat.add_lt_add_left hk _, (Memory.cell_add a _ k).symm⟩

/-- The lines are those of a program that goes straight on to the halt behind it. -/
structure StraightSource (lines : List String) (program : List Instruction) (halt : Instruction) :
    Prop where
  texts : (program ++ [halt]).map Instruction.text = lines
  fits : ∀ i ∈ program ++ [halt], i.Fits
  straight : ∀ i ∈ program, i.operation ≠ .hlt ∧ i.operation.isTransfer = false
  halts : halt.operation = .hlt
  size_le : size (program ++ [halt]) ≤ 65536

namespace StraightSource

variable {lines : List String} {halt : Instruction}

theorem iff_conditions : StraightSource lines program halt ↔
    (program ++ [halt]).map Instruction.text = lines ∧ (∀ i ∈ program ++ [halt], i.Fits) ∧
      (∀ i ∈ program, i.operation ≠ .hlt ∧ i.operation.isTransfer = false) ∧
      halt.operation = .hlt ∧ size (program ++ [halt]) ≤ 65536 :=
  ⟨fun h => ⟨h.texts, h.fits, h.straight, h.halts, h.size_le⟩,
    fun ⟨texts, fits, straight, halts, size_le⟩ => ⟨texts, fits, straight, halts, size_le⟩⟩

instance : Decidable (StraightSource lines program halt) := decidable_of_iff' _ iff_conditions

theorem source (h : StraightSource lines program halt) (a : Word) :
    SourceOf lines a (located a (program ++ [halt])) := by
  constructor <;> rw [map_toInstruction_located]
  · exact h.fits
  · exact h.texts
  · exact h.size_le

theorem read_loaded_above (h : StraightSource lines program halt) (m : Machine) {a x : Word}
    (hx : a.toNat + size (program ++ [halt]) ≤ x.toNat) :
    (m.loaded lines a).memory.read x = m.memory.read x := by
  refine (h.source a).read_loaded_above m ?_
  rwa [map_toInstruction_located]

/-- Loaded and run, such a program is carried out once from its first line to its last. -/
theorem runFrom_eq (h : StraightSource lines program halt) (m : Machine) (a : Word)
    (hkeeps : KeepsCode (located a (program ++ [halt])) ((m.loaded lines a).jump a)
      (located a program)) :
    ∃ last, runFrom a none (m.loaded lines a) = (.ok lines.length, last) ∧
      last.memory = (((m.loaded lines a).jump a).line (located a program)).memory := by
  let start : Machine := (m.loaded lines a).jump a
  let f : Fetched := { halt with address := Memory.cell a (size program) }
  have hcode : located a (program ++ [halt]) = located a program ++ [f] :=
    located_append a program [halt]
  obtain ⟨executes, hpc, hholds⟩ := executes_line (m := start)
    ((h.source a).holds m) (fun g hg => hcode ▸ List.mem_append_left [f] hg)
    (fun i hi => (h.straight i hi).2) hkeeps
  -- the halt stands behind the last instruction, where the line has left off
  have hfetch : (start.line (located a program)).fetch = .ok f := by
    rw [Machine.fetch, show (start.line (located a program)).registers.pc = f.address from hpc]
    exact hholds f (hcode ▸ List.mem_append_right _ (List.mem_singleton_self f))
  have hfree : HaltFree (located a program) := fun g hg => (h.straight _ (mem_of_mem_located hg)).1
  have halts : start.HaltsAt ((located a program).length + 1)
      ((start.line (located a program)).execute f) :=
    ⟨_, f, executes.append (.single (step_eq_ok_iff.2 ⟨hfetch, rfl⟩)), hfree, h.halts, rfl⟩
  have hlength : (located a program).length + 1 = lines.length := by
    rw [length_located, ← h.texts, List.length_map, List.length_append, List.length_singleton]
  have hlimit : lines.length ≤ bound none := by
    have hsize := length_le_size (program ++ [halt])
    rw [← h.texts, List.length_map]
    exact hsize.trans (h.size_le.trans (by decide))
  rw [hlength] at halts
  refine ⟨_, run_of_haltsAt rfl halts hlimit, ?_⟩
  have haction : ((start.line (located a program)).advance f).action f.toInstruction = .hlt :=
    (action_eq_hlt_iff _ _).2 h.halts
  rw [execute, haction]
  rfl

end StraightSource

end Machine
end I8085
