import I8085.Proofs.Assembler.Sweep
import I8085.Proofs.Machine.StraightLine

/-!
# Code in memory

A memory holds a piece of code when each instruction of it is fetched at its address.
A program is held where it was loaded, and stays so while nothing is stored at its
cells.  `Leads` says what a path through such code does to the registers and the memory;
paths are put together from single instructions and from other paths, and one that ends
at a halt is a run.
-/

namespace I8085
namespace Memory

variable {m n : Memory} {code : List Fetched}

/-- Every instruction of the code is fetched at its address. -/
def Holds (m : Memory) (code : List Fetched) : Prop := ∀ f ∈ code, m.fetch f.address = .ok f

/-- The cells that the code takes up. -/
def codeCells (code : List Fetched) : List Word :=
  code.flatMap fun f => (List.range f.length).map (cell f.address)

theorem holds_nil (m : Memory) : m.Holds [] := fun _ h => absurd h List.not_mem_nil

@[simp]
theorem holds_cons {f : Fetched} :
    m.Holds (f :: code) ↔ m.fetch f.address = .ok f ∧ m.Holds code := List.forall_mem_cons

theorem holds_append {rest : List Fetched} :
    m.Holds (code ++ rest) ↔ m.Holds code ∧ m.Holds rest := List.forall_mem_append

/-- What a sweep has found is held. -/
theorem holds_of_sweep {x : Word} {count : Nat} (h : m.sweep x count = .ok code) :
    m.Holds code := by
  induction count generalizing x code with
  | zero =>
    cases h
    exact holds_nil m
  | succ count ih =>
    cases hf : m.fetch x with
    | error fault => simp [sweep, hf, bind, Except.bind] at h
    | ok f =>
      cases hrest : m.sweep f.next count with
      | error fault => simp [sweep, hf, hrest, bind, Except.bind] at h
      | ok rest =>
        rw [sweep_succ_of_ok hf hrest] at h
        cases h
        have haddress : f.address = x := (fetch_eq_ok_iff.1 hf).2.2
        exact holds_cons.2 ⟨haddress ▸ hf, ih hrest⟩

/-- Code is held by every memory that agrees at its cells. -/
theorem Holds.of_read_eq (h : m.Holds code) (heq : ∀ x ∈ codeCells code, n.read x = m.read x) :
    n.Holds code := by
  intro f hf
  refine fetch_congr (h f hf) (fun i hi => heq _ ?_)
  exact List.mem_flatMap.2 ⟨f, hf, List.mem_map_of_mem (List.mem_range.2 hi)⟩

theorem Holds.write (h : m.Holds code) {x : Word} (v : Byte) (hx : x ∉ codeCells code) :
    (m.write x v).Holds code :=
  h.of_read_eq fun _ hy => read_write_of_ne m v (fun e => hx (e ▸ hy))

theorem Holds.writeWord (h : m.Holds code) {x : Word} (w : Word) (hlow : x ∉ codeCells code)
    (hhigh : x + 1 ∉ codeCells code) : (m.writeWord x w).Holds code :=
  h.of_read_eq fun _ hy =>
    read_writeWord_of_ne m w (fun e => hhigh (e ▸ hy)) (fun e => hlow (e ▸ hy))

end Memory

namespace Machine

open Assembler

section Loaded

variable {lines : List String} {program : List Instruction} (m : Machine)

@[simp]
theorem registers_loaded (lines : List String) (a : Word) :
    (m.loaded lines a).registers = m.registers := rfl

/-- A program that fits the address space is held where it was loaded. -/
theorem holds_loaded (haccepted : assemble lines = program.map .ok) (hsize : size program ≤ 65536)
    (a : Word) : (m.loaded lines a).memory.Holds (located a program) :=
  Memory.holds_of_sweep
    (sweep_of_bytes (fits_of_assemble haccepted) (m.bytes_loaded a haccepted hsize))

/-- A load changes no cell but those of its program. -/
theorem read_loaded_of_ne (haccepted : assemble lines = program.map .ok) {a x : Word}
    (h : ∀ i < size program, Memory.cell a i ≠ x) :
    (m.loaded lines a).memory.read x = m.memory.read x := by
  show (load lines a m.memory).2.read x = m.memory.read x
  rw [load_of_accepted haccepted]
  exact Memory.read_load_of_ne (by rwa [length_image])

end Loaded

/-- The lines are the texts of a code that stands from an address on. -/
structure SourceOf (lines : List String) (a : Word) (code : List Fetched) : Prop where
  located : located a (code.map Fetched.toInstruction) = code
  fits : ∀ i ∈ code.map Fetched.toInstruction, i.Fits
  texts : (code.map Fetched.toInstruction).map Instruction.text = lines
  size_le : size (code.map Fetched.toInstruction) ≤ 65536

namespace SourceOf

variable {lines : List String} {a : Word} {code : List Fetched}

theorem assemble_eq (h : SourceOf lines a code) :
    assemble lines = (code.map Fetched.toInstruction).map .ok := by
  rw [← h.texts]
  exact assemble_texts h.fits

theorem load_eq (h : SourceOf lines a code) (memory : Memory) :
    (load lines a memory).1 = .ok (Memory.cell a (size (code.map Fetched.toInstruction))) :=
  congrArg Prod.fst (load_of_accepted h.assemble_eq a memory)

theorem holds (h : SourceOf lines a code) (m : Machine) : (m.loaded lines a).memory.Holds code := by
  have held := m.holds_loaded h.assemble_eq h.size_le a
  rwa [h.located] at held

theorem read_loaded (h : SourceOf lines a code) (m : Machine) {x : Word}
    (hx : ∀ i < size (code.map Fetched.toInstruction), Memory.cell a i ≠ x) :
    (m.loaded lines a).memory.read x = m.memory.read x :=
  m.read_loaded_of_ne h.assemble_eq hx

/-- A load changes nothing above its program. -/
theorem read_loaded_above (h : SourceOf lines a code) (m : Machine) {x : Word}
    (hx : a.toNat + size (code.map Fetched.toInstruction) ≤ x.toNat) :
    (m.loaded lines a).memory.read x = m.memory.read x := by
  refine h.read_loaded m fun i hi e => ?_
  rw [← e, Memory.cell, BitVec.toNat_add, BitVec.toNat_ofNat] at hx
  have hle := Nat.mod_le (a.toNat + i % 2 ^ 16) (2 ^ 16)
  have hmod := Nat.mod_le i (2 ^ 16)
  omega

end SourceOf

variable {r r' r₁ : Registers} {memory memory' memory₁ : Memory} {f : Fetched}
  {fs gs : List Fetched}

/-! ## What code does to the registers and the memory -/

def withState (m : Machine) (registers : Registers) (memory : Memory) : Machine :=
  { m with registers, memory }

/-- With these registers and this memory, whatever else the machine has in it, the
instructions are executed and leave those. -/
def Leads (fs : List Fetched) (r : Registers) (memory : Memory) (r' : Registers)
    (memory' : Memory) : Prop :=
  ∀ m : Machine, ∃ n : Machine, (m.withState r memory).Executes fs (n.withState r' memory')

namespace Leads

theorem refl (r : Registers) (memory : Memory) : Leads [] r memory r memory :=
  fun m => ⟨m, .refl _⟩

/-- One instruction, fetched at the program counter, and those after it.  What it leaves must not
depend on the rest of the machine. -/
theorem cons (hf : memory.fetch r.pc = .ok f) (r₁ : Registers) (memory₁ : Memory)
    (hexecute : ∀ m : Machine, ((m.withState r memory).execute f).registers = r₁ ∧
      ((m.withState r memory).execute f).memory = memory₁)
    (h : Leads fs r₁ memory₁ r' memory') : Leads (f :: fs) r memory r' memory' := by
  intro m
  obtain ⟨rfl, rfl⟩ := hexecute m
  obtain ⟨n, he⟩ := h ((m.withState r memory).execute f)
  exact ⟨n, .cons (step_eq_ok_iff.2 ⟨hf, rfl⟩) he⟩

theorem append (h : Leads fs r memory r₁ memory₁) (h' : Leads gs r₁ memory₁ r' memory') :
    Leads (fs ++ gs) r memory r' memory' := by
  intro m
  obtain ⟨mid, hfs⟩ := h m
  obtain ⟨last, hgs⟩ := h' mid
  exact ⟨last, hfs.append hgs⟩

/-- A conditional jump goes where the condition says and changes nothing else. -/
theorem jumpIf {condition : Condition} (hf : memory.fetch r.pc = .ok f)
    (ho : f.operation = .jumpIf condition) :
    Leads [f] r memory { r with pc := if r.holds condition then f.data else f.next } memory := by
  refine .cons hf _ _ (fun m => ?_) (.refl _ _)
  have hholds :
      ((m.withState r memory).advance f).registers.holds condition = r.holds condition := by
    cases condition <;> rfl
  have haction : ((m.withState r memory).advance f).action f.toInstruction =
      if r.holds condition then .jmp f.data else .nop := by
    rw [action, show f.toInstruction.operation = _ from ho, ← hholds]
    rfl
  rw [execute, haction]
  split <;> exact ⟨rfl, rfl⟩

end Leads

/-- A path to a halt is a run, if the limit allows for its length. -/
theorem runFrom_of_leads {m : Machine} {start : Word} {limit : Option Nat}
    (hclear : m.halted = false)
    (h : Leads fs { m.registers with pc := start } m.memory r memory) (hfree : HaltFree fs)
    (hf : memory.fetch r.pc = .ok f) (ho : f.operation = .hlt) (hlimit : fs.length < bound limit) :
    ∃ last, runFrom start limit m = (.ok (fs.length + 1), last) ∧
      last.registers = { r with pc := f.next } ∧ last.memory = memory := by
  obtain ⟨n, he⟩ := h (m.jump start)
  have hs : (n.withState r memory).step = .ok (f, (n.withState r memory).execute f) :=
    step_eq_ok_iff.2 ⟨hf, rfl⟩
  have halts : (m.jump start).HaltsAt (fs.length + 1) ((n.withState r memory).execute f) :=
    ⟨fs, f, he.append (.single hs), hfree, ho, rfl⟩
  refine ⟨_, run_of_haltsAt hclear halts hlimit, ?_⟩
  have haction : ((n.withState r memory).advance f).action f.toInstruction = .hlt := by
    rw [action_eq_hlt_iff]
    exact ho
  rw [execute, haction]
  exact ⟨rfl, rfl⟩

end Machine
end I8085
