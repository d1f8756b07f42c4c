import I8085.Proofs.Assembler.Loading
import I8085.Proofs.Assembler.RoundTrip

/-!
# Disassembling a loaded program

A sweep fetches one instruction after another, each behind the one before it.  Over a program that
was just loaded and fits the address space it gives back the program's lines, as far as their bytes
say anything of them: the canonical texts of what it finds load the same bytes.
-/

namespace I8085
namespace Memory

/-- The instructions from an address up, each fetched behind the one before it. -/
def sweep (m : Memory) (x : Word) : (count : Nat) → Except Fault (List Fetched)
  | 0 => .ok []
  | count + 1 => do
    let f ← m.fetch x
    let rest ← m.sweep f.next count
    return f :: rest

theorem sweep_succ_of_ok {m : Memory} {x : Word} {count : Nat} {f : Fetched} {rest : List Fetched}
    (hf : m.fetch x = .ok f) (hrest : m.sweep f.next count = .ok rest) :
    m.sweep x (count + 1) = .ok (f :: rest) := by
  simp only [sweep, hf, bind, Except.bind, hrest, pure, Except.pure]

end Memory

namespace Assembler

/-- The bytes that the accepted lines of a program take together. -/
def encodedSize (lines : List String) : Nat :=
  ((assemble lines).map fun result => result.toOption.elim 0 Instruction.length).sum

theorem encodedSize_of_accepted {lines : List String} {program : List Instruction}
    (h : assemble lines = program.map .ok) : encodedSize lines = size program := by
  rw [encodedSize, h, size, List.map_map]
  rfl

theorem accepted_of_load {lines : List String} {a finish : Word} {m loaded : Memory}
    (h : load lines a m = (.ok finish, loaded)) :
    ∃ program : List Instruction, assemble lines = program.map .ok := by
  rcases assemble_cases lines with accepted | ⟨before, cause, after, hrefused⟩
  · exact accepted
  · rw [load_of_refused hrefused] at h
    cases h

/-- A sweep finds a program where its bytes stand.  The induction is on the instructions: the bytes
of the first are at the address, and those of the others begin where it ends. -/
theorem sweep_of_bytes {m : Memory} {x : Word} {program : List Instruction}
    (hfits : ∀ i ∈ program, i.Fits) (hbytes : m.bytes x (size program) = image program) :
    m.sweep x program.length = .ok (located x program) := by
  induction program generalizing x with
  | nil => rfl
  | cons i program ih =>
    rw [size_cons, image_cons, Memory.bytes_add] at hbytes
    obtain ⟨here, behind⟩ := List.append_inj hbytes (by simp)
    have hf : m.fetch x = .ok { i with address := x } :=
      Memory.fetch_eq_ok_iff_bytes.2 ⟨rfl, hfits i List.mem_cons_self, here⟩
    exact Memory.sweep_succ_of_ok hf
      (ih (fun j hj => hfits j (List.mem_cons_of_mem i hj)) behind)

/-- The last instruction of a program ends where the program does. -/
theorem next_getLast_located (x : Word) (program : List Instruction) :
    (located x program).getLast?.elim x Fetched.next = Memory.cell x (size program) := by
  induction program generalizing x with
  | nil => exact (Memory.cell_zero x).symm
  | cons i program ih =>
    rw [located, size_cons, ← Memory.cell_add, ← ih, List.getLast?_cons]
    cases (located (Memory.cell x i.length) program).getLast? with
    | none => rfl
    | some f => rfl

theorem assemble_texts {program : List Instruction} (hfits : ∀ i ∈ program, i.Fits) :
    assemble (program.map Instruction.text) = program.map .ok := by
  rw [assemble, List.map_map]
  exact List.map_congr_left (fun i hi => encode_text (hfits i hi))

/-- A sweep over a loaded program that fits the address space finds its lines in order, each with
its entry and its literal, and ends where the load did.  Their canonical texts load the same
bytes over any memory. -/
theorem sweep_of_load {lines : List String} {a finish : Word} {m loaded : Memory}
    (hload : load lines a m = (.ok finish, loaded)) (hsize : encodedSize lines ≤ 65536) :
    ∃ (fs : List Fetched) (block : List Byte),
      loaded.sweep a lines.length = .ok fs ∧
      assemble lines = fs.map (fun f => .ok f.toInstruction) ∧
      fs.getLast?.elim a Fetched.next = finish ∧
      block.length = encodedSize lines ∧ loaded = m.load a block ∧
      ∀ other : Memory, load (fs.map fun f => f.text) a other = (.ok finish, other.load a block) := by
  obtain ⟨program, haccepted⟩ := accepted_of_load hload
  have hfits := fits_of_assemble haccepted
  rw [encodedSize_of_accepted haccepted] at hsize ⊢
  rw [load_of_accepted haccepted] at hload
  obtain ⟨rfl, rfl⟩ :
      Memory.cell a (size program) = finish ∧ m.load a (image program) = loaded := by
    simpa using hload
  have hlength : lines.length = program.length := by
    have := congrArg List.length haccepted
    simpa [assemble] using this
  have stands : (m.load a (image program)).bytes a (size program) = image program := by
    rw [← length_image] at hsize ⊢
    exact Memory.bytes_load m a hsize
  have texts : (located a program).map (fun f => f.text) = program.map Instruction.text :=
    map_located Instruction.text a program
  refine ⟨located a program, image program, ?_, ?_, next_getLast_located a program,
    length_image program, rfl, fun other => ?_⟩
  · rw [hlength]
    exact sweep_of_bytes hfits stands
  · rw [haccepted]
    exact (map_located Except.ok a program).symm
  · rw [texts]
    exact load_of_accepted (assemble_texts hfits) a other

/-- Two lines whose bytes go on at `0000`. -/
theorem sweep_of_wrapped_program :
    ∃ loaded fs, load ["LXI SP , c0ff", "MVI A,7e"] 0xFFFE Memory.zero = (.ok 3, loaded) ∧
      loaded.sweep 0xFFFE 2 = .ok fs ∧ fs.map (fun f => f.text) = ["LXI SP,C0FF", "MVI A,7E"] := by
  let lxi : Instruction := { entry := ⟨0x31, .lxi .sp, rfl⟩, data := 0xC0FF }
  let mvi : Instruction := { entry := ⟨0x3E, .mvi .a, rfl⟩, data := 0x7E }
  have hlxi : encode "LXI SP , c0ff" = .ok lxi := by decide +kernel
  have hmvi : encode "MVI A,7e" = .ok mvi := by decide +kernel
  have accepted : assemble ["LXI SP , c0ff", "MVI A,7e"] = [lxi, mvi].map .ok := by
    rw [assemble, List.map_cons, List.map_singleton, hlxi, hmvi]
    rfl
  have loads : load ["LXI SP , c0ff", "MVI A,7e"] 0xFFFE Memory.zero =
      (.ok 3, Memory.zero.load 0xFFFE (image [lxi, mvi])) := by
    rw [load_of_accepted accepted, show Memory.cell 0xFFFE (size [lxi, mvi]) = 3 by decide]
  have small : encodedSize ["LXI SP , c0ff", "MVI A,7e"] ≤ 65536 := by
    rw [encodedSize_of_accepted accepted]
    decide
  obtain ⟨fs, -, hfs, hlines, -⟩ := sweep_of_load loads small
  refine ⟨_, fs, loads, hfs, ?_⟩
  have texts : [lxi, mvi].map Instruction.text = fs.map (fun f => f.text) := by
    have lines := congrArg (List.map fun result => result.toOption.elim "" Instruction.text) hlines
    rw [accepted, List.map_map, List.map_map] at lines
    exact lines
  have first : lxi.text = "LXI SP,C0FF" := by decide +kernel
  have second : mvi.text = "MVI A,7E" := by decide +kernel
  rw [← texts, List.map_cons, List.map_singleton, first, second]

end Assembler
end I8085
