import I8085.Assembler.Program
import I8085.Proofs.Assembler.Encode

/-!
# Where the lines of a program go

A program whose lines are all accepted is placed as one block of bytes.  `located`
names the instruction at each line's address, which is the origin and the lengths
of the lines before it.
-/

namespace I8085
namespace Assembler

def image (program : List Instruction) : List Byte := program.flatMap Instruction.bytes

def size (program : List Instruction) : Nat := (program.map Instruction.length).sum

/-- The instructions of a program, each at its address. -/
def located (x : Word) : List Instruction → List Fetched
  | [] => []
  | i :: rest => { i with address := x } :: located (Memory.cell x i.length) rest

variable {program : List Instruction}

theorem size_nil : size [] = 0 := rfl

theorem image_nil : image [] = [] := rfl

theorem size_cons (i : Instruction) (rest : List Instruction) :
    size (i :: rest) = i.length + size rest := by
  rw [size, List.map_cons, List.sum_cons, size]

theorem image_cons (i : Instruction) (rest : List Instruction) :
    image (i :: rest) = i.bytes ++ image rest := by
  rw [image, List.flatMap_cons, image]

theorem size_append (program rest : List Instruction) :
    size (program ++ rest) = size program + size rest := by
  rw [size, List.map_append, List.sum_append, size, size]

theorem image_append (program rest : List Instruction) :
    image (program ++ rest) = image program ++ image rest := List.flatMap_append

theorem length_image (program : List Instruction) : (image program).length = size program := by
  induction program with
  | nil => rfl
  | cons i rest ih =>
    rw [image_cons, List.length_append, Instruction.length_bytes, ih, size_cons]

theorem length_le_size (program : List Instruction) : program.length ≤ size program := by
  induction program with
  | nil => exact Nat.le_refl 0
  | cons i rest ih =>
    have := i.length_pos
    rw [List.length_cons, size_cons]
    omega

theorem length_located (x : Word) (program : List Instruction) :
    (located x program).length = program.length := by
  induction program generalizing x with
  | nil => rfl
  | cons i rest ih => rw [located, List.length_cons, List.length_cons, ih]

theorem map_located {β : Type} (g : Instruction → β) (x : Word) (program : List Instruction) :
    (located x program).map (fun f => g f.toInstruction) = program.map g := by
  induction program generalizing x with
  | nil => rfl
  | cons i rest ih => rw [located, List.map_cons, List.map_cons, ih]

theorem located_append (x : Word) (program rest : List Instruction) :
    located x (program ++ rest) =
      located x program ++ located (Memory.cell x (size program)) rest := by
  induction program generalizing x with
  | nil => rw [size_nil, Memory.cell_zero]; rfl
  | cons i program ih =>
    rw [List.cons_append, located, located, ih, List.cons_append, Memory.cell_add, size_cons]

theorem mem_of_mem_located {x : Word} {f : Fetched} (h : f ∈ located x program) :
    f.toInstruction ∈ program := by
  induction program generalizing x with
  | nil => cases h
  | cons i rest ih =>
    rcases List.mem_cons.1 h with rfl | hrest
    · exact List.mem_cons_self
    · exact List.mem_cons_of_mem i (ih hrest)

theorem getElem?_located (x : Word) {k : Nat} {i : Instruction} (h : program[k]? = some i) :
    (located x program)[k]? =
      some { i with address := Memory.cell x (size (program.take k)) } := by
  induction program generalizing x k with
  | nil => cases h
  | cons j rest ih =>
    cases k with
    | zero =>
      cases h
      rw [List.take_zero, size_nil, Memory.cell_zero]
      rfl
    | succ k =>
      rw [List.getElem?_cons_succ] at h
      rw [located, List.getElem?_cons_succ, ih _ h, Memory.cell_add, List.take_succ_cons, size_cons]

/-- A program of accepted lines is placed as one block, and the load answers with
the address behind it. -/
theorem loadFrom_of_accepted {lines : List String} (h : assemble lines = program.map .ok)
    (index : Nat) (x : Word) (m : Memory) :
    loadFrom index lines x m = (.ok (Memory.cell x (size program)), m.load x (image program)) := by
  induction lines generalizing index x m program with
  | nil =>
    have hnil : program = [] := by simpa [assemble] using h.symm
    rw [hnil, size_nil, Memory.cell_zero]
    rfl
  | cons line lines ih =>
    cases program with
    | nil => cases h
    | cons i rest =>
      have hline : encode line = .ok i := (List.cons.inj h).1
      have hrest : assemble lines = rest.map .ok := (List.cons.inj h).2
      rw [loadFrom, hline]
      show loadFrom (index + 1) lines (Memory.cell x i.length) (m.load x i.bytes) = _
      rw [ih hrest, Memory.cell_add, size_cons, image_cons, Memory.load_append,
        Instruction.length_bytes]
      rfl

theorem load_of_accepted {lines : List String} (h : assemble lines = program.map .ok) (x : Word)
    (m : Memory) :
    load lines x m = (.ok (Memory.cell x (size program)), m.load x (image program)) :=
  loadFrom_of_accepted h 0 x m

theorem fits_of_assemble {lines : List String} (h : assemble lines = program.map .ok) :
    ∀ i ∈ program, i.Fits := by
  intro i hi
  have hmem : Except.ok i ∈ assemble lines := by
    rw [h]
    exact List.mem_map_of_mem hi
  obtain ⟨line, _, hline⟩ := List.mem_map.1 hmem
  exact fits_of_encode hline

end Assembler
end I8085
