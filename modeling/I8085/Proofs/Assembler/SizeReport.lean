import I8085.Assembler.Log
import I8085.Proofs.Assembler.Sweep

/-!
# The size that a load reports

A load that comes to its end reports how many bytes it has placed and from where.  The number is
the way that the cursor has come, and the cursor goes round: what is reported is the size of the
program modulo 65536.  A program that fills the address space once is reported with no bytes, and
a program is reported with its size exactly if it is smaller than that.
-/

namespace I8085
namespace Assembler

variable {lines : List String} {program : List Instruction}

/-- A line that is written as an instruction's canonical text stands for it. -/
theorem encode_of_text_eq {i : Instruction} {line : String} (h : i.text = line) (hfits : i.Fits) :
    encode line = .ok i := h ▸ encode_text hfits

/-! ## The last event of a load -/

/-- The report ends with the way from the origin to the address behind the program. -/
theorem getLast?_loadEventsFrom (h : assemble lines = program.map .ok) (origin cursor : Word) :
    (loadEventsFrom origin lines cursor).getLast? =
      some (.programPlaced (Memory.cell cursor (size program) - origin) origin) := by
  induction lines generalizing cursor program with
  | nil =>
    have hnil : program = [] := by simpa [assemble] using h.symm
    rw [hnil, size_nil, Memory.cell_zero]
    rfl
  | cons line lines ih =>
    cases program with
    | nil => cases h
    | cons i rest =>
      have hline : encode line = .ok i := (List.cons.inj h).1
      have hrest : assemble lines = rest.map .ok := (List.cons.inj h).2
      rw [loadEventsFrom, hline]
      -- The report of the other lines is not empty, so it has the last event of both.
      show (_ :: loadEventsFrom origin lines (Memory.cell cursor i.length)).getLast? = _
      rw [List.getLast?_cons, ih hrest, Memory.cell_add, size_cons]
      rfl

theorem getLast?_loadEvents (h : assemble lines = program.map .ok) (origin : Word) :
    (loadEvents lines origin).getLast? =
      some (.programPlaced (BitVec.ofNat 16 (size program)) origin) := by
  have way : Memory.cell origin (size program) - origin = BitVec.ofNat 16 (size program) := by
    rw [Memory.cell, BitVec.add_comm, BitVec.add_sub_cancel]
  rw [loadEvents, getLast?_loadEventsFrom h, way]

/-- A load that is accepted ends its report with the origin and with the number of its bytes modulo
65536, which is their number exactly if there are fewer than 65536. -/
theorem loadEvents_closing {origin finish : Word} {m loaded : Memory}
    (hload : load lines origin m = (.ok finish, loaded)) :
    let count := BitVec.ofNat 16 (encodedSize lines)
    (loadEvents lines origin).getLast? = some (.programPlaced count origin) ∧
    (Event.programPlaced count origin).message =
      "Loaded " ++ (encodedSize lines % 65536).repr ++ " bytes at " ++ Hex.word origin ∧
    (count.toNat = encodedSize lines ↔ encodedSize lines < 65536) := by
  intro count
  have hcount : count.toNat = encodedSize lines % 65536 := by
    rw [BitVec.toNat_ofNat]
  obtain ⟨program, haccepted⟩ := accepted_of_load hload
  refine ⟨?_, ?_, ?_⟩
  · rw [getLast?_loadEvents haccepted, ← encodedSize_of_accepted haccepted]
  · show "Loaded " ++ count.toNat.repr ++ " bytes at " ++ Hex.word origin = _
    rw [hcount]
  · rw [hcount]
    constructor
    · intro h
      rw [← h]
      exact Nat.mod_lt _ (by decide)
    · exact Nat.mod_eq_of_lt

/-- Three bytes that go on at `0000` are reported as three. -/
theorem loadEvents_closing_wrapped :
    ∃ loaded, load ["MVI A,05", "HLT"] 0xFFFF Memory.zero = (.ok 2, loaded) ∧
      (loadEvents ["MVI A,05", "HLT"] 0xFFFF).getLast? = some (.programPlaced 3 0xFFFF) := by
  let mvi : Instruction := { entry := ⟨0x3E, .mvi .a, rfl⟩, data := 0x05 }
  let hlt : Instruction := { entry := ⟨0x76, .hlt, rfl⟩, data := 0 }
  have hmvi : encode "MVI A,05" = .ok mvi := encode_of_text_eq (by decide +kernel) (by decide)
  have hhlt : encode "HLT" = .ok hlt := encode_of_text_eq (by decide +kernel) (by decide)
  have accepted : assemble ["MVI A,05", "HLT"] = [mvi, hlt].map .ok := by
    rw [assemble, List.map_cons, List.map_singleton, hmvi, hhlt]
    rfl
  have loads : load ["MVI A,05", "HLT"] 0xFFFF Memory.zero =
      (.ok 2, Memory.zero.load 0xFFFF (image [mvi, hlt])) := by
    rw [load_of_accepted accepted, show Memory.cell 0xFFFF (size [mvi, hlt]) = 2 by decide]
  refine ⟨_, loads, (loadEvents_closing loads).1.trans ?_⟩
  rw [encodedSize_of_accepted accepted]
  rfl

/-! ## A program larger than memory -/

theorem assemble_replicate {line : String} {i : Instruction} (h : encode line = .ok i)
    (count : Nat) : assemble (List.replicate count line) = (List.replicate count i).map .ok := by
  rw [assemble, List.map_replicate, List.map_replicate, h]

theorem size_replicate (count : Nat) (i : Instruction) :
    size (List.replicate count i) = count * i.length := by
  rw [size, List.map_replicate, List.sum_replicate_nat]

/-- A jump that is written 21846 times takes 65538 bytes, and two are reported. -/
theorem loadEvents_of_jumps_around_memory :
    let lines := List.replicate 21846 "JP 0000"
    (load lines 0 Memory.zero).1 = .ok 2 ∧ encodedSize lines = 65538 ∧
      (loadEvents lines 0).getLast? = some (.programPlaced 2 0) ∧
      (Event.programPlaced 2 0).message = "Loaded 2 bytes at 0000" := by
  intro lines
  let jump : Instruction := { entry := ⟨0xF2, .jumpIf .p, rfl⟩, data := 0 }
  have hline : encode "JP 0000" = .ok jump := encode_of_text_eq (by decide +kernel) (by decide)
  have accepted : assemble lines = (List.replicate 21846 jump).map .ok :=
    assemble_replicate hline 21846
  have hsize : size (List.replicate 21846 jump) = 65538 := by
    rw [size_replicate]
    rfl
  refine ⟨?_, ?_, ?_, by decide +kernel⟩
  · rw [load_of_accepted accepted, hsize]
    rfl
  · rw [encodedSize_of_accepted accepted, hsize]
  · rw [getLast?_loadEvents accepted, hsize]
    rfl

end Assembler
end I8085
