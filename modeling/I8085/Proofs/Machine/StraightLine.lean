import I8085.Proofs.Assembler.Canonical
import I8085.Proofs.Assembler.Placement
import I8085.Proofs.Machine.Run

/-!
# Programs without jumps

A program that transfers no control and stores into none of its own bytes is
executed line by line.  The induction is on the lines still to come: their bytes
stand at the program counter, since the line before ended there and stored
elsewhere.
-/

namespace I8085
namespace Machine

open Assembler

variable {m : Machine} {body : List Instruction}

/-- The next instruction stores into none of the `count` cells from `x` up. -/
def StoresOutside (m : Machine) (x : Word) (count : Nat) : Prop :=
  ∀ y ∈ m.stores, ∀ j < count, y ≠ Memory.cell x j

/-- No instruction that a run from `m` executes stores into the `count` cells from
`x` up. -/
def Spares (m : Machine) (x : Word) (count : Nat) : Prop :=
  ∀ fs mid, m.Executes fs mid → HaltFree fs → mid.StoresOutside x count

theorem bytes_execute {f : Fetched} {x : Word} {p q : Nat} (hf : m.fetch = .ok f)
    (h : m.StoresOutside x (p + q)) :
    (m.execute f).memory.bytes (Memory.cell x p) q = m.memory.bytes (Memory.cell x p) q := by
  refine Memory.bytes_congr (fun i hi => ?_)
  refine read_execute_of_not_mem_stores hf (fun hmem => ?_)
  have apart := h _ hmem (p + i) (by omega)
  rw [Memory.cell_add] at apart
  exact apart rfl

section Spares

variable {next : Machine} {f : Fetched} {x : Word}

theorem Spares.storesOutside {count : Nat} (h : m.Spares x count) : m.StoresOutside x count :=
  h [] m (.refl m) .nil

theorem Spares.tail {p q : Nat} (h : m.Spares x (p + q)) (hs : m.step = .ok (f, next))
    (hf : f.operation ≠ .hlt) : next.Spares (Memory.cell x p) q := by
  intro fs mid he hfree y hy j hj
  rw [Memory.cell_add]
  exact h (f :: fs) mid (.cons hs he) (hfree.cons hf) y hy (p + j) (by omega)

theorem Spares.of_step {count : Nat} (hs : m.step = .ok (f, next))
    (hnow : m.StoresOutside x count) (hlater : f.operation ≠ .hlt → next.Spares x count) :
    m.Spares x count := by
  intro fs mid he hfree
  cases he with
  | refl => exact hnow
  | cons hs' he =>
    rw [hs] at hs'
    cases hs'
    have hrest : HaltFree _ := fun g hg => hfree g (List.mem_cons_of_mem f hg)
    exact hlater (hfree f List.mem_cons_self) _ mid he hrest

end Spares

/-- An instruction that transfers no control is fetched where its bytes stand, and
carrying it out ends behind them. -/
theorem fetch_of_bytes {i : Instruction} (hfits : i.Fits)
    (hstraight : i.operation.isTransfer = false)
    (hbytes : m.memory.bytes m.registers.pc i.length = i.bytes) :
    ∃ f : Fetched, f = { i with address := m.registers.pc } ∧ m.fetch = .ok f ∧
      (m.execute f).registers.pc = Memory.cell m.registers.pc i.length := by
  refine ⟨_, rfl, Memory.fetch_eq_ok_iff_bytes.2 ⟨rfl, hfits, hbytes⟩, ?_⟩
  exact m.execute_pc hstraight

/-- The lines of a program without jumps are executed one after another from its
first byte up, and what stands behind them is left as it was. -/
theorem executes_located {rest : List Byte} (hfits : ∀ i ∈ body, i.Fits)
    (hbody : ∀ i ∈ body, i.operation ≠ .hlt ∧ i.operation.isTransfer = false)
    (hbytes : m.memory.bytes m.registers.pc (size body + rest.length) = image body ++ rest)
    (hspares : m.Spares m.registers.pc (size body + rest.length)) :
    ∃ last, m.Executes (located m.registers.pc body) last ∧
      last.registers.pc = Memory.cell m.registers.pc (size body) ∧
      last.memory.bytes last.registers.pc rest.length = rest := by
  induction body generalizing m with
  | nil =>
    refine ⟨m, .refl m, (Memory.cell_zero _).symm, ?_⟩
    rwa [size_nil, Nat.zero_add] at hbytes
  | cons i body ih =>
    have hi := List.mem_cons_self (a := i) (l := body)
    rw [size_cons, Nat.add_assoc] at hbytes hspares
    rw [image_cons, List.append_assoc, Memory.bytes_add] at hbytes
    obtain ⟨hhere, hbehind⟩ := List.append_inj hbytes (by
      rw [Memory.length_bytes, Instruction.length_bytes])
    obtain ⟨f, hfetched, hf, hpc⟩ := fetch_of_bytes (hfits i hi) (hbody i hi).2 hhere
    have hs := step_eq_ok_iff.2 ⟨hf, rfl⟩
    have hoperation : f.operation ≠ .hlt := by
      rw [hfetched]
      exact (hbody i hi).1
    have hrest : (m.execute f).memory.bytes (m.execute f).registers.pc
        (size body + rest.length) = image body ++ rest := by
      rw [hpc, bytes_execute hf hspares.storesOutside, hbehind]
    have htail := hspares.tail hs hoperation
    rw [← hpc] at htail
    obtain ⟨last, he, hlast, hkept⟩ := ih (fun j hj => hfits j (List.mem_cons_of_mem i hj))
      (fun j hj => hbody j (List.mem_cons_of_mem i hj)) hrest htail
    refine ⟨last, ?_, ?_, hkept⟩
    · rw [located, ← hfetched, ← hpc]
      exact .cons hs he
    · rw [hlast, hpc, Memory.cell_add, size_cons]

theorem haltsAt_of_bytes {halt : Instruction} (hfits : ∀ i ∈ body ++ [halt], i.Fits)
    (hbody : ∀ i ∈ body, i.operation ≠ .hlt ∧ i.operation.isTransfer = false)
    (hhalt : halt.operation = .hlt)
    (hbytes : m.memory.bytes m.registers.pc (size (body ++ [halt])) = image (body ++ [halt]))
    (hspares : m.Spares m.registers.pc (size (body ++ [halt]))) :
    ∃ last, m.Executes (located m.registers.pc (body ++ [halt])) last ∧
      m.HaltsAt (body ++ [halt]).length last ∧
      last.registers.pc = Memory.cell m.registers.pc (size (body ++ [halt])) := by
  have hsize : size (body ++ [halt]) = size body + halt.bytes.length := by
    rw [size_append, size_cons, size_nil, Nat.add_zero, Instruction.length_bytes]
  have himage : image (body ++ [halt]) = image body ++ halt.bytes := by
    rw [image_append, image_cons, image_nil, List.append_nil]
  rw [hsize] at hspares
  rw [hsize, himage] at hbytes
  obtain ⟨mid, he, hmid, hkept⟩ := executes_located
    (fun i hi => hfits i (List.mem_append_left [halt] hi)) hbody hbytes hspares
  rw [Instruction.length_bytes] at hkept
  have hstraight : halt.operation.isTransfer = false := by
    rw [hhalt]
    rfl
  obtain ⟨f, hfetched, hf, hpc⟩ := fetch_of_bytes
    (hfits halt (List.mem_append_right body (List.mem_singleton_self halt))) hstraight hkept
  have hend := Executes.single (step_eq_ok_iff.2 ⟨hf, rfl⟩)
  have hlocated : located m.registers.pc (body ++ [halt]) = located m.registers.pc body ++ [f] := by
    rw [located_append, located, located, hfetched, hmid]
  have hfree : HaltFree (located m.registers.pc body) :=
    fun g hg => (hbody _ (mem_of_mem_located hg)).1
  have hlast : f.operation = .hlt := by
    rw [hfetched]
    exact hhalt
  refine ⟨mid.execute f, ?_, ?_, ?_⟩
  · rw [hlocated]
    exact he.append hend
  · refine ⟨located m.registers.pc body, f, he.append hend, hfree, hlast, ?_⟩
    rw [List.length_append, List.length_singleton, length_located]
  · rw [hpc, hmid, Memory.cell_add, hsize, Instruction.length_bytes]

/-! ## A loaded program -/

/-- The machine with a program placed at an address and its latch clear. -/
def loaded (m : Machine) (lines : List String) (a : Word) : Machine :=
  { m with memory := (load lines a m.memory).2, halted := false }

/-- A program that fits the address space has its bytes where it was placed. -/
theorem bytes_loaded (m : Machine) (a : Word) {lines : List String} {program : List Instruction}
    (haccepted : assemble lines = program.map .ok) (hsize : size program ≤ 65536) :
    (m.loaded lines a).memory.bytes a (size program) = image program := by
  show (load lines a m.memory).2.bytes a _ = _
  rw [load_of_accepted haccepted, ← length_image]
  exact Memory.bytes_load m.memory a (by rwa [length_image])

/-- A program without jumps that spares its own bytes runs line by line, up to the
halt that ends it, wherever in memory it is placed. -/
theorem runFrom_loaded (m : Machine) (a : Word) (limit : Option Nat) {lines : List String}
    {body : List Instruction} {halt : Instruction}
    (haccepted : assemble lines = (body ++ [halt]).map .ok)
    (hsize : size (body ++ [halt]) ≤ 65536)
    (hbody : ∀ i ∈ body, i.operation ≠ .hlt ∧ i.operation.isTransfer = false)
    (hhalt : halt.operation = .hlt)
    (hspares : ((m.loaded lines a).jump a).Spares a (size (body ++ [halt])))
    (hlimit : ∀ l, limit = some l → lines.length ≤ l) :
    (load lines a m.memory).1 = .ok (a + BitVec.ofNat 16 (size (body ++ [halt]))) ∧
    ∃ fs last, runFrom a limit (m.loaded lines a) = (.ok lines.length, last) ∧
      ((m.loaded lines a).jump a).Executes fs last ∧ fs.length = lines.length ∧
      (∀ (k : Nat) i, (body ++ [halt])[k]? = some i → fs[k]? =
        some { i with address := a + BitVec.ofNat 16 (size ((body ++ [halt]).take k)) }) ∧
      last.registers.pc = a + BitVec.ofNat 16 (size (body ++ [halt])) := by
  refine ⟨congrArg Prod.fst (load_of_accepted haccepted a m.memory), ?_⟩
  have hlength : lines.length = (body ++ [halt]).length := by
    have := congrArg List.length haccepted
    rwa [assemble, List.length_map, List.length_map] at this
  obtain ⟨last, he, hhalts, hpc⟩ := haltsAt_of_bytes (fits_of_assemble haccepted) hbody hhalt
    (m.bytes_loaded a haccepted hsize) hspares
  rw [← hlength] at hhalts
  have hbound : lines.length ≤ bound limit := by
    cases limit with
    | some l => exact hlimit l rfl
    | none =>
      have := length_le_size (body ++ [halt])
      show lines.length ≤ 2 ^ 64
      omega
  refine ⟨_, last, run_of_haltsAt rfl hhalts hbound, he, ?_, ?_, hpc⟩
  · rw [length_located, hlength]
  · intro k i hk
    exact getElem?_located a hk

/-- A store and a halt, placed so that the program ends at `0001`. -/
theorem runFrom_loaded_wrapped :
    ∃ m : Machine, ∃ last, runFrom 0xFFFE none (m.loaded ["STA C050", "HLT"] 0xFFFE) =
      (.ok 2, last) ∧ last.registers.pc = 2 := by
  let sta : Instruction := { entry := ⟨0x32, .sta, rfl⟩, data := 0xC050 }
  let hlt : Instruction := { entry := ⟨0x76, .hlt, rfl⟩, data := 0 }
  let m : Machine := { memory := Memory.zero, registers := {} }
  have sta_fits : sta.Fits := show (0xC050#16).toNat < 256 ^ 2 by decide
  have hlt_fits : hlt.Fits := show (0#16).toNat < 256 ^ 0 by decide
  have accepted : assemble ["STA C050", "HLT"] = ([sta] ++ [hlt]).map .ok := by
    have hsta : encode sta.text = .ok sta := encode_text sta_fits
    have hhlt : encode hlt.text = .ok hlt := encode_text hlt_fits
    rw [show sta.text = "STA C050" by decide +kernel] at hsta
    rw [show hlt.text = "HLT" by decide +kernel] at hhlt
    rw [assemble, List.map_cons, List.map_cons, List.map_nil, hsta, hhlt]
    rfl
  have stands : (m.loaded ["STA C050", "HLT"] 0xFFFE).memory.bytes 0xFFFE (3 + 1) =
      sta.bytes ++ hlt.bytes := m.bytes_loaded 0xFFFE accepted (by decide)
  have spares : ∀ s : Machine, s.registers.pc = 0xFFFE →
      s.memory.bytes 0xFFFE (3 + 1) = sta.bytes ++ hlt.bytes → s.Spares 0xFFFE (3 + 1) := by
    intro s hs hbytes
    rw [← hs, Memory.bytes_add] at hbytes
    obtain ⟨hhere, hbehind⟩ := List.append_inj hbytes (Memory.length_bytes _ _ 3)
    obtain ⟨f, hf, hfetch, hpc⟩ := fetch_of_bytes sta_fits rfl hhere
    have at_literal : s.stores = [0xC050] := by
      rw [stores_of_fetch hfetch, show (s.advance f).action f.toInstruction = .sta 0xC050 by
        rw [hf]; rfl]
      rfl
    have outside : s.StoresOutside 0xFFFE (3 + 1) := by
      intro y hy
      rw [at_literal, List.mem_singleton] at hy
      subst hy
      decide
    have hkept := bytes_execute hfetch outside
    rw [← hs, hbehind, show Memory.cell s.registers.pc 3 = _ from hpc.symm] at hkept
    obtain ⟨g, hg, hfetch', -⟩ := fetch_of_bytes hlt_fits rfl hkept
    have nowhere : (s.execute f).stores = [] := by
      rw [stores_of_fetch hfetch', hg]
      rfl
    have outside' : (s.execute f).StoresOutside 0xFFFE (3 + 1) := by
      intro y hy
      rw [nowhere] at hy
      cases hy
    have halts : g.operation = .hlt := by
      rw [hg]
      rfl
    exact .of_step (step_eq_ok_iff.2 ⟨hfetch, rfl⟩) outside (fun _ =>
      .of_step (step_eq_ok_iff.2 ⟨hfetch', rfl⟩) outside' (fun h => absurd halts h))
  obtain ⟨-, fs, last, hrun, -, -, -, hend⟩ := runFrom_loaded m 0xFFFE none accepted (by decide)
    (by decide) rfl (spares _ rfl stands) (fun l h => by cases h)
  exact ⟨m, last, hrun, hend.trans (by decide)⟩

end Machine
end I8085
