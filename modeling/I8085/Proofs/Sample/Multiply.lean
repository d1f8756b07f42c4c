import I8085.Proofs.Machine.Code
import I8085.Proofs.Sample.Vocabulary
import I8085.Sample

/-!
# The multiplication sample

The program adds its first factor to a sum once for every count of the second.  It counts
down before it looks at the count, so that it makes at least one pass: a second factor of
zero is counted down through `FF`, and the sum is 256 times the first factor.
-/

namespace I8085

theorem Word.ofByte_eq_ofNat (b : Byte) : Word.ofByte b = BitVec.ofNat 16 b.toNat := by
  apply BitVec.eq_of_toNat_eq
  rw [Word.toNat_ofByte, BitVec.toNat_ofNat]
  omega

namespace Sample
namespace Multiply

open Assembler Machine Vocabulary

/-! ## The code -/

/-- Takes the factors from memory and clears the sum. -/
def setup : List Fetched :=
  [⟨lda 0xC050, 0x0000⟩, ⟨movEA, 0x0003⟩, ⟨mviD 0x00, 0x0004⟩, ⟨lda 0xC051, 0x0006⟩,
   ⟨movCA, 0x0009⟩, ⟨lxiHL 0x0000, 0x000A⟩]

/-- Adds the first factor once and counts the second down. -/
def pass : List Fetched := [⟨dadDE, 0x000D⟩, ⟨dcrC, 0x000E⟩, ⟨jnz 0x000D, 0x000F⟩]

def store : Fetched := ⟨shld 0xC052, 0x0012⟩

def halt : Fetched := ⟨hlt, 0x0015⟩

/-- Every line of the source at its address. -/
def code : List Fetched := setup ++ (pass ++ [store, halt])

/-- The code without its addresses. -/
def program : List Instruction := code.map fun f => f.toInstruction

theorem source : SourceOf multiply.source origin code where
  located := by decide
  fits := by decide
  texts := by decide
  size_le := by decide

theorem assemble_source : assemble multiply.source = program.map .ok := source.assemble_eq

/-! ## What its parts do -/

variable {r : Registers} {memory : Memory} {x count : Byte} {made : Nat}

/-- The sum is that of so many passes, and so much is left to count. -/
structure Summing (r : Registers) (x count : Byte) (made : Nat) : Prop where
  factor : r.de = Word.ofByte x
  counter : r.c = count
  sum : r.hl = BitVec.ofNat 16 (x.toNat * made)

/-- No pass is made yet when the loop is entered. -/
theorem leads_setup (h : memory.Holds setup) (r : Registers) :
    ∃ r', Leads setup { r with pc := 0x0000 } memory r' memory ∧ r'.pc = 0x000D ∧
      Summing r' (memory.read 0xC050) (memory.read 0xC051) 0 := by
  obtain ⟨first, toE, clearD, second, toC, clearHL, -⟩ := by
    simpa only [setup, Memory.holds_cons] using h
  let x := memory.read 0xC050
  let y := memory.read 0xC051
  have summing : Summing { r with a := y, c := y, d := 0, e := x, h := 0, l := 0, pc := 0x000D }
      x y 0 := by
    refine ⟨rfl, rfl, ?_⟩
    rw [Nat.mul_zero]
    show Word.ofBytes 0 0 = 0
    decide
  refine ⟨_, ?_, rfl, summing⟩
  -- An instruction a line, with the registers it leaves.
  refine .cons first { r with a := x, pc := 0x0003 } memory (fun _ => ⟨rfl, rfl⟩) ?_
  refine .cons toE { r with a := x, e := x, pc := 0x0004 } memory (fun _ => ⟨rfl, rfl⟩) ?_
  refine .cons clearD { r with a := x, d := 0, e := x, pc := 0x0006 } memory
    (fun _ => ⟨rfl, rfl⟩) ?_
  refine .cons second { r with a := y, d := 0, e := x, pc := 0x0009 } memory
    (fun _ => ⟨rfl, rfl⟩) ?_
  refine .cons toC { r with a := y, c := y, d := 0, e := x, pc := 0x000A } memory
    (fun _ => ⟨rfl, rfl⟩) ?_
  exact .cons clearHL _ memory (fun _ => ⟨rfl, rfl⟩) (.refl _ _)

/-- A pass adds the first factor, and goes on unless it has counted down to zero. -/
theorem leads_pass (h : memory.Holds pass) (hpc : r.pc = 0x000D) (hr : Summing r x count made) :
    ∃ r', Leads pass r memory r' memory ∧
      r'.pc = (if count - 1 = 0 then 0x0012 else 0x000D) ∧
      Summing r' x (count - 1) (made + 1) := by
  obtain ⟨add, countDown, again, -⟩ := by
    simpa only [pass, Memory.holds_cons] using h
  let added : Registers := { r.addToHL r.de with pc := 0x000E }
  let counted : Registers :=
    { added.commitStep (Alu.subtract r.c 1 false) with
      c := (Alu.subtract r.c 1 false).value
      pc := 0x000F }
  have hcount : (Alu.subtract r.c 1 false).value = count - 1 := by
    rw [hr.counter, Alu.subtract]
    bv_omega
  have hgoesOn : counted.holds .nz = !decide (count - 1 = 0) := by
    rw [← hcount]
    rfl
  have hsum : counted.hl = BitVec.ofNat 16 (x.toNat * (made + 1)) := by
    have hadded : counted.hl = r.hl + r.de := Word.ofBytes_high_low _
    rw [hadded, hr.sum, hr.factor, Word.ofByte_eq_ofNat, ← BitVec.ofNat_add, Nat.mul_succ]
  have jump : Leads _ counted memory _ memory := .jumpIf again rfl
  rw [hgoesOn] at jump
  refine ⟨_, .cons (by rw [hpc]; exact add) added memory (fun _ => ⟨rfl, rfl⟩)
    (.cons countDown counted memory (fun _ => ⟨rfl, rfl⟩) jump), ?_, hr.factor, hcount, hsum⟩
  show (if (!decide (count - 1 = 0)) = true then (0x000D : Word) else 0x0012) = _
  simp

/-- The passes that a loop makes if it counts down from a byte before it looks at it. -/
def passes (count : Byte) : Nat := if count = 0 then 256 else count.toNat

theorem passes_eq (count : Byte) : passes count = (count - 1).toNat + 1 := by
  unfold passes
  split
  · next hzero => rw [hzero]; rfl
  · next hnonzero =>
    have hpos : count.toNat ≠ 0 := fun h => hnonzero (BitVec.eq_of_toNat_eq h)
    bv_omega

/-- The loop ends, with the first factor added once in each pass.  The induction is on what is
left of the count after the first pass. -/
theorem leads_passes (h : memory.Holds pass) (hpc : r.pc = 0x000D)
    (hr : Summing r x count made) :
    ∃ r', Leads (List.replicate (passes count) pass).flatten r memory r' memory ∧
      r'.pc = 0x0012 ∧ Summing r' x 0 (made + passes count) := by
  rw [passes_eq]
  generalize hn : (count - 1).toNat = n
  induction n generalizing r count made with
  | zero =>
    obtain ⟨r', hpass, hpc', hr'⟩ := leads_pass h hpc hr
    have hlast : count - 1 = 0 := BitVec.eq_of_toNat_eq hn
    rw [if_pos hlast] at hpc'
    rw [hlast] at hr'
    exact ⟨r', by simpa using hpass, hpc', hr'⟩
  | succ n ih =>
    obtain ⟨r₁, hpass, hpc₁, hr₁⟩ := leads_pass h hpc hr
    have hmore : count - 1 ≠ 0 := by
      intro hlast
      rw [hlast] at hn
      cases hn
    rw [if_neg hmore] at hpc₁
    obtain ⟨r', hrest, hpc', hr'⟩ := ih hpc₁ hr₁ (by bv_omega)
    rw [Nat.add_assoc, Nat.add_comm 1] at hr'
    refine ⟨r', ?_, hpc', hr'⟩
    rw [List.replicate_succ, List.flatten_cons]
    exact hpass.append hrest

/-! ## The whole program -/

/-- What the program executes before it halts. -/
def trace (count : Byte) : List Fetched :=
  setup ++ ((List.replicate (passes count) pass).flatten ++ [store])

theorem length_trace (count : Byte) : (trace count).length = 7 + 3 * passes count := by
  rw [trace, List.length_append, List.length_append, List.length_flatten, List.map_replicate,
    List.sum_replicate_nat]
  show 6 + (passes count * 3 + 1) = _
  omega

theorem haltFree_trace (count : Byte) : HaltFree (trace count) := by
  have hsetup : ∀ f ∈ setup, f.operation ≠ .hlt := by decide
  have hpass : ∀ f ∈ pass, f.operation ≠ .hlt := by decide
  have hstore : ∀ f ∈ [store], f.operation ≠ .hlt := by decide
  intro f hf
  rcases List.mem_append.1 hf with hf | hf
  · exact hsetup f hf
  rcases List.mem_append.1 hf with hf | hf
  · obtain ⟨part, hpart, hf⟩ := List.mem_flatten.1 hf
    exact hpass f (List.eq_of_mem_replicate hpart ▸ hf)
  · exact hstore f hf

/-- The memory in the end: behind the factors is the sum. -/
def result (memory : Memory) : Memory :=
  memory.writeWord 0xC052
    (BitVec.ofNat 16 ((memory.read 0xC050).toNat * passes (memory.read 0xC051)))

theorem leads_trace (h : memory.Holds code) (r : Registers) :
    ∃ r', Leads (trace (memory.read 0xC051)) { r with pc := origin } memory r' (result memory) ∧
      (result memory).fetch r'.pc = .ok halt := by
  obtain ⟨hsetup, hpass, hfinish⟩ : _ ∧ _ ∧ memory.Holds [store, halt] := by
    simpa only [code, Memory.holds_append] using h
  obtain ⟨hstore, hhalt⟩ := Memory.holds_cons.1 hfinish
  obtain ⟨r₁, leadsSetup, hpc₁, hr₁⟩ := leads_setup hsetup r
  obtain ⟨r₂, leadsPasses, hpc₂, hr₂⟩ := leads_passes hpass hpc₁ hr₁
  have hsum := hr₂.sum
  rw [Nat.zero_add] at hsum
  have leadsStore : Leads [store] r₂ memory { r₂ with pc := 0x0015 } (result memory) := by
    rw [result, ← hsum]
    exact .cons (by rw [hpc₂]; exact hstore) _ _ (fun _ => ⟨rfl, rfl⟩) (.refl _ _)
  refine ⟨_, leadsSetup.append (leadsPasses.append leadsStore), ?_⟩
  exact (Memory.holds_cons.1 (hhalt.writeWord _ (by decide) (by decide))).1

theorem runFrom_of_holds {m : Machine} (hclear : m.halted = false) (h : m.memory.Holds code) :
    ∃ last, runFrom origin none m = (.ok (8 + 3 * passes (m.memory.read 0xC051)), last) ∧
      last.memory = result m.memory := by
  obtain ⟨r, leads, hhalt⟩ := leads_trace h m.registers
  have short : (trace (m.memory.read 0xC051)).length < bound none := by
    rw [length_trace, passes_eq]
    show _ < 2 ^ 64
    omega
  obtain ⟨last, hrun, -, hmemory⟩ :=
    runFrom_of_leads hclear leads (haltFree_trace _) hhalt rfl short
  refine ⟨last, ?_, hmemory⟩
  rw [hrun, length_trace, Nat.add_right_comm]

theorem runFrom_loaded_of_factors (m : Machine) {x y : Byte} (hx : m.memory.read 0xC050 = x)
    (hy : m.memory.read 0xC051 = y) :
    ∃ last, runFrom origin none (m.loaded multiply.source origin) =
        (.ok (8 + 3 * passes y), last) ∧
      last.memory = (m.loaded multiply.source origin).memory.writeWord 0xC052
        (BitVec.ofNat 16 (x.toNat * passes y)) := by
  have keepsFirst := source.read_loaded m (x := 0xC050) (by decide)
  have keepsSecond := source.read_loaded m (x := 0xC051) (by decide)
  obtain ⟨last, hrun, hmemory⟩ := runFrom_of_holds rfl (source.holds m)
  rw [keepsSecond, hy] at hrun
  rw [result, keepsFirst, keepsSecond, hx, hy] at hmemory
  exact ⟨last, hrun, hmemory⟩

/-- As many passes as the second factor says make the product, and 256 of them make another
multiple of the first factor unless that is zero. -/
theorem sum_eq_product_iff (x y : Byte) :
    (BitVec.ofNat 16 (x.toNat * passes y)).toNat = x.toNat * y.toNat ↔ y ≠ 0 ∨ x = 0 := by
  have hfits : x.toNat * passes y < 2 ^ 16 := by
    have hpasses : passes y ≤ 256 := by
      rw [passes_eq]
      exact (y - 1).isLt
    have hx : x.toNat ≤ 255 := Nat.le_of_lt_succ x.isLt
    have hmul := Nat.mul_le_mul hx hpasses
    omega
  rw [BitVec.toNat_ofNat, Nat.mod_eq_of_lt hfits]
  by_cases hy : y = 0
  · subst hy
    have hzero : x.toNat = 0 ↔ x = 0 := by rw [← BitVec.toNat_inj]; rfl
    show x.toNat * 256 = x.toNat * 0 ↔ _
    rw [← hzero]
    simp
  · rw [passes, if_neg hy]
    exact iff_of_true rfl (.inl hy)

end Multiply

open Multiply Assembler Machine

/-- The program halts for every two factors, whatever the registers and the rest of memory hold,
and stores one word behind the factors; no other cell changes.  The word is the product exactly
if the second factor is not zero or the first one is.  For a second factor of zero the first is
added 256 times. -/
theorem runFrom_multiply (m : Machine) :
    let loaded := m.loaded multiply.source origin
    let x := m.memory.read 0xC050
    let y := m.memory.read 0xC051
    (load multiply.source origin m.memory).1 = .ok 0x0016 ∧
    ∃ last, runFrom origin none loaded = (.ok (8 + 3 * passes y), last) ∧
      last.memory = loaded.memory.writeWord 0xC052 (BitVec.ofNat 16 (x.toNat * passes y)) ∧
      ((last.memory.readWord 0xC052).toNat = x.toNat * y.toNat ↔ y ≠ 0 ∨ x = 0) := by
  intro loaded x y
  have hload := congrArg Prod.fst (load_of_accepted assemble_source origin m.memory)
  obtain ⟨last, hrun, hmemory⟩ := runFrom_loaded_of_factors m rfl rfl
  refine ⟨hload, last, hrun, hmemory, ?_⟩
  rw [hmemory, Memory.readWord_writeWord]
  exact sum_eq_product_iff x y

/-- One times nothing is 256. -/
theorem runFrom_multiply_one_by_zero :
    ∃ m last : Machine, m.memory.read 0xC050 = 1 ∧ m.memory.read 0xC051 = 0 ∧
      runFrom origin none (m.loaded multiply.source origin) = (.ok 776, last) ∧
      last.memory.readWord 0xC052 = 0x0100 := by
  let m : Machine := { memory := Memory.zero.write 0xC050 1, registers := {} }
  have hx : m.memory.read 0xC050 = 1 := Memory.read_write_self _ _ _
  have hy : m.memory.read 0xC051 = 0 :=
    (Memory.read_write_of_ne _ _ (by decide)).trans (Memory.read_zero _)
  obtain ⟨last, hrun, hmemory⟩ := runFrom_loaded_of_factors m hx hy
  refine ⟨m, last, hx, hy, hrun, ?_⟩
  rw [hmemory, Memory.readWord_writeWord]
  rfl

end Sample
end I8085
