import I8085.Proofs.Machine.Code
import I8085.Proofs.Opcode.FieldStep
import I8085.Proofs.Sample.Vocabulary
import I8085.Sample
import Mathlib.Data.BitVec

/-!
# The summation sample

The program adds four bytes, one in each call of a subroutine.  The loop counts in C, which the
subroutine uses for itself, so that the count goes over the stack and back in every pass.  The
passes leave the stack's cells as they may; all that the loop needs of them is that neither the
code nor the bytes to be added are among them.
-/

namespace I8085
namespace Sample
namespace Summation

open Assembler Machine Vocabulary

/-! ## The code -/

def setup : List Fetched :=
  [⟨lxiSP 0xD000, 0x0000⟩, ⟨lxiHL 0xC050, 0x0003⟩, ⟨mviC 0x04, 0x0006⟩, ⟨xraA, 0x0008⟩]

def call : Fetched := ⟨Vocabulary.call 0x0015, 0x0009⟩

/-- Goes on to the next byte, as long as there is one. -/
def onward : List Fetched := [⟨inxHL, 0x000C⟩, ⟨dcrC, 0x000D⟩, ⟨jnz 0x0009, 0x000E⟩]

def store : Fetched := ⟨sta 0xC054, 0x0011⟩

def halt : Fetched := ⟨hlt, 0x0014⟩

/-- Adds the byte at HL. -/
def subroutine : List Fetched :=
  [⟨pushBC, 0x0015⟩, ⟨mviC 0x00, 0x0016⟩, ⟨addM, 0x0018⟩, ⟨popBC, 0x0019⟩, ⟨ret, 0x001A⟩]

/-- Every line of the source at its address. -/
def code : List Fetched := setup ++ (call :: (onward ++ (store :: halt :: subroutine)))

theorem source : SourceOf sum.source origin code where
  located := by decide
  fits := by decide
  texts := by decide
  size_le := by decide

variable {memory : Memory} {r : Registers} {total b : Byte} {left : Nat} {x : Word}

theorem holds_code : memory.Holds code ↔
    memory.Holds setup ∧ memory.fetch 0x0009 = .ok call ∧ memory.Holds onward ∧
      memory.fetch 0x0011 = .ok store ∧ memory.fetch 0x0014 = .ok halt ∧
      memory.Holds subroutine := by
  simp only [code, Memory.holds_append, Memory.holds_cons]
  rfl

/-! ## The stack -/

/-- The cells that the call and the subroutine store into. -/
def stack : List Word := [0xCFFC, 0xCFFD, 0xCFFE, 0xCFFF]

/-- The memory behind a pass: the address that the call returned to, and below it what the
subroutine saved. -/
def stacked (memory : Memory) (bc : Word) : Memory :=
  (memory.writeWord 0xCFFE 0x000C).writeWord 0xCFFC bc

theorem ne_of_mem_stack {y : Word} (hy : y ∈ stack) (hx : x ∉ stack) : y ≠ x :=
  fun e => hx (e ▸ hy)

theorem read_stacked (hx : x ∉ stack) (bc : Word) : (stacked memory bc).read x = memory.read x := by
  have apart : ∀ y ∈ stack, y ≠ x := fun y hy => ne_of_mem_stack hy hx
  rw [stacked,
    Memory.read_writeWord_of_ne _ _ (apart (0xCFFC + 1) (by decide)) (apart 0xCFFC (by decide)),
    Memory.read_writeWord_of_ne _ _ (apart (0xCFFE + 1) (by decide)) (apart 0xCFFE (by decide))]

theorem holds_stacked (h : memory.Holds code) (bc : Word) : (stacked memory bc).Holds code :=
  (h.writeWord _ (by decide) (by decide)).writeWord _ (by decide) (by decide)

/-! ## What its parts do -/

/-- The subroutine adds the byte at HL and returns with the other registers as they were. -/
theorem leads_subroutine (h : memory.Holds subroutine) (hx : r.hl ∉ stack) :
    Leads subroutine { r with pc := 0x0015, sp := 0xCFFE } memory
      { r.add (memory.read r.hl) false with pc := memory.readWord 0xCFFE, sp := 0xD000 }
      (memory.writeWord 0xCFFC r.bc) := by
  let saved : Memory := memory.writeWord 0xCFFC r.bc
  have hsaved : saved.Holds subroutine := h.writeWord _ (by decide) (by decide)
  obtain ⟨push, -⟩ := Memory.holds_cons.1 h
  obtain ⟨-, clear, add, pop, ret, -⟩ := by
    simpa only [subroutine, Memory.holds_cons] using hsaved
  have hbyte : saved.read r.hl = memory.read r.hl :=
    Memory.read_writeWord_of_ne _ _ (ne_of_mem_stack (by decide) hx)
      (ne_of_mem_stack (by decide) hx)
  have hreturn : saved.readWord 0xCFFE = memory.readWord 0xCFFE := by
    rw [Memory.readWord, Memory.readWord,
      Memory.read_writeWord_of_ne _ _ (by decide) (by decide),
      Memory.read_writeWord_of_ne _ _ (by decide) (by decide)]
  have hrestored : saved.readWord 0xCFFC = r.bc := Memory.readWord_writeWord _ _ _
  let added : Registers := r.add (memory.read r.hl) false
  refine .cons push { r with pc := 0x0016, sp := 0xCFFE - 2 } (memory.writeWord (0xCFFE - 2) r.bc)
    (fun _ => ⟨rfl, rfl⟩) ?_
  refine .cons clear { r with c := 0, pc := 0x0018, sp := 0xCFFC } saved (fun _ => ⟨rfl, rfl⟩) ?_
  refine .cons add { added with c := 0, pc := 0x0019, sp := 0xCFFC } saved (fun _ => ⟨?_, rfl⟩) ?_
  · show { r.add (saved.read r.hl) false with c := 0, pc := 0x0019, sp := 0xCFFC } = _
    rw [hbyte]
  refine .cons pop { added with pc := 0x001A, sp := 0xCFFE } saved (fun _ => ⟨?_, rfl⟩) ?_
  · show { added.setPair .bc (saved.readWord 0xCFFC) with pc := 0x001A, sp := 0xCFFE } = _
    rw [hrestored]
    show { added with
      b := Word.high (Word.ofBytes r.b r.c), c := Word.low (Word.ofBytes r.b r.c), pc := 0x001A,
      sp := 0xCFFE } = _
    rw [Word.high_ofBytes, Word.low_ofBytes]
    rfl
  refine .cons ret _ saved (fun _ => ⟨?_, rfl⟩) (.refl _ _)
  show { added with pc := saved.readWord 0xCFFE, sp := 0xD000 } = _
  rw [hreturn]

/-- Between passes: the sum so far, the bytes left to add and where they begin.  B is not the
loop's, but it is saved and restored along with C. -/
structure Adding (r : Registers) (total : Byte) (left : Nat) (x : Word) (b : Byte) : Prop where
  total : r.a = total
  counter : r.c.toNat = left
  pointer : r.hl = x
  untouched : r.b = b

/-- Counts one byte as added and goes back to the call unless it was the last. -/
theorem leads_onward (h : memory.Holds onward) (hr : Adding r total (left + 1) x b) :
    ∃ r', Leads onward { r with pc := 0x000C } memory r' memory ∧
      r'.pc = (if left = 0 then 0x0011 else 0x0009) ∧ r'.sp = r.sp ∧
      Adding r' total left (x + 1) b := by
  obtain ⟨forward, countDown, again, -⟩ := by
    simpa only [onward, Memory.holds_cons] using h
  let pointed : Registers := { r.setPair .hl (r.hl + 1) with pc := 0x000D }
  let counted : Registers :=
    { pointed.commitStep (Alu.subtract r.c 1 false) with
      c := (Alu.subtract r.c 1 false).value
      pc := 0x000E }
  have hcount : (Alu.subtract r.c 1 false).value.toNat = left := by
    have balance : _ + 1 + 0 = r.c.toNat + _ := Alu.subtract_value_toNat r.c 1 false
    have hlt := (Alu.subtract r.c 1 false).value.isLt
    rw [hr.counter] at balance
    omega
  have hgoesOn : counted.holds .nz = !decide (left = 0) := by
    have hzero : (Alu.subtract r.c 1 false).value = 0 ↔ left = 0 := by
      rw [← hcount, BitVec.toNat_eq]
      rfl
    rw [← decide_eq_decide.2 hzero]
    rfl
  have jump : Leads _ counted memory _ memory := .jumpIf again rfl
  rw [hgoesOn] at jump
  refine ⟨_, .cons forward pointed memory (fun _ => ⟨rfl, rfl⟩)
    (.cons countDown counted memory (fun _ => ⟨rfl, rfl⟩) jump), ?_, rfl,
    hr.total, hcount, ?_, hr.untouched⟩
  · show (if (!decide (left = 0)) = true then (0x0009 : Word) else 0x0011) = _
    simp
  · show Word.ofBytes (Word.high (r.hl + 1)) (Word.low (r.hl + 1)) = x + 1
    rw [Word.ofBytes_high_low, hr.pointer]

/-- One call of the subroutine, and what comes after it. -/
def pass : List Fetched := call :: (subroutine ++ onward)

theorem leads_pass (h : memory.Holds code) (hpc : r.pc = 0x0009) (hsp : r.sp = 0xD000)
    (hr : Adding r total (left + 1) x b) (hx : x ∉ stack) :
    ∃ r', Leads pass r memory r' (stacked memory r.bc) ∧
      r'.pc = (if left = 0 then 0x0011 else 0x0009) ∧ r'.sp = 0xD000 ∧
      Adding r' (total + memory.read x) left (x + 1) b := by
  let called : Memory := memory.writeWord 0xCFFE 0x000C
  have hcalled : called.Holds code := h.writeWord _ (by decide) (by decide)
  obtain ⟨-, hcall, -⟩ := holds_code.1 h
  obtain ⟨-, -, -, -, -, hsubroutine⟩ := holds_code.1 hcalled
  obtain ⟨-, -, honward, -⟩ := holds_code.1 (holds_stacked h r.bc)
  -- the call saves the address behind it
  have leadsCall : Leads [call] r memory { r with pc := 0x0015, sp := 0xCFFE } called := by
    refine .cons (by rw [hpc]; exact hcall) _ _ (fun _ => ⟨?_, ?_⟩) (.refl _ _)
    · show { r with pc := 0x0015, sp := r.sp - 2 } = _
      rw [hsp]
      rfl
    · show memory.writeWord (r.sp - 2) 0x000C = _
      rw [hsp]
      rfl
  have hread : called.read r.hl = memory.read x := by
    rw [hr.pointer]
    exact Memory.read_writeWord_of_ne _ _ (ne_of_mem_stack (by decide) hx)
      (ne_of_mem_stack (by decide) hx)
  have leadsSubroutine := leads_subroutine (r := r) hsubroutine (hr.pointer ▸ hx)
  rw [Memory.readWord_writeWord, hread] at leadsSubroutine
  let added : Registers := { r.add (memory.read x) false with pc := 0x000C, sp := 0xD000 }
  have hadded : Adding added (total + memory.read x) (left + 1) x b := by
    refine ⟨?_, hr.counter, hr.pointer, hr.untouched⟩
    rw [← hr.total]
    exact BitFields.sum_value_of_two r.a (memory.read x)
  obtain ⟨r', leadsOnward, hpc', hsp', hr'⟩ := leads_onward honward hadded
  exact ⟨r', leadsCall.append (leadsSubroutine.append leadsOnward), hpc', hsp', hr'⟩

/-- The loop adds every byte that is left.  The induction is on how many are left after the first
pass; the passes find the bytes as they were, since they are none of the stack's. -/
theorem leads_passes (h : memory.Holds code) (hpc : r.pc = 0x0009) (hsp : r.sp = 0xD000)
    (hr : Adding r total (left + 1) x b) (hx : ∀ i ≤ left, Memory.cell x i ∉ stack) :
    ∃ r' memory', Leads (List.replicate (left + 1) pass).flatten r memory r' memory' ∧
      r'.pc = 0x0011 ∧ r'.sp = 0xD000 ∧
      Adding r' (total + (memory.bytes x (left + 1)).sum) 0 (Memory.cell x (left + 1)) b ∧
      memory'.Holds code ∧ ∀ y, y ∉ stack → memory'.read y = memory.read y := by
  induction left generalizing r memory total x with
  | zero =>
    have hfirst : x ∉ stack := by simpa using hx 0 (Nat.le_refl 0)
    obtain ⟨r', hpass, hpc', hsp', hr'⟩ := leads_pass h hpc hsp hr hfirst
    refine ⟨r', _, by simpa using hpass, hpc', hsp', ?_, holds_stacked h r.bc,
      fun y hy => read_stacked hy r.bc⟩
    rw [Memory.bytes, Memory.bytes, List.sum_singleton]
    exact hr'
  | succ left ih =>
    have hfirst : x ∉ stack := by simpa using hx 0 (Nat.zero_le (left + 1))
    have hothers : ∀ i ≤ left, Memory.cell (x + 1) i ∉ stack := by
      intro i hi
      rw [Memory.cell_succ]
      exact hx (i + 1) (Nat.succ_le_succ hi)
    obtain ⟨r₁, hpass, hpc₁, hsp₁, hr₁⟩ := leads_pass h hpc hsp hr hfirst
    obtain ⟨r', memory', hrest, hpc', hsp', hr', hcode, hkept⟩ :=
      ih (holds_stacked h r.bc) hpc₁ hsp₁ hr₁ hothers
    have hbytes :
        (stacked memory r.bc).bytes (x + 1) (left + 1) = memory.bytes (x + 1) (left + 1) :=
      Memory.bytes_congr fun i hi => read_stacked (hothers i (Nat.le_of_lt_succ hi)) r.bc
    refine ⟨r', memory', ?_, hpc', hsp', ?_, hcode, fun y hy => ?_⟩
    · rw [List.replicate_succ, List.flatten_cons]
      exact hpass.append hrest
    · rw [Memory.bytes, List.sum_cons, ← BitVec.add_assoc, ← hbytes, ← Memory.cell_succ]
      exact hr'
    · rw [hkept y hy, read_stacked hy]

theorem leads_setup (h : memory.Holds setup) (r : Registers) :
    ∃ r', Leads setup { r with pc := 0x0000 } memory r' memory ∧ r'.pc = 0x0009 ∧
      r'.sp = 0xD000 ∧ Adding r' 0 4 0xC050 r.b := by
  obtain ⟨top, pointer, counter, clear, -⟩ := by
    simpa only [setup, Memory.holds_cons] using h
  let counting : Registers := { r with c := 4, h := 0xC0, l := 0x50, sp := 0xD000, pc := 0x0008 }
  have begins : counting.hl = 0xC050 := show Word.ofBytes 0xC0 0x50 = 0xC050 by decide
  refine ⟨{ counting.xor r.a with pc := 0x0009 }, ?_, rfl, rfl, BitVec.xor_self, rfl, begins, rfl⟩
  refine .cons top { r with sp := 0xD000, pc := 0x0003 } memory (fun _ => ⟨rfl, rfl⟩) ?_
  refine .cons pointer { r with h := 0xC0, l := 0x50, sp := 0xD000, pc := 0x0006 } memory
    (fun _ => ⟨rfl, rfl⟩) ?_
  refine .cons counter counting memory (fun _ => ⟨rfl, rfl⟩) ?_
  exact .cons clear _ memory (fun _ => ⟨rfl, rfl⟩) (.refl _ _)

/-- What the program executes before it halts. -/
def trace : List Fetched := setup ++ ((List.replicate 4 pass).flatten ++ [store])

theorem haltFree_trace : HaltFree trace := by
  have each : ∀ f ∈ trace, f.operation ≠ .hlt := by decide
  exact each

/-- The cells that the run changes: that of the sum and those of the stack. -/
def changed : List Word := 0xC054 :: stack

/-- The program adds the four bytes and stores the sum behind them. -/
theorem leads_trace (h : memory.Holds code) (r : Registers) :
    ∃ r' memory', Leads trace { r with pc := origin } memory r' memory' ∧
      memory'.fetch r'.pc = .ok halt ∧ r'.sp = 0xD000 ∧
      Adding r' (memory.bytes 0xC050 4).sum 0 0xC054 r.b ∧
      memory'.read 0xC054 = (memory.bytes 0xC050 4).sum ∧
      ∀ x, x ∉ changed → memory'.read x = memory.read x := by
  obtain ⟨hsetup, -⟩ := holds_code.1 h
  obtain ⟨r₁, leadsSetup, hpc₁, hsp₁, hr₁⟩ := leads_setup hsetup r
  obtain ⟨r₂, memory₂, leadsPasses, hpc₂, hsp₂, hr₂, hcode₂, hkept⟩ :=
    leads_passes h hpc₁ hsp₁ hr₁ (by decide)
  rw [show (0 : Byte) + _ = _ from BitVec.zero_add _] at hr₂
  obtain ⟨-, -, -, hstore, -⟩ := holds_code.1 hcode₂
  obtain ⟨-, -, -, -, hhalt, -⟩ := holds_code.1 (hcode₂.write r₂.a (x := 0xC054) (by decide))
  have leadsStore : Leads [store] r₂ memory₂ { r₂ with pc := 0x0014 }
      (memory₂.write 0xC054 r₂.a) :=
    .cons (by rw [hpc₂]; exact hstore) _ _ (fun _ => ⟨rfl, rfl⟩) (.refl _ _)
  refine ⟨_, _, leadsSetup.append (leadsPasses.append leadsStore), hhalt, hsp₂,
    ⟨hr₂.total, hr₂.counter, hr₂.pointer, hr₂.untouched⟩, ?_, ?_⟩
  · rw [Memory.read_write_self, hr₂.total]
  · intro x hx
    obtain ⟨hsum, hstack⟩ := List.ne_and_not_mem_of_not_mem_cons hx
    rw [Memory.read_write_of_ne _ _ (Ne.symm hsum), hkept x hstack]

theorem runFrom_of_holds {m : Machine} (hclear : m.halted = false) (h : m.memory.Holds code) :
    ∃ last, runFrom origin none m = (.ok 42, last) ∧
      last.memory.read 0xC054 = (m.memory.bytes 0xC050 4).sum ∧
      last.registers.sp = 0xD000 ∧ last.registers.b = m.registers.b ∧
      last.registers.hl = 0xC054 ∧ last.registers.c = 0 ∧
      ∀ x, x ∉ changed → last.memory.read x = m.memory.read x := by
  obtain ⟨r', memory', leads, hhalt, hsp, hr, hsum, hkept⟩ := leads_trace h m.registers
  have short : trace.length < bound none := by decide
  obtain ⟨last, hrun, hregisters, hmemory⟩ :=
    runFrom_of_leads hclear leads haltFree_trace hhalt rfl short
  refine ⟨last, hrun, ?_⟩
  rw [hregisters, hmemory]
  exact ⟨hsum, hsp, hr.untouched, hr.pointer, BitVec.eq_of_toNat_eq hr.counter, hkept⟩

theorem toNat_sum_bytes (memory : Memory) :
    (memory.bytes 0xC050 4).sum.toNat = ((memory.read 0xC050).toNat + (memory.read 0xC051).toNat +
      (memory.read 0xC052).toNat + (memory.read 0xC053).toNat) % 256 := by
  show (memory.read 0xC050 + (memory.read 0xC051 + (memory.read 0xC052 +
    (memory.read 0xC053 + 0#8)))).toNat = _
  simp only [BitVec.toNat_add, BitVec.add_zero]
  omega

end Summation

open Summation Assembler Machine

/-- For every four bytes the program halts after 42 instructions, whatever the registers and the
rest of memory hold, and stores their sum behind them.  The stack pointer is back at the top, B is
what it was, HL is behind the bytes and nothing is left to count; no cell changes but that of the
sum and the four that the stack took up. -/
theorem runFrom_sum (m : Machine) :
    let loaded := m.loaded sum.source origin
    let total := (m.memory.read 0xC050).toNat + (m.memory.read 0xC051).toNat +
      (m.memory.read 0xC052).toNat + (m.memory.read 0xC053).toNat
    (load sum.source origin m.memory).1 = .ok 0x001B ∧
    ∃ last, runFrom origin none loaded = (.ok 42, last) ∧
      (last.memory.read 0xC054).toNat = total % 256 ∧
      last.registers.sp = 0xD000 ∧ last.registers.b = m.registers.b ∧
      last.registers.hl = 0xC054 ∧ last.registers.c = 0 ∧
      ∀ x, x ∉ [0xC054, 0xCFFC, 0xCFFD, 0xCFFE, 0xCFFF] →
        last.memory.read x = loaded.memory.read x := by
  intro loaded total
  have above : ∀ i < 4, origin.toNat + size (code.map Fetched.toInstruction) ≤
      (Memory.cell 0xC050 i).toNat := by decide
  have keeps : loaded.memory.bytes 0xC050 4 = m.memory.bytes 0xC050 4 :=
    Memory.bytes_congr fun i hi => Summation.source.read_loaded_above m (above i hi)
  obtain ⟨last, hrun, hsum, hsp, hb, hrest⟩ :=
    runFrom_of_holds (m := loaded) rfl (Summation.source.holds m)
  rw [registers_loaded] at hb
  refine ⟨Summation.source.load_eq m.memory, last, hrun, ?_, hsp, hb, hrest⟩
  rw [hsum, keeps]
  exact toNat_sum_bytes m.memory

end Sample
end I8085
