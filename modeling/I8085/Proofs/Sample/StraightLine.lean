import I8085.Proofs.Machine.Line
import I8085.Proofs.Opcode.FieldStep
import I8085.Proofs.Sample.Vocabulary
import I8085.Sample
import Mathlib.Tactic.IntervalCases

/-!
# The samples without jumps

Eleven samples go straight from their first line to the halt.  What such a sample stores is read
off its line of instructions, in any memory that has the data and not only in the one that was
loaded.  Those that take one number to another load it, work on it in a register, and store it;
the work is put together from single instructions.
-/

namespace I8085
namespace Sample

open Assembler Machine

/-- The sample is loaded, runs to its halt and puts the bytes at an address; the run changes no
other cell. -/
def Puts (sample : Sample) (m : Machine) (x : Word) (bytes : List Byte) : Prop :=
  let loaded := m.loaded sample.source origin
  (∃ stop, (load sample.source origin m.memory).1 = .ok stop) ∧
    ∃ last, runFrom origin none loaded = (.ok sample.source.length, last) ∧
      last.memory.bytes x bytes.length = bytes ∧
      ∀ y, (∀ i < bytes.length, Memory.cell x i ≠ y) → last.memory.read y = loaded.memory.read y

namespace StraightLine

open Vocabulary

/-! ## What a line of them does -/

variable {program rest : List Instruction} {m : Machine} {x y : Word} {bytes : List Byte}

/-- The code lies below the data. -/
def Below (code : List Fetched) : Prop := ∀ x ∈ Memory.codeCells code, x.toNat < 0xC050

theorem holds_load {memory : Memory} {code : List Fetched} (h : memory.Holds code)
    (hcode : Below code) (hx : ∀ i < bytes.length, 0xC050 ≤ (Memory.cell x i).toNat) :
    (memory.load x bytes).Holds code := by
  refine h.of_read_eq fun z hz => Memory.read_load_of_ne fun i hi e => ?_
  exact absurd (hcode z hz) (Nat.not_lt.2 (e ▸ hx i hi))

theorem holds_write {memory : Memory} {code : List Fetched} (h : memory.Holds code)
    (hcode : Below code) (hx : 0xC050 ≤ x.toNat) (v : Byte) : (memory.write x v).Holds code :=
  h.write v fun hmem => absurd (hcode x hmem) (Nat.not_lt.2 hx)

/-- Started with the data of `m` in a memory whose code lies below it, the instructions store the
bytes at an address and nothing else, and never reach the code. -/
def Stores (program : List Instruction) (m : Machine) (x : Word) (bytes : List Byte) : Prop :=
  ∀ (start : Machine) (code : List Fetched), start.memory.Holds code → Below code →
    (∀ y : Word, 0xC050 ≤ y.toNat → start.memory.read y = m.memory.read y) →
    KeepsCode code start (located origin program) ∧
      (start.line (located origin program)).memory = start.memory.load x bytes

theorem puts_of_stores {sample : Sample} (h : StraightSource sample.source program hlt)
    (hsize : size (program ++ [hlt]) ≤ 0xC050) (hbytes : bytes.length ≤ 65536)
    (hstores : Stores program m x bytes) : sample.Puts m x bytes := by
  have hbelow : Below (located origin (program ++ [hlt])) := by
    intro z hz
    obtain ⟨i, hi, rfl⟩ := exists_cell_of_mem_codeCells hz
    rw [Memory.cell, show origin + BitVec.ofNat 16 i = _ from BitVec.zero_add _, BitVec.toNat_ofNat]
    exact (Nat.mod_le i _).trans_lt (hi.trans_le hsize)
  obtain ⟨hkeeps, hmemory⟩ := hstores ((m.loaded sample.source origin).jump origin) _
    ((h.source origin).holds m) hbelow
    (fun z hz => h.read_loaded_above m (by simpa [origin] using hsize.trans hz))
  obtain ⟨last, hrun, hlast⟩ := h.runFrom_eq m origin hkeeps
  refine ⟨⟨_, (h.source origin).load_eq m.memory⟩, last, hrun, ?_, fun z hz => ?_⟩
  · rw [hlast, hmemory]
    exact Memory.bytes_load _ x hbytes
  · rw [hlast, hmemory]
    exact Memory.read_load_of_ne hz

/-! ## The samples that take one number to another -/

section Works

variable {α : Type} {view : Registers → α} {g g' : α → α} {first last : Instruction} {loaded : α}

/-- The instructions work on what they see of the registers and leave memory as it is. -/
def Works (view : Registers → α) (program : List Instruction) (g : α → α) : Prop :=
  ∀ (m : Machine) (a : Word) (code : List Fetched), m.memory.Holds code →
    KeepsCode code m (located a program) ∧ (m.line (located a program)).memory = m.memory ∧
      view (m.line (located a program)).registers = g (view m.registers)

theorem Works.append (h : Works view program g) (h' : Works view rest g') :
    Works view (program ++ rest) (g' ∘ g) := by
  intro m a code hholds
  obtain ⟨hkeeps, hmemory, hview⟩ := h m a code hholds
  obtain ⟨hkeeps', hmemory', hview'⟩ := h' (m.line (located a program))
    (Memory.cell a (size program)) code (hmemory ▸ hholds)
  rw [located_append, keepsCode_append, line_append]
  exact ⟨⟨hkeeps, hkeeps'⟩, hmemory'.trans hmemory, hview'.trans (congrArg g' hview)⟩

theorem Works.of_eq (h : Works view program g) (hg : ∀ v, g v = g' v) : Works view program g' :=
  funext hg ▸ h

theorem works_of_execute {i : Instruction}
    (hmemory : ∀ (m : Machine) (a : Word), (m.execute { i with address := a }).memory = m.memory)
    (hview : ∀ (m : Machine) (a : Word),
      view (m.execute { i with address := a }).registers = g (view m.registers)) :
    Works view [i] g := by
  intro m a code hholds
  refine ⟨⟨?_, trivial⟩, hmemory m a, hview m a⟩
  rw [hmemory m a]
  exact hholds

theorem works_cma : Works Registers.a [cma] (255 - ·) :=
  works_of_execute (fun _ _ => rfl) fun m _ => (BitVec.allOnes_sub_eq_not m.registers.a).symm

theorem works_inrA : Works Registers.a [inrA] (· + 1) :=
  works_of_execute (fun _ _ => rfl) fun m _ => BitFields.sum_value_of_two m.registers.a 1

theorem works_addA : Works Registers.a [addA] (2 * ·) := by
  refine works_of_execute (fun _ _ => rfl) fun m _ => ?_
  refine (BitFields.sum_value_of_two m.registers.a m.registers.a).trans ?_
  exact (BitVec.two_mul).symm

theorem works_ani (b : Byte) : Works Registers.a [ani b] (· &&& b) := by
  refine works_of_execute (fun _ _ => rfl) fun m _ => ?_
  show m.registers.a &&& Word.low (Word.ofByte b) = _
  rw [Word.ofByte, Word.low_ofBytes]

theorem works_dadHL : Works Registers.hl [dadHL] (2 * ·) := by
  refine works_of_execute (fun _ _ => rfl) fun m _ => ?_
  show Word.ofBytes (Word.high (m.registers.hl + m.registers.hl))
    (Word.low (m.registers.hl + m.registers.hl)) = _
  rw [Word.ofBytes_high_low]
  exact (BitVec.two_mul).symm

theorem works_negate : Works Registers.a [cma, inrA] (- ·) :=
  (works_cma.append works_inrA).of_eq fun u => by
    show 255 - u + 1 = -u
    rw [show 255 - u = ~~~u from BitVec.allOnes_sub_eq_not u]
    exact (BitVec.neg_eq_not_add u).symm

theorem and_lowDigit (u : Byte) : u &&& 0x0F = u % 16 := by
  apply BitVec.eq_of_toNat_eq
  rw [BitVec.toNat_and, BitVec.toNat_umod]
  exact Nat.and_two_pow_sub_one_eq_mod u.toNat 4

theorem works_clearHigh : Works Registers.a [ani 0x0F] fun u => u % 16 :=
  (works_ani 0x0F).of_eq and_lowDigit

theorem works_clearLow : Works Registers.a [ani 0xF0] fun u => u - u % 16 :=
  (works_ani 0xF0).of_eq fun u => by
    have apart : u &&& 0xF0 &&& (u &&& 0x0F) = 0 :=
      calc u &&& 0xF0 &&& (u &&& 0x0F) = u &&& u &&& (0xF0 &&& 0x0F) := by ac_rfl
        _ = 0 := BitVec.and_zero
    rw [← and_lowDigit, BitVec.eq_sub_iff_add_eq, BitVec.add_eq_or_of_and_eq_zero _ _ apart,
      ← BitVec.and_or_distrib_left]
    exact BitVec.and_allOnes

theorem works_quadruple : Works Registers.hl [dadHL, dadHL] (4 * ·) :=
  (works_dadHL.append works_dadHL).of_eq fun w => (BitVec.mul_assoc 2 2 w).symm

/-- One instruction loads what the others work on, and one stores what they make of it. -/
theorem stores_of_works (bytes : α → List Byte) (h : Works view program g)
    (hfirst : ∀ (start : Machine) (a : Word),
      (∀ z : Word, 0xC050 ≤ z.toNat → start.memory.read z = m.memory.read z) →
      (start.execute { first with address := a }).memory = start.memory ∧
        view (start.execute { first with address := a }).registers = loaded)
    (hlast : ∀ (mid : Machine) (a : Word), (mid.execute { last with address := a }).memory =
      mid.memory.load y (bytes (view mid.registers)))
    (hbytes : ∀ i < (bytes (g loaded)).length, 0xC050 ≤ (Memory.cell y i).toNat) :
    Stores (first :: (program ++ [last])) m y (bytes (g loaded)) := by
  intro start code hholds hcode hsame
  obtain ⟨hmemory, hloaded⟩ := hfirst start origin hsame
  obtain ⟨hkeeps, hmemory', hview⟩ := h (start.execute { first with address := origin })
    (Memory.cell origin first.length) code (hmemory ▸ hholds)
  -- where the last instruction stands makes no difference to what it stores
  have hstored : ∀ a : Word, (((start.execute { first with address := origin }).line
      (located (Memory.cell origin first.length) program)).execute
        { last with address := a }).memory = start.memory.load y (bytes (g loaded)) := by
    intro a
    rw [hlast, hview, hloaded, hmemory', hmemory]
  rw [located, located_append, KeepsCode, keepsCode_append, line_cons, line_append]
  refine ⟨⟨hmemory ▸ hholds, hkeeps, ?_, trivial⟩, hstored _⟩
  rw [hstored]
  exact holds_load hholds hcode hbytes

theorem stores_unary {g : Byte → Byte} (h : Works Registers.a program g) (m : Machine) :
    Stores (lda 0xC050 :: (program ++ [sta 0xC051])) m 0xC051 [g (m.memory.read 0xC050)] :=
  stores_of_works (fun b => [b]) h
    (fun start _ hsame => ⟨rfl, hsame 0xC050 (by decide)⟩) (fun _ _ => rfl)
    (show ∀ i < 1, 0xC050 ≤ (Memory.cell 0xC051 i).toNat by decide)

theorem stores_word {g : Word → Word} (h : Works Registers.hl program g) (m : Machine) :
    Stores (lhld 0xC050 :: (program ++ [shld 0xC052])) m 0xC052
      [Word.low (g (m.memory.readWord 0xC050)), Word.high (g (m.memory.readWord 0xC050))] := by
  refine stores_of_works (fun w => [Word.low w, Word.high w]) h
    (fun start a hsame => ⟨rfl, ?_⟩) (fun _ _ => rfl)
    (show ∀ i < 2, 0xC050 ≤ (Memory.cell 0xC052 i).toNat by decide)
  show Word.ofBytes (Word.high (start.memory.readWord 0xC050))
    (Word.low (start.memory.readWord 0xC050)) = _
  rw [Word.ofBytes_high_low, Memory.readWord, Memory.readWord, hsame _ (by decide),
    hsame _ (by decide)]

end Works

/-! ## The samples with two operands or with a table

Their lines are carried out one by one, with the registers that each of them leaves. -/

section Lines

variable {code : List Fetched} {memory memory' : Memory} {r r' : Registers}

/-- The two bytes that stand first in the data, where HL points at them. -/
theorem read_data (hsame : ∀ y : Word, 0xC050 ≤ y.toNat → memory.read y = m.memory.read y) :
    memory.read (Word.ofBytes 0xC0 0x50) = m.memory.read 0xC050 ∧
      memory.read (Word.ofBytes 0xC0 0x51) = m.memory.read 0xC051 := by
  have first : Word.ofBytes 0xC0 0x50 = 0xC050 := by decide
  have second : Word.ofBytes 0xC0 0x51 = 0xC051 := by decide
  rw [first, second]
  exact ⟨hsame _ (by decide), hsame _ (by decide)⟩

/-- HL points at the cell behind. -/
theorem leads_inxHL {a pc : Word} (low low' : Byte)
    (hnext : Word.ofBytes 0xC0 low + 1 = Word.ofBytes 0xC0 low') (hholds : memory.Holds code)
    (h : LeadsAlong code (Memory.cell a 1) rest
      { r with h := 0xC0, l := low', pc := Memory.cell a 1 } memory r' memory') :
    LeadsAlong code a (inxHL :: rest) { r with h := 0xC0, l := low, pc := pc } memory
      r' memory' := by
  refine .cons _ memory (fun _ => ⟨?_, rfl⟩) hholds h
  show { r.setPair .hl (Word.ofBytes 0xC0 low + 1) with pc := Memory.cell a 1 } = _
  rw [hnext, Registers.setPair, Word.high_ofBytes, Word.low_ofBytes]

theorem stores_add (m : Machine) :
    Stores [lxiHL 0xC050, movAM, inxHL, addM, sta 0xC052] m 0xC052
      [m.memory.read 0xC050 + m.memory.read 0xC051] := by
  intro start code hholds hcode hsame
  obtain ⟨hu, hv⟩ := read_data hsame
  let r := start.registers
  let u := start.memory.read (Word.ofBytes 0xC0 0x50)
  let v := start.memory.read (Word.ofBytes 0xC0 0x51)
  let added : Registers := { ({ r with a := u, h := 0xC0, l := 0x51 } : Registers).add v false with
    pc := 0x0006 }
  have hsum : added.a = m.memory.read 0xC050 + m.memory.read 0xC051 := by
    rw [← hu, ← hv]
    exact BitFields.sum_value_of_two u v
  rw [← hsum]
  refine LeadsAlong.keepsCode_and_memory { added with pc := 0x0009 } ?_
  refine .cons { r with h := 0xC0, l := 0x50, pc := 0x0003 } _ (fun _ => ⟨rfl, rfl⟩) hholds ?_
  refine .cons { r with a := u, h := 0xC0, l := 0x50, pc := 0x0004 } _ (fun _ => ⟨rfl, rfl⟩)
    hholds ?_
  refine leads_inxHL (r := { r with a := u }) 0x50 0x51 (by decide) hholds ?_
  refine .cons added _ (fun _ => ⟨rfl, rfl⟩) hholds ?_
  exact .cons _ _ (fun _ => ⟨rfl, rfl⟩) (holds_write hholds hcode (by decide) _) (.refl _ _ _ _)

theorem stores_subtract (m : Machine) :
    Stores [lxiHL 0xC050, movAM, inxHL, subM, inxHL, movMA] m 0xC052
      [m.memory.read 0xC050 - m.memory.read 0xC051] := by
  intro start code hholds hcode hsame
  obtain ⟨hu, hv⟩ := read_data hsame
  let r := start.registers
  let u := start.memory.read (Word.ofBytes 0xC0 0x50)
  let v := start.memory.read (Word.ofBytes 0xC0 0x51)
  let difference : Registers :=
    ({ r with a := u, h := 0xC0, l := 0x51 } : Registers).subtract v false
  have hdifference : difference.a = m.memory.read 0xC050 - m.memory.read 0xC051 := by
    rw [← hu, ← hv]
    exact BitFields.difference_value_of_two u v
  have hresult : Word.ofBytes 0xC0 0x52 = 0xC052 := by decide
  rw [← hdifference, ← hresult]
  refine LeadsAlong.keepsCode_and_memory { difference with l := 0x52, pc := 0x0008 } ?_
  refine .cons { r with h := 0xC0, l := 0x50, pc := 0x0003 } _ (fun _ => ⟨rfl, rfl⟩) hholds ?_
  refine .cons { r with a := u, h := 0xC0, l := 0x50, pc := 0x0004 } _ (fun _ => ⟨rfl, rfl⟩)
    hholds ?_
  refine leads_inxHL (r := { r with a := u }) 0x50 0x51 (by decide) hholds ?_
  refine .cons { difference with pc := 0x0006 } _ (fun _ => ⟨rfl, rfl⟩) hholds ?_
  refine leads_inxHL (r := difference) 0x51 0x52 (by decide) hholds ?_
  exact .cons _ _ (fun _ => ⟨rfl, rfl⟩) (holds_write hholds hcode (by decide) _) (.refl _ _ _ _)

theorem ofBytes_eq_cell {u : Byte} (hu : u ≤ 9) :
    Word.ofBytes 0xC0 (u + 0x60) = Memory.cell 0xC060 u.toNat := by
  have hle : u.toNat ≤ 9 := hu
  apply BitVec.eq_of_toNat_eq
  rw [Word.toNat_ofBytes, Memory.cell, BitVec.toNat_add, BitVec.toNat_add, BitVec.toNat_ofNat]
  show 256 * 192 + (u.toNat + 96) % 256 = (49248 + u.toNat % 65536) % 65536
  omega

/-- The square is looked up: the number, counted on from the low byte of the table's address, is
the low byte of an address in the table. -/
theorem stores_square (hu : m.memory.read 0xC050 ≤ 9) :
    Stores [lda 0xC050, adi 0x60, movLA, mviH 0xC0, movAM, sta 0xC051] m 0xC051
     [m.memory.read (Memory.cell 0xC060 (m.memory.read 0xC050).toNat)] := by
  intro start code hholds hcode hsame
  have inTable : 0xC050 ≤ (Memory.cell 0xC060 (m.memory.read 0xC050).toNat).toNat := by
    have hle : (m.memory.read 0xC050).toNat ≤ 9 := hu
    rw [Memory.cell, BitVec.toNat_add, BitVec.toNat_ofNat]
    show 49232 ≤ (49248 + (m.memory.read 0xC050).toNat % 65536) % 65536
    omega
  let r := start.registers
  let u := start.memory.read 0xC050
  let low : Registers := ({ r with a := u } : Registers).add 0x60 false
  have hlow : low.a = m.memory.read 0xC050 + 0x60 := by
    rw [← hsame 0xC050 (by decide)]
    exact BitFields.sum_value_of_two u 0x60
  rw [← hsame _ inTable, ← ofBytes_eq_cell hu, ← hlow]
  let square := start.memory.read (Word.ofBytes 0xC0 low.a)
  refine LeadsAlong.keepsCode_and_memory
    { low with a := square, h := 0xC0, l := low.a, pc := 0x000C } ?_
  refine .cons { r with a := u, pc := 0x0003 } _ (fun _ => ⟨rfl, rfl⟩) hholds ?_
  refine .cons { low with pc := 0x0005 } _ (fun _ => ⟨rfl, rfl⟩) hholds ?_
  refine .cons { low with l := low.a, pc := 0x0006 } _ (fun _ => ⟨rfl, rfl⟩) hholds ?_
  refine .cons { low with h := 0xC0, l := low.a, pc := 0x0008 } _ (fun _ => ⟨rfl, rfl⟩) hholds ?_
  refine .cons { low with a := square, h := 0xC0, l := low.a, pc := 0x0009 } _
    (fun _ => ⟨rfl, rfl⟩) hholds ?_
  exact .cons _ _ (fun _ => ⟨rfl, rfl⟩) (holds_write hholds hcode (by decide) _) (.refl _ _ _ _)

/-- What is stored first is not the byte that is read next. -/
theorem stores_onesComplement16 (m : Machine) :
    Stores [lxiHL 0xC050, movAM, cma, sta 0xC052, inxHL, movAM, cma, sta 0xC053] m 0xC052
      [~~~m.memory.read 0xC050, ~~~m.memory.read 0xC051] := by
  intro start code hholds hcode hsame
  obtain ⟨hu, hv⟩ := read_data hsame
  let r := start.registers
  let u := start.memory.read (Word.ofBytes 0xC0 0x50)
  let v := start.memory.read (Word.ofBytes 0xC0 0x51)
  let half := start.memory.write 0xC052 (~~~u)
  have hhalf : half.Holds code := holds_write hholds hcode (by decide) _
  have hkept : half.read (Word.ofBytes 0xC0 0x51) = v :=
    Memory.read_write_of_ne _ _ (by decide)
  rw [← hu, ← hv]
  refine LeadsAlong.keepsCode_and_memory
    { r with a := ~~~v, h := 0xC0, l := 0x51, pc := 0x000E } ?_
  refine .cons { r with h := 0xC0, l := 0x50, pc := 0x0003 } _ (fun _ => ⟨rfl, rfl⟩) hholds ?_
  refine .cons { r with a := u, h := 0xC0, l := 0x50, pc := 0x0004 } _ (fun _ => ⟨rfl, rfl⟩)
    hholds ?_
  refine .cons { r with a := ~~~u, h := 0xC0, l := 0x50, pc := 0x0005 } _ (fun _ => ⟨rfl, rfl⟩)
    hholds ?_
  refine .cons { r with a := ~~~u, h := 0xC0, l := 0x50, pc := 0x0008 } half
    (fun _ => ⟨rfl, rfl⟩) hhalf ?_
  refine leads_inxHL (r := { r with a := ~~~u }) 0x50 0x51 (by decide) hhalf ?_
  refine .cons { r with a := v, h := 0xC0, l := 0x51, pc := 0x000A } _ (fun _ => ⟨?_, rfl⟩) hhalf ?_
  · show { r with a := half.read (Word.ofBytes 0xC0 0x51), h := 0xC0, l := 0x51, pc := _ } = _
    rw [hkept]
    rfl
  refine .cons { r with a := ~~~v, h := 0xC0, l := 0x51, pc := 0x000B } _ (fun _ => ⟨rfl, rfl⟩)
    hhalf ?_
  exact .cons _ _ (fun _ => ⟨rfl, rfl⟩) (holds_write hhalf hcode (by decide) _) (.refl _ _ _ _)

end Lines

theorem complement_bytes (high low : Byte) :
    [~~~low, ~~~high] = [Word.low (65535 - Word.ofBytes high low),
      Word.high (65535 - Word.ofBytes high low)] := by
  have hnot : 65535 - Word.ofBytes high low = Word.ofBytes (~~~high) (~~~low) :=
    (BitVec.allOnes_sub_eq_not _).trans BitVec.not_append
  rw [hnot, Word.low_ofBytes, Word.high_ofBytes]

end StraightLine

open StraightLine

/-- Whatever bytes the cells of the data hold, and whatever registers and memory hold besides,
each of the samples without jumps stores what its title says, as an equation between bytes or
between words, and changes no other cell.  A square is looked up, so that it is one as far as the
table goes, and if the table holds squares. -/
theorem puts_result (m : Machine) :
    let u := m.memory.read 0xC050
    let v := m.memory.read 0xC051
    let w := m.memory.readWord 0xC050
    onesComplement.Puts m 0xC051 [255 - u] ∧
    twosComplement.Puts m 0xC051 [-u] ∧
    add.Puts m 0xC052 [u + v] ∧
    subtract.Puts m 0xC052 [u - v] ∧
    shiftLeft.Puts m 0xC051 [2 * u] ∧
    maskLow.Puts m 0xC051 [u - u % 16] ∧
    maskHigh.Puts m 0xC051 [u % 16] ∧
    (u ≤ 9 → (∀ i < 10, m.memory.read (Memory.cell 0xC060 i) = BitVec.ofNat 8 (i * i)) →
      square.Puts m 0xC051 [u * u]) ∧
    shift16.Puts m 0xC052 [Word.low (2 * w), Word.high (2 * w)] ∧
    shift16By2.Puts m 0xC052 [Word.low (4 * w), Word.high (4 * w)] ∧
    onesComplement16.Puts m 0xC052 [Word.low (65535 - w), Word.high (65535 - w)] := by
  intro u v w
  refine ⟨puts_of_stores (by decide) (by decide) (by simp) (stores_unary works_cma m),
    puts_of_stores (by decide) (by decide) (by simp) (stores_unary works_negate m),
    puts_of_stores (by decide) (by decide) (by simp) (stores_add m),
    puts_of_stores (by decide) (by decide) (by simp) (stores_subtract m),
    puts_of_stores (by decide) (by decide) (by simp) (stores_unary works_addA m),
    puts_of_stores (by decide) (by decide) (by simp) (stores_unary works_clearLow m),
    puts_of_stores (by decide) (by decide) (by simp) (stores_unary works_clearHigh m),
    fun hu htable => ?_,
    puts_of_stores (by decide) (by decide) (by simp) (stores_word works_dadHL m),
    puts_of_stores (by decide) (by decide) (by simp) (stores_word works_quadruple m), ?_⟩
  · have hle : u.toNat ≤ 9 := hu
    have hsquare : m.memory.read (Memory.cell 0xC060 u.toNat) = u * u := by
      rw [htable u.toNat (Nat.lt_succ_of_le hle), BitVec.ofNat_mul, BitVec.ofNat_toNat,
        BitVec.setWidth_eq]
    rw [← hsquare]
    exact puts_of_stores (by decide) (by decide) (by simp) (stores_square hu)
  · rw [show w = Word.ofBytes v u from rfl, ← complement_bytes]
    exact puts_of_stores (by decide) (by decide) (by simp) (stores_onesComplement16 m)

/-- The greatest square in the table. -/
theorem puts_result_square_of_nine :
    let m : Machine :=
      { memory := (Memory.zero.load 0xC060 [0, 1, 4, 9, 16, 25, 36, 49, 64, 81]).write 0xC050 9
        registers := {} }
    m.memory.read 0xC050 ≤ 9 ∧
      (∀ i < 10, m.memory.read (Memory.cell 0xC060 i) = BitVec.ofNat 8 (i * i)) ∧
      square.Puts m 0xC051 [81] := by
  intro m
  have hnine : m.memory.read 0xC050 = 9 := Memory.read_write_self _ _ _
  have htable : ∀ i < 10, m.memory.read (Memory.cell 0xC060 i) = BitVec.ofNat 8 (i * i) := by
    intro i hi
    interval_cases i <;> simp [m, Memory.load, Memory.cell, Memory.read_write]
  have hle : m.memory.read 0xC050 ≤ 9 := le_of_eq_of_le hnine (BitVec.le_refl 9)
  obtain ⟨-, -, -, -, -, -, -, hsquare, -⟩ := puts_result m
  have hputs := hsquare hle htable
  rw [hnine] at hputs
  exact ⟨hle, htable, hputs⟩

end Sample
end I8085
