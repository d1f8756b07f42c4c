import I8085.Operation
import I8085.Word

/-!
# The opcode chart

The chart gives the operation of every opcode, in four quarters of eight rows by
eight columns.  The second quarter moves any register to any register, with the
halt in the place of the move from memory to itself; the third applies any
accumulator operation to any register.  The other two are written out.  Ten
places are undocumented and stay empty.

An `Entry` is a place that is not empty.  It carries the proof that the chart
shows it, so that a statement about all entries is one about all documented
opcodes.
-/

namespace I8085
namespace Opcode

open Operation

/-- The places `00` to `3F`: loads, counts, rotations and direct addressing. -/
def firstQuarter : List (Option Operation) :=
  [some nop, some (lxi .bc), some (stax .bc), some (inx .bc),
   some (inr .b), some (dcr .b), some (mvi .b), some rlc,
   none, some (dad .bc), some (ldax .bc), some (dcx .bc),
   some (inr .c), some (dcr .c), some (mvi .c), some rrc,
   none, some (lxi .de), some (stax .de), some (inx .de),
   some (inr .d), some (dcr .d), some (mvi .d), some ral,
   none, some (dad .de), some (ldax .de), some (dcx .de),
   some (inr .e), some (dcr .e), some (mvi .e), some rar,
   some rim, some (lxi .hl), some shld, some (inx .hl),
   some (inr .h), some (dcr .h), some (mvi .h), some daa,
   none, some (dad .hl), some lhld, some (dcx .hl),
   some (inr .l), some (dcr .l), some (mvi .l), some cma,
   some sim, some (lxi .sp), some sta, some (inx .sp),
   some (inr .m), some (dcr .m), some (mvi .m), some stc,
   none, some (dad .sp), some lda, some (dcx .sp),
   some (inr .a), some (dcr .a), some (mvi .a), some cmc]

/-- A move between registers; the one from memory to itself is the halt. -/
def move (target source : Reg) : Operation :=
  if target = .m ∧ source = .m then hlt else mov target source

/-- The places `40` to `7F`: moves. -/
def secondQuarter : List (Option Operation) :=
  Reg.all.flatMap fun target => Reg.all.map fun source => some (move target source)

/-- The places `80` to `BF`: the accumulator and a register. -/
def thirdQuarter : List (Option Operation) :=
  Arithmetic.all.flatMap fun op => Reg.all.map fun source => some (arithmetic op source)

/-- The places `C0` to `FF`: transfers of control, the stack, ports and immediate
operands. -/
def fourthQuarter : List (Option Operation) :=
  [some (returnIf .nz), some (pop .bc), some (jumpIf .nz), some jmp,
   some (callIf .nz), some (push .bc), some (immediate .add), some (rst 0),
   some (returnIf .z), some ret, some (jumpIf .z), none,
   some (callIf .z), some call, some (immediate .adc), some (rst 1),
   some (returnIf .nc), some (pop .de), some (jumpIf .nc), some output,
   some (callIf .nc), some (push .de), some (immediate .sub), some (rst 2),
   some (returnIf .c), none, some (jumpIf .c), some input,
   some (callIf .c), none, some (immediate .sbb), some (rst 3),
   some (returnIf .po), some (pop .hl), some (jumpIf .po), some xthl,
   some (callIf .po), some (push .hl), some (immediate .ana), some (rst 4),
   some (returnIf .pe), some pchl, some (jumpIf .pe), some xchg,
   some (callIf .pe), none, some (immediate .xra), some (rst 5),
   some (returnIf .p), some (pop .psw), some (jumpIf .p), some di,
   some (callIf .p), some (push .psw), some (immediate .ora), some (rst 6),
   some (returnIf .m), some sphl, some (jumpIf .m), some ei,
   some (callIf .m), none, some (immediate .cmp), some (rst 7)]

def places : List (Option Operation) :=
  firstQuarter ++ secondQuarter ++ thirdQuarter ++ fourthQuarter

theorem places_length : places.length = 256 := by decide +kernel

def table : Vector (Option Operation) 256 := ⟨places.toArray, places_length⟩

/-- The operation an opcode stands for, none where it is undocumented. -/
def chart (opcode : Byte) : Option Operation := getElem table opcode.toNat opcode.isLt

theorem getElem?_places (opcode : Byte) : places[opcode.toNat]? = some (chart opcode) := by
  have inside : opcode.toNat < places.length := by
    rw [places_length]
    exact opcode.isLt
  rw [List.getElem?_eq_getElem inside, chart, table, Vector.getElem_mk, List.getElem_toArray]

theorem chart_mem_places (opcode : Byte) : chart opcode ∈ places :=
  List.mem_of_getElem? (getElem?_places opcode)

end Opcode

/-- A documented opcode with its operation. -/
structure Entry where
  opcode : Byte
  operation : Operation
  charted : Opcode.chart opcode = some operation
deriving DecidableEq

namespace Entry

def ofOpcode? (opcode : Byte) : Option Entry :=
  match h : Opcode.chart opcode with
  | none => none
  | some operation => some ⟨opcode, operation, h⟩

def all : List Entry := (List.range 256).filterMap fun n => ofOpcode? (BitVec.ofNat 8 n)

def mnemonic (e : Entry) : String := e.operation.mnemonic

def slots (e : Entry) : List Slot := e.operation.slots

def length (e : Entry) : Nat := e.operation.length

def shape (e : Entry) : Shape := e.operation.shape

theorem eq_of_opcode_eq {e f : Entry} (h : e.opcode = f.opcode) : e = f := by
  obtain ⟨x, o, ho⟩ := e
  obtain ⟨y, p, hp⟩ := f
  simp only at h
  subst h
  have : o = p := Option.some.inj (ho.symm.trans hp)
  subst this
  rfl

theorem ofOpcode?_eq_some_iff {opcode : Byte} {e : Entry} :
    ofOpcode? opcode = some e ↔ e.opcode = opcode := by
  constructor
  · intro h
    unfold ofOpcode? at h
    split at h
    · cases h
    · cases h; rfl
  · intro h
    subst h
    unfold ofOpcode?
    split
    · next h => rw [e.charted] at h; cases h
    · exact congrArg some (eq_of_opcode_eq rfl)

theorem ofOpcode?_eq_none_iff {opcode : Byte} :
    ofOpcode? opcode = none ↔ Opcode.chart opcode = none := by
  unfold ofOpcode?
  split <;> next h => simp [h]

/-- An operation that stands in no place of the chart is that of no entry. -/
theorem operation_ne_of_not_mem (e : Entry) {o : Operation} (h : some o ∉ Opcode.places) :
    e.operation ≠ o := by
  rintro rfl
  exact h (e.charted ▸ Opcode.chart_mem_places e.opcode)

/-- An operation that stands in the chart is that of an entry. -/
theorem exists_of_mem {o : Operation} (h : some o ∈ Opcode.places) :
    ∃ e : Entry, e.operation = o := by
  obtain ⟨n, hn⟩ := List.mem_iff_getElem?.1 h
  have small : n < 256 := by
    rw [← Opcode.places_length]
    exact (List.getElem?_eq_some_iff.1 hn).1
  have charted := Opcode.getElem?_places (BitVec.ofNat 8 n)
  rw [BitVec.toNat_ofNat, Nat.mod_eq_of_lt small, hn] at charted
  exact ⟨⟨BitVec.ofNat 8 n, o, (Option.some.inj charted).symm⟩, rfl⟩

theorem mem_all (e : Entry) : e ∈ all := by
  refine List.mem_filterMap.2 ⟨e.opcode.toNat, List.mem_range.2 e.opcode.isLt, ?_⟩
  rw [ofOpcode?_eq_some_iff, BitVec.ofNat_toNat, BitVec.setWidth_eq]

end Entry
end I8085
