import I8085.Proofs.Machine.Calls

/-!
# The cells a step reads

A step reads the bytes of its instruction and, for some instructions, an operand or the
top of the stack.  What it does is determined by these cells and by everything beside
memory: `AgreeOn S` relates two machines that differ in memory only, and there not at
the cells of `S`, and a step that reads cells of `S` alone keeps them related.  What it
stores is then the same in both, so that a run extends `S` by the cells it has written.
-/

namespace I8085

namespace Action

/-- The cells an action reads. -/
def loads (action : Action) (m : Machine) : List Word :=
  match action with
  | mov _ source | inr source | dcr source => operandStores m source
  | lda address => [address]
  | lhld address => [address, address + 1]
  | ldax pair => [m.registers.pair pair]
  | ret | pop _ | xthl => [m.registers.sp, m.registers.sp + 1]
  | _ => []

end Action

namespace Machine

open Memory (cell)

variable {m n : Machine} {f : Fetched} {S : Word → Prop} {x : Word}

/-! ## What is read -/

/-- The cells an instruction reads besides its own bytes. -/
def loads (m : Machine) (f : Fetched) : List Word :=
  match f.operation with
  | .mov _ .m | .arithmetic _ .m | .inr .m | .dcr .m => [m.registers.hl]
  | .lda => [f.data]
  | .lhld => [f.data, f.data + 1]
  | .ldax pair => [m.registers.pair pair]
  | .pop _ | .ret | .xthl => [m.registers.sp, m.registers.sp + 1]
  | .returnIf condition =>
    if m.registers.holds condition then [m.registers.sp, m.registers.sp + 1] else []
  | _ => []

/-- The cells the next step reads: the opcode and, if there is one, the rest of the
instruction and what it loads. -/
def reads (m : Machine) : List Word :=
  match m.fetch with
  | .error _ => [m.registers.pc]
  | .ok f => (List.range f.length).map (cell m.registers.pc) ++ m.loads f

theorem reads_of_ok (h : m.fetch = .ok f) :
    m.reads = (List.range f.length).map (cell m.registers.pc) ++ m.loads f := by
  rw [reads, h]

theorem reads_of_error {fault : Fault} (h : m.fetch = .error fault) :
    m.reads = [m.registers.pc] := by
  rw [reads, h]

/-- What the action of an instruction reads is read by the instruction. -/
theorem loads_action_subset (m : Machine) (f : Fetched) :
    ((m.advance f).action f.toInstruction).loads (m.advance f) ⊆ m.loads f := by
  unfold action loads
  cases ho : f.operation with
  | mov _ source | inr source | dcr source => cases source <;> exact List.Subset.refl _
  | arithmetic op _ | immediate op => cases op <;> exact List.nil_subset _
  | ldax pair => cases pair <;> exact List.Subset.refl _
  | returnIf condition =>
    rw [map_actionIf (·.loads (m.advance f))]
    exact List.Subset.refl _
  | jumpIf condition | callIf condition =>
    exact actionIf_of (P := (·.loads (m.advance f) ⊆ [])) _ condition (List.Subset.refl _)
      (List.Subset.refl _)
  | _ => exact List.Subset.refl _

/-! ## Machines that agree on cells -/

/-- The two differ in memory only, and not at the cells of `S`. -/
def AgreeOn (S : Word → Prop) (m n : Machine) : Prop :=
  ∃ memory, n = { m with memory } ∧ ∀ x, S x → memory.read x = m.memory.read x

namespace AgreeOn

theorem read_eq (h : AgreeOn S m n) (hx : S x) : n.memory.read x = m.memory.read x := by
  obtain ⟨memory, rfl, hcells⟩ := h
  exact hcells x hx

theorem registers_eq (h : AgreeOn S m n) : n.registers = m.registers := by
  obtain ⟨memory, rfl, -⟩ := h
  rfl

theorem mono {T : Word → Prop} (h : AgreeOn S m n) (hsub : ∀ x, T x → S x) : AgreeOn T m n := by
  obtain ⟨memory, rfl, hcells⟩ := h
  exact ⟨memory, rfl, fun x hx => hcells x (hsub x hx)⟩

theorem eq_of_all (h : AgreeOn S m n) (hall : ∀ x, S x) : n = m := by
  obtain ⟨memory, rfl, hcells⟩ := h
  have hmemory : memory = m.memory := Memory.ext_read (fun x => hcells x (hall x))
  rw [hmemory]

/-- An operand has the same value if it is no cell or a cell of `S`. -/
theorem reg_eq (h : AgreeOn S m n) {r : Reg} (hr : ∀ x ∈ Action.operandStores m r, S x) :
    n.reg r = m.reg r := by
  obtain ⟨memory, rfl, hcells⟩ := h
  cases r with
  | m => exact hcells _ (hr _ List.mem_cons_self)
  | _ => rfl

theorem readWord_eq (h : AgreeOn S m n) (hr : ∀ y ∈ [x, x + 1], S y) :
    n.memory.readWord x = m.memory.readWord x := by
  rw [Memory.readWord, Memory.readWord, h.read_eq (hr x List.mem_cons_self),
    h.read_eq (hr (x + 1) (List.mem_cons_of_mem x List.mem_cons_self))]

/-! ### Changes that keep machines in agreement -/

theorem withRegisters (h : AgreeOn S m n) (registers : Registers) :
    AgreeOn S { m with registers } { n with registers } := by
  obtain ⟨memory, rfl, hcells⟩ := h
  exact ⟨memory, rfl, hcells⟩

theorem write (h : AgreeOn S m n) (y : Word) (v : Byte) :
    AgreeOn (fun x => S x ∨ x ∈ [y]) { m with memory := m.memory.write y v }
      { n with memory := n.memory.write y v } := by
  obtain ⟨memory, rfl, hcells⟩ := h
  refine ⟨memory.write y v, rfl, fun x hx => ?_⟩
  show (memory.write y v).read x = (m.memory.write y v).read x
  rw [Memory.read_write, Memory.read_write]
  by_cases hy : y = x
  · rw [if_pos hy, if_pos hy]
  · rw [if_neg hy, if_neg hy]
    exact hcells x (hx.resolve_right (fun hmem => hy (List.mem_singleton.1 hmem).symm))

theorem writeWord (h : AgreeOn S m n) (y w : Word) :
    AgreeOn (fun x => S x ∨ x ∈ [y, y + 1]) { m with memory := m.memory.writeWord y w }
      { n with memory := n.memory.writeWord y w } := by
  refine ((h.write y (Word.low w)).write (y + 1) (Word.high w)).mono (fun x hx => ?_)
  rwa [or_assoc, ← List.mem_append]

theorem push (h : AgreeOn S m n) (w : Word) :
    AgreeOn (fun x => S x ∨ x ∈ [m.registers.sp - 1, m.registers.sp - 2]) (m.push w)
      (n.push w) := by
  have hwritten := (h.writeWord (m.registers.sp - 2) w).withRegisters
    { m.registers with sp := m.registers.sp - 2 }
  obtain ⟨_, rfl, -⟩ := h
  have above : m.registers.sp - 2 + 1 = m.registers.sp - 1 := by bv_omega
  rw [above] at hwritten
  exact hwritten.mono (fun x hx => hx.imp_right (List.Perm.swap _ _ []).mem_iff.1)

theorem setReg (h : AgreeOn S m n) (r : Reg) (v : Byte) :
    AgreeOn (fun x => S x ∨ x ∈ Action.operandStores m r) (m.setReg r v) (n.setReg r v) := by
  cases r with
  | m =>
    have hwritten := h.write m.registers.hl v
    obtain ⟨_, rfl, -⟩ := h
    exact hwritten
  | _ =>
    obtain ⟨memory, rfl, hcells⟩ := h
    exact ⟨memory, rfl, fun x hx => hcells x (hx.resolve_right List.not_mem_nil)⟩

/-- An action that reads cells of `S` alone does the same to both machines, and the cells
it stores at agree from then on. -/
theorem apply (h : AgreeOn S m n) {action : Action} (hloads : ∀ x ∈ action.loads m, S x) :
    AgreeOn (fun x => S x ∨ x ∈ action.stores m) (action.apply m) (action.apply n) := by
  obtain ⟨memory, rfl, hcells⟩ := id h
  have hkept : ∀ x, S x ∨ x ∈ [] → memory.read x = m.memory.read x :=
    fun x hx => hcells x (hx.resolve_right List.not_mem_nil)
  cases action with
  | mov target source =>
    simp only [Action.apply, h.reg_eq hloads]
    exact h.setReg target _
  | mvi target value => exact h.setReg target value
  | inr target | dcr target =>
    simp only [Action.apply, h.reg_eq hloads]
    exact (h.withRegisters _).setReg target _
  | lda address | ldax pair =>
    have hread := h.read_eq (hloads _ List.mem_cons_self)
    simp only [Action.apply]
    rw [hread]
    exact ⟨memory, rfl, hkept⟩
  | lhld address =>
    simp only [Action.apply, h.readWord_eq hloads]
    exact ⟨memory, rfl, hkept⟩
  | ret | pop pair =>
    have htop : top { m with memory } = m.top := h.readWord_eq hloads
    simp only [Action.apply, htop]
    exact ⟨memory, rfl, hkept⟩
  | xthl =>
    have htop : top { m with memory } = m.top := h.readWord_eq hloads
    simp only [Action.apply, htop]
    exact (h.writeWord m.registers.sp m.registers.hl).withRegisters _
  | sta address | stax pair => exact h.write _ _
  | shld address => exact h.writeWord address m.registers.hl
  | call address | rst vector => exact (h.push _).withRegisters _
  | push pair => exact h.push _
  | _ => exact ⟨memory, rfl, hkept⟩

/-! ### One step -/

theorem fetch_eq (h : AgreeOn S m n) (hreads : ∀ x ∈ m.reads, S x) : n.fetch = m.fetch := by
  have hpc : n.registers.pc = m.registers.pc := congrArg Registers.pc h.registers_eq
  cases hf : m.fetch with
  | error fault =>
    rw [reads_of_error hf] at hreads
    obtain ⟨hnone, rfl⟩ := Memory.fetch_eq_error_iff.1 hf
    refine Memory.fetch_eq_error_iff.2 ?_
    rw [hpc, h.read_eq (hreads _ List.mem_cons_self)]
    exact ⟨hnone, rfl⟩
  | ok f =>
    rw [reads_of_ok hf] at hreads
    obtain ⟨haddress, hfits, hbytes⟩ := Memory.fetch_eq_ok_iff_bytes.1 hf
    refine Memory.fetch_eq_ok_iff_bytes.2 ⟨haddress.trans hpc.symm, hfits, ?_⟩
    rw [← hbytes, hpc]
    refine Memory.bytes_congr (fun i hi => h.read_eq (hreads _ ?_))
    exact List.mem_append_left _ (List.mem_map_of_mem (List.mem_range.2 hi))

/-- The source of an accumulator operation is looked up while the instruction is reduced
to its action; nothing else of memory is. -/
theorem action_eq (h : AgreeOn S m n) {i : Instruction}
    (hsource : ∀ op r, i.operation = .arithmetic op r → ∀ x ∈ Action.operandStores m r, S x) :
    n.action i = m.action i := by
  obtain ⟨memory, rfl, -⟩ := id h
  unfold action
  cases ho : i.operation with
  | arithmetic op source => simp only [h.reg_eq (hsource op source ho)]
  | _ => rfl

theorem execute (h : AgreeOn S m n) (hf : m.fetch = .ok f) (hreads : ∀ x ∈ m.reads, S x) :
    AgreeOn (fun x => S x ∨ x ∈ m.stores) (m.execute f) (n.execute f) := by
  have hloads : ∀ x ∈ m.loads f, S x := by
    rw [reads_of_ok hf] at hreads
    exact fun x hx => hreads x (List.mem_append_right _ hx)
  have hadvance : AgreeOn S (m.advance f) (n.advance f) := by
    obtain ⟨memory, rfl, hcells⟩ := h
    exact ⟨memory, rfl, hcells⟩
  have hsource (op : Arithmetic) (r : Reg) (ho : f.operation = .arithmetic op r) :
      ∀ x ∈ Action.operandStores m r, S x := by
    refine fun x hx => hloads x ?_
    rw [loads, ho]
    cases r with
    | m => exact hx
    | _ => cases hx
  have haction := hadvance.action_eq (i := f.toInstruction) hsource
  have happly := hadvance.apply (fun x hx => hloads x (loads_action_subset m f hx))
  rw [stores_of_fetch hf, Machine.execute, Machine.execute, haction]
  obtain ⟨memory, hmemory, hcells⟩ := happly
  exact ⟨memory, congrArg counted hmemory, hcells⟩

theorem stepped (h : AgreeOn S m n) (hreads : ∀ x ∈ m.reads, S x) :
    AgreeOn (fun x => S x ∨ x ∈ m.stores) m.stepped n.stepped := by
  have hfetch := h.fetch_eq hreads
  cases hf : m.fetch with
  | error fault =>
    rw [stepped_of_error hf, stepped_of_error (hfetch.trans hf)]
    refine h.mono (fun x hx => hx.resolve_right ?_)
    rw [stores, hf]
    exact List.not_mem_nil
  | ok f =>
    rw [stepped_of_ok hf, stepped_of_ok (hfetch.trans hf)]
    exact h.execute hf hreads

end AgreeOn

/-! ## Any number of steps -/

/-- A cell that one of the first `count` steps stores at. -/
def Written (m : Machine) (count : Nat) (x : Word) : Prop := ∃ k < count, x ∈ (m.after k).stores

theorem written_succ {count : Nat} :
    m.Written (count + 1) x ↔ m.Written count x ∨ x ∈ (m.after count).stores := by
  constructor
  · rintro ⟨k, hk, hx⟩
    rcases Nat.lt_succ_iff_lt_or_eq.1 hk with hk | rfl
    · exact .inl ⟨k, hk, hx⟩
    · exact .inr hx
  · rintro (⟨k, hk, hx⟩ | hx)
    · exact ⟨k, Nat.lt_succ_of_lt hk, hx⟩
    · exact ⟨count, Nat.lt_succ_self count, hx⟩

/-- Machines that agree on `S` agree after any number of steps on `S` and on what these
steps have written, as long as every step reads there. -/
theorem AgreeOn.after (h : AgreeOn S m n) {count : Nat}
    (hreads : ∀ k < count, ∀ x ∈ (m.after k).reads, S x ∨ m.Written k x) :
    AgreeOn (fun x => S x ∨ m.Written count x) (m.after count) (n.after count) := by
  induction count with
  | zero => exact h.mono (fun x hx => hx.resolve_right (fun ⟨k, hk, _⟩ => Nat.not_lt_zero k hk))
  | succ count ih =>
    have hbefore := ih (fun k hk => hreads k (Nat.lt_succ_of_lt hk))
    have hafter := hbefore.stepped (hreads count (Nat.lt_succ_self count))
    refine hafter.mono (fun x hx => ?_)
    rwa [or_assoc, ← written_succ]

/-- A run does not depend on a cell that it does not read.  Two machines that differ at
that cell alone take the same steps, failing ones included, and still differ nowhere
else; if one of the steps stores at the cell, they do not differ at all. -/
theorem after_of_unread_cell (h : AgreeOn (· ≠ x) m n) (count : Nat)
    (hunread : ∀ k < count, x ∉ (m.after k).reads) :
    (∀ k < count, (n.after k).outcome = (m.after k).outcome) ∧
    AgreeOn (· ≠ x) (m.after count) (n.after count) ∧
    ((∃ k < count, x ∈ (m.after k).stores) → n.after count = m.after count) := by
  have hreads (k : Nat) (hk : k < count) : ∀ y ∈ (m.after k).reads, y ≠ x :=
    fun y hy e => hunread k hk (e ▸ hy)
  have hagree (k : Nat) (hk : k ≤ count) :
      AgreeOn (fun y => y ≠ x ∨ m.Written k y) (m.after k) (n.after k) :=
    h.after (fun j hj y hy => .inl (hreads j (Nat.lt_of_lt_of_le hj hk) y hy))
  refine ⟨fun k hk => ?_, ?_, fun hwritten => ?_⟩
  · rw [outcome_eq_fetch, outcome_eq_fetch]
    exact (hagree k (Nat.le_of_lt hk)).fetch_eq (fun y hy => .inl (hreads k hk y hy))
  · exact (hagree count (Nat.le_refl count)).mono (fun y hy => .inl hy)
  · refine (hagree count (Nat.le_refl count)).eq_of_all (fun y => ?_)
    by_cases e : y = x
    · exact .inr (e ▸ hwritten)
    · exact .inl e

/-- `STA 0003` in the last two cells and the first, which makes up for a difference at
`0003`. -/
theorem after_of_unread_cell_wrapped :
    ∃ m n : Machine, n.memory.read 3 ≠ m.memory.read 3 ∧ AgreeOn (· ≠ 3) m n ∧ 3 ∉ m.reads ∧
      n.outcome = m.outcome ∧ n.after 1 = m.after 1 := by
  let sta : Fetched := { entry := ⟨0x32, .sta, rfl⟩, data := 3, address := 0xFFFE }
  let m : Machine :=
    { memory := Memory.zero.load 0xFFFE sta.bytes, registers := { pc := 0xFFFE } }
  let n : Machine := { m with memory := m.memory.write 3 0xFF }
  have fits : sta.Fits := show (3#16).toNat < 256 ^ 2 by decide
  have fetched : m.fetch = .ok sta := Memory.fetch_load fits Memory.zero 0xFFFE
  have differ : n.memory.read 3 ≠ m.memory.read 3 := by
    have clear : m.memory.read 3 = 0 :=
      (Memory.read_load_of_ne (by decide)).trans (Memory.read_zero 3)
    rw [clear, show n.memory.read 3 = 0xFF from Memory.read_write_self _ _ _]
    decide
  have agree : AgreeOn (· ≠ 3) m n :=
    ⟨_, rfl, fun y hy => Memory.read_write_of_ne _ _ (Ne.symm hy)⟩
  have unread : 3 ∉ m.reads := by
    rw [reads_of_ok fetched]
    decide
  have written : 3 ∈ m.stores := by
    rw [stores_of_fetch fetched]
    decide
  have always : ∀ k < 1, 3 ∉ (m.after k).reads := fun k hk => by
    obtain rfl : k = 0 := Nat.lt_one_iff.1 hk
    exact unread
  obtain ⟨outcomes, -, same⟩ := after_of_unread_cell agree 1 always
  exact ⟨m, n, differ, agree, unread, outcomes 0 Nat.one_pos, same ⟨0, Nat.one_pos, written⟩⟩

end Machine
end I8085
