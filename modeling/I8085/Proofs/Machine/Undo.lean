import I8085.Proofs.Machine.Frame

/-!
# Actions that undo each other

Two exchanges, a count up and a count down, a push and a pop leave what they found.  Each law comes
down to how a word is taken apart and put together: what is written to a pair or to memory is read
back from it, what is read and written back changes nothing, and of two writes the second stays.
The one exception is the packed flags, whose three spare bits do not come back as they were.

The laws hold at every stack pointer, because the two cells of a word are always two.
-/

namespace I8085

/-! ## Words in memory and in pairs -/

namespace Memory

theorem writeWord_readWord (m : Memory) (x : Word) : m.writeWord x (m.readWord x) = m := by
  apply ext_read
  intro y
  rw [read_writeWord, readWord, Word.high_ofBytes, Word.low_ofBytes]
  split
  · next h => rw [h]
  · split
    · next h => rw [h]
    · rfl

theorem writeWord_writeWord (m : Memory) (x v w : Word) :
    (m.writeWord x v).writeWord x w = m.writeWord x w := by
  apply ext_read
  intro y
  simp only [read_writeWord]
  split
  · rfl
  · split <;> rfl

/-- To write back a word with another low byte is to write that byte. -/
theorem writeWord_ofBytes_high (m : Memory) (x : Word) (low : Byte) :
    m.writeWord x (Word.ofBytes (m.read (x + 1)) low) = m.write x low := by
  apply ext_read
  intro y
  rw [read_writeWord, read_write, Word.high_ofBytes, Word.low_ofBytes]
  split
  · next h =>
    have apart : x ≠ y := by bv_omega
    rw [if_neg apart, h]
  · rfl

end Memory

namespace Registers

theorem setPair_pair (r : Registers) (p : Pair) : r.setPair p (r.pair p) = r := by
  cases p <;> simp [setPair, pair, bc, de, hl]

theorem setPair_setPair (r : Registers) (p : Pair) (v w : Word) :
    (r.setPair p v).setPair p w = r.setPair p w := by
  cases p <;> rfl

theorem pair_setPair_of_ne (r : Registers) {p q : Pair} (w : Word) (h : q ≠ p) :
    (r.setPair p w).pair q = r.pair q := by
  cases p <;> cases q <;> first | rfl | exact absurd rfl h

/-- The stack pointer and another pair are written in either order. -/
theorem setPair_comm_sp (r : Registers) {p : Pair} (v w : Word) (h : p ≠ .sp) :
    (r.setPair .sp v).setPair p w = (r.setPair p w).setPair .sp v := by
  cases p <;> first | rfl | exact absurd rfl h

/-- The status word is packed again with its spare bits put right. -/
theorem pair_setPair_psw (r : Registers) (w : Word) : (r.setPair .psw w).pair .psw =
    Word.ofBytes (Word.high w) (Word.low w &&& 0xD5#8 ||| 0x02#8) := by
  show Word.ofBytes (Word.high w) (Flags.ofByte (Word.low w)).toByte = _
  rw [Flags.toByte_ofByte]

end Registers

namespace Machine

/-! ## Counts and exchanges -/

/-- A pair that gets its old word back is the same, whatever it held between. -/
theorem setPair_setPair_pair (m : Machine) (p : Pair) (v : Word) :
    (m.setPair p v).setPair p (m.registers.pair p) = m := by
  rw [setPair, setPair, Registers.setPair_setPair, Registers.setPair_pair]

theorem dcx_inx (m : Machine) {p : Pair} (h : p ≠ .psw) :
    (Action.dcx p).apply ((Action.inx p).apply m) = m := by
  show (m.setPair p _).setPair p ((m.registers.setPair p (m.registers.pair p + 1)).pair p - 1) = m
  rw [Registers.pair_setPair_self _ _ h, BitVec.add_sub_cancel, setPair_setPair_pair]

theorem inx_dcx (m : Machine) {p : Pair} (h : p ≠ .psw) :
    (Action.inx p).apply ((Action.dcx p).apply m) = m := by
  show (m.setPair p _).setPair p ((m.registers.setPair p (m.registers.pair p - 1)).pair p + 1) = m
  rw [Registers.pair_setPair_self _ _ h, BitVec.sub_add_cancel, setPair_setPair_pair]

theorem xthl_xthl (m : Machine) : Action.xthl.apply (Action.xthl.apply m) = m := by
  let swapped := Action.xthl.apply m
  have htop : swapped.top = m.registers.hl := Memory.readWord_writeWord _ _ _
  have hhl : swapped.registers.hl = m.top := Registers.pair_setPair_self (p := .hl) _ _ (by decide)
  show { m with
    memory := (m.memory.writeWord m.registers.sp m.registers.hl).writeWord m.registers.sp
      swapped.registers.hl
    registers := (m.registers.setPair .hl m.top).setPair .hl swapped.top } = m
  rw [htop, hhl, Memory.writeWord_writeWord, top, Memory.writeWord_readWord,
    Registers.setPair_setPair, show m.registers.hl = m.registers.pair .hl from rfl,
    Registers.setPair_pair]

/-! ## Pushes and pops -/

/-- What was pushed is popped into any pair, and stays behind below the stack pointer. -/
theorem pop_push (m : Machine) (p q : Pair) :
    (Action.pop q).apply ((Action.push p).apply m) =
      { m with
        memory := m.memory.writeWord (m.registers.sp - 2) (m.registers.pair p)
        registers := m.registers.setPair q (m.registers.pair p) } := by
  let pushed := m.push (m.registers.pair p)
  have htop : pushed.top = m.registers.pair p := Memory.readWord_writeWord _ _ _
  show pushed.drop.setPair q pushed.top = _
  rw [htop]
  show { pushed with registers := { m.registers with
    sp := m.registers.sp - 2 + 2 }.setPair q (m.registers.pair p) } = _
  rw [BitVec.sub_add_cancel]
  rfl

/-- A pair that is popped and pushed again is written back as the pair holds it. -/
theorem push_pop (m : Machine) {p : Pair} (h : p ≠ .sp) :
    (Action.push p).apply ((Action.pop p).apply m) =
      { m with
        memory := m.memory.writeWord m.registers.sp ((m.registers.setPair p m.top).pair p)
        registers := m.registers.setPair p m.top } := by
  let loaded := m.registers.setPair p m.top
  let popped := (Action.pop p).apply m
  -- The stack pointer moves before the pair is loaded, and could be counted up after it as well.
  have hpopped : popped.registers = loaded.setPair .sp (m.registers.sp + 2) :=
    Registers.setPair_comm_sp m.registers _ _ h
  have hpair : popped.registers.pair p = loaded.pair p := by
    rw [hpopped, Registers.pair_setPair_of_ne _ _ h]
  have hsp : loaded.sp = m.registers.sp := Registers.pair_setPair_of_ne _ _ (Ne.symm h)
  have hback : popped.registers.sp - 2 = loaded.sp := by
    rw [hpopped, hsp]
    exact BitVec.add_sub_cancel _ _
  have hregisters : popped.registers.setPair .sp loaded.sp = loaded := by
    rw [hpopped, Registers.setPair_setPair]
    exact Registers.setPair_pair loaded .sp
  show { m with
    memory := m.memory.writeWord (popped.registers.sp - 2) (popped.registers.pair p)
    registers := popped.registers.setPair .sp (popped.registers.sp - 2) } = _
  rw [hback, hpair, hregisters, hsp]

theorem sp_push_pop (m : Machine) {p : Pair} (h : p ≠ .sp) :
    ((Action.push p).apply ((Action.pop p).apply m)).registers.sp = m.registers.sp := by
  rw [push_pop m h]
  exact Registers.pair_setPair_of_ne m.registers m.top (Ne.symm h)

/-! ## All of them together -/

/-- What one action does and another undoes, whatever the machine holds. -/
structure UndoLaws (m : Machine) : Prop where
  xthl : Action.xthl.apply (Action.xthl.apply m) = m
  xchg : Action.xchg.apply (Action.xchg.apply m) = m
  count : ∀ p ≠ Pair.psw, (Action.dcx p).apply ((Action.inx p).apply m) = m ∧
    (Action.inx p).apply ((Action.dcx p).apply m) = m
  /-- A pair that is pushed and popped, the status word too, comes back with the stack pointer;
  nothing changes but the two cells below the stack. -/
  pushPop : ∀ p, let after := (Action.pop p).apply ((Action.push p).apply m)
    after = { m with memory := after.memory } ∧
    ∀ x, x ≠ m.registers.sp - 1 → x ≠ m.registers.sp - 2 → after.memory.read x = m.memory.read x
  popPush : ∀ p ≠ Pair.sp, p ≠ Pair.psw →
    let after := (Action.push p).apply ((Action.pop p).apply m)
    after.memory = m.memory ∧ after.registers.sp = m.registers.sp
  /-- The packed flags that are popped and pushed get their spare bits put right. -/
  popPushStatus : let after := (Action.push .psw).apply ((Action.pop .psw).apply m)
    after.memory = m.memory.write m.registers.sp
        (m.memory.read m.registers.sp &&& 0xD5#8 ||| 0x02#8) ∧
      after.registers.sp = m.registers.sp
  /-- A pair that is pushed and popped into another is copied, and every other register stays. -/
  copy : ∀ p, ∀ q ≠ Pair.psw, let after := (Action.pop q).apply ((Action.push p).apply m)
    after.registers = m.registers.setPair q (m.registers.pair p) ∧
    after.registers.pair q = m.registers.pair p ∧
    ∀ r ≠ q, after.registers.pair r = m.registers.pair r

theorem undoLaws (m : Machine) : m.UndoLaws where
  xthl := xthl_xthl m
  xchg := rfl
  count p h := ⟨dcx_inx m h, inx_dcx m h⟩
  pushPop p := by
    intro after
    have hafter : after = _ := pop_push m p p
    rw [Registers.setPair_pair] at hafter
    refine ⟨by rw [hafter], fun x hhigh hlow => ?_⟩
    rw [hafter]
    exact Action.read_push_of_ne m _ hhigh hlow
  popPush p hsp hpsw := by
    refine ⟨?_, sp_push_pop m hsp⟩
    rw [push_pop m hsp]
    show m.memory.writeWord _ ((m.registers.setPair p m.top).pair p) = _
    rw [Registers.pair_setPair_self _ _ hpsw, top, Memory.writeWord_readWord]
  popPushStatus := by
    refine ⟨?_, sp_push_pop m (p := .psw) (by decide)⟩
    rw [push_pop m (p := .psw) (by decide)]
    show m.memory.writeWord _ ((m.registers.setPair .psw m.top).pair .psw) = _
    rw [Registers.pair_setPair_psw, top, Memory.readWord, Word.high_ofBytes, Word.low_ofBytes,
      Memory.writeWord_ofBytes_high]
  copy p q h := by
    intro after
    have hafter : after.registers = _ := congrArg Machine.registers (pop_push m p q)
    rw [hafter]
    exact ⟨rfl, Registers.pair_setPair_self _ _ h, fun r hr => Registers.pair_setPair_of_ne _ _ hr⟩

/-- With the top of the stack in the last cell and the first, a status word whose flag byte is `FF`
is written back with `D7`, and a pair that is pushed and popped is the same. -/
theorem undoLaws_around_the_end :
    ∃ m : Machine, m.registers.sp = 0xFFFF ∧ m.memory.read 0xFFFF = 0xFF ∧
      ((Action.push .psw).apply ((Action.pop .psw).apply m)).memory =
        m.memory.write 0xFFFF 0xD7 ∧
      ((Action.pop .bc).apply ((Action.push .bc).apply m)).registers = m.registers ∧
      ((Action.pop .bc).apply ((Action.push .bc).apply m)).memory.read 0 = m.memory.read 0 := by
  let m : Machine :=
    { memory := (Memory.zero.write 0 0x12).write 0xFFFF 0xFF, registers := { sp := 0xFFFF } }
  have stands : m.memory.read 0xFFFF = 0xFF := Memory.read_write_self _ _ _
  obtain ⟨status, -⟩ := (undoLaws m).popPushStatus
  obtain ⟨same, cells⟩ := (undoLaws m).pushPop .bc
  refine ⟨m, rfl, stands, ?_, ?_, ?_⟩
  · rw [status, show m.registers.sp = 0xFFFF from rfl, stands]
    rfl
  · rw [same]
  · exact cells 0 (show 0 ≠ 0xFFFF#16 - 1 by decide) (show 0 ≠ 0xFFFF#16 - 2 by decide)

end Machine
end I8085
