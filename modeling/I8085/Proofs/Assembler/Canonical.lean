import I8085.Proofs.Assembler.Grammar

/-!
# The canonical line stands for its instruction

An instruction written in canonical text is read back as itself, whatever its
literal, so disassembly is undone by assembly.  The printed operands come apart
at the comma as they were joined, they fit the slots they were printed for, and
the lookup knows no other entry they fit.
-/

namespace I8085
namespace Assembler

theorem fills_operandText (i : Instruction) (slot : Slot) : Fills slot (i.operandText slot) := by
  cases slot with
  | reg r => rfl
  | pair p => rfl
  | vector n => exact digit_vector n
  | data8 => exact Hex.isNumeral_print 2 _
  | data16 => exact Hex.isNumeral_print 4 _
  | address => exact Hex.isNumeral_print 4 _

theorem length_slots_le (o : Operation) : o.slots.length ≤ 2 := by
  cases o <;> simp [Operation.slots]

theorem layout_operandsText (name : List Char) (i : Instruction) :
    Layout name (i.entry.slots.map i.operandText) (name ++ i.operandsText) := by
  have nothing : Text.Blank [] := by simp [Text.Blank]
  have space : Text.Blank [' '] := by simp [Text.Blank, Text.isBlank_space]
  have hlen : i.entry.slots.length ≤ 2 := length_slots_le i.operation
  unfold Instruction.operandsText
  generalize i.entry.slots = slots at hlen ⊢
  cases slots with
  | nil =>
    show Layout name [] (name ++ [])
    rw [List.append_nil]
    exact .bare
  | cons slot others =>
    cases others with
    | nil =>
      show Layout name [i.operandText slot]
        (name ++ ' ' :: List.intercalate [','] [i.operandText slot])
      rw [List.intercalate_singleton]
      exact .one space (List.cons_ne_nil ' ' [])
    | cons other rest =>
      have hrest : rest = [] := by simpa using hlen
      subst hrest
      show Layout name [i.operandText slot, i.operandText other]
        (name ++ ' ' :: List.intercalate [','] [i.operandText slot, i.operandText other])
      rw [List.intercalate_cons_cons, List.intercalate_singleton, List.append_assoc]
      exact .two space (List.cons_ne_nil ' ' []) nothing nothing

/-- Canonical text has one blank behind the mnemonic and none around the comma. -/
theorem spells_text (i : Instruction) :
    Spells i.entry (i.entry.slots.map i.operandText) i.text.toList := by
  have chars : i.text.toList = [] ++ (i.entry.mnemonic.toList ++ i.operandsText) ++ [] := by
    simp [Instruction.text]
  have nothing : Text.Blank [] := by simp [Text.Blank]
  refine ⟨⟨[], _, [], nothing, nothing, chars, layout_operandsText _ i⟩, ?_⟩
  rw [List.forall₂_map_right_iff, List.forall₂_same]
  exact fun slot _ => fills_operandText i slot

/-! ## The literal -/

theorem operandText_of_isLiteral {i : Instruction} {slot : Slot} (hslot : slot.isLiteral = true)
    (h : i.data.toNat < 256 ^ slot.width) :
    i.operandText slot = Hex.print (2 * slot.width) i.data.toNat := by
  cases slot with
  | data8 =>
    have small : i.data.toNat < 256 := h
    show Hex.print 2 (Word.low i.data).toNat = Hex.print 2 i.data.toNat
    rw [Word.toNat_low, Nat.mod_eq_of_lt small]
  | data16 => rfl
  | address => rfl
  | reg | pair | vector => cases hslot

theorem literal_operandText {i : Instruction} {slots : List Slot}
    (hliteral : ∀ slot ∈ slots, slot.isLiteral = true → i.data.toNat < 256 ^ slot.width)
    (hnone : (∀ slot ∈ slots, slot.isLiteral = false) → i.data = 0) :
    literal slots (slots.map i.operandText) = .ok i.data := by
  induction slots with
  | nil =>
    rw [hnone (fun slot h => absurd h List.not_mem_nil)]
    rfl
  | cons slot slots ih =>
    rw [List.map_cons, literal]
    cases hslot : slot.isLiteral with
    | true =>
      have small := hliteral slot List.mem_cons_self hslot
      have wide := width_pos_of_isLiteral hslot
      have read : Hex.word? (2 * slot.width) (i.operandText slot) = some i.data := by
        rw [operandText_of_isLiteral hslot small]
        refine Hex.word?_print i.data (by omega) ?_
        rw [Nat.pow_mul]
        exact small
      rw [if_pos rfl, read]
    | false =>
      rw [if_neg Bool.false_ne_true]
      refine ih (fun s hs => hliteral s (List.mem_cons_of_mem slot hs)) (fun hrest => ?_)
      refine hnone (fun s hs => ?_)
      rcases List.mem_cons.1 hs with rfl | hs
      · exact hslot
      · exact hrest s hs

/-! ## The whole line -/

theorem literal_of_fits {i : Instruction} (h : i.Fits) :
    literal i.entry.slots (i.entry.slots.map i.operandText) = .ok i.data := by
  refine literal_operandText (fun slot hmem hslot => ?_) (fun hnone => ?_)
  · have hlen : i.length = 1 + slot.width := length_of_isLiteral hmem hslot
    rwa [Instruction.Fits, hlen, Nat.add_sub_cancel_left] at h
  · have hlen : i.length = 1 := length_of_forall_not_isLiteral hnone
    rw [Instruction.Fits, hlen] at h
    apply BitVec.eq_of_toNat_eq
    exact Nat.lt_one_iff.1 h

/-- Canonical text is read as the instruction it was written for. -/
theorem encode_text {i : Instruction} (h : i.Fits) : encode i.text = .ok i :=
  encode_eq_ok_iff_spells.2 ⟨_, spells_text i, literal_of_fits h⟩

/-! ## Disassembly -/

theorem bytes_eq_take (m : Memory) (x : Word) {count : Nat} (h : count ≤ 3) :
    m.bytes x count = [m.read x, m.read (x + 1), m.read (x + 2)].take count := by
  have hc : count = 0 ∨ count = 1 ∨ count = 2 ∨ count = 3 := by omega
  rcases hc with rfl | rfl | rfl | rfl
  · rfl
  · rfl
  · rfl
  · rw [show x + 2 = x + 1 + 1 from (BitVec.add_assoc x 1 1).symm]
    rfl

/-- Disassembly is undone by assembly.  The text of what is fetched at an address,
`FFFE` and `FFFF` among them, is encoded as the entry that was fetched and as the
bytes that stand there. -/
theorem encode_text_of_fetch (m : Memory) (pc : Word) (f : Fetched) (h : m.fetch pc = .ok f) :
    ∃ i, encode f.text = .ok i ∧ i.entry = f.entry ∧
      i.bytes = [m.read pc, m.read (pc + 1), m.read (pc + 2)].take f.length := by
  obtain ⟨_, hfits, hbytes⟩ := Memory.fetch_eq_ok_iff_bytes.1 h
  refine ⟨f.toInstruction, encode_text hfits, rfl, ?_⟩
  rw [← bytes_eq_take m pc f.length_le, hbytes]

/-- A jump at `FFFF` has its target at `0000`. -/
theorem encode_text_of_wrapped_jump :
    ∃ m f, Memory.fetch m 0xFFFF = .ok f ∧ f.text = "JMP 1234" ∧
      ∃ i, encode "JMP 1234" = .ok i ∧ i.entry = f.entry ∧ i.bytes = [0xC3, 0x34, 0x12] := by
  let f : Fetched :=
    { entry := ⟨0xC3, .jmp, rfl⟩, data := 0x1234, address := 0xFFFF }
  have fits : f.Fits := show (0x1234#16).toNat < 256 ^ 2 by decide
  have fetched : (Memory.zero.load 0xFFFF f.bytes).fetch 0xFFFF = .ok f :=
    Memory.fetch_load fits Memory.zero 0xFFFF
  have text : f.text = "JMP 1234" := by decide +kernel
  have bytes : f.bytes = [0xC3, 0x34, 0x12] := by decide
  obtain ⟨i, hi, hentry, hbytes⟩ := encode_text_of_fetch _ 0xFFFF f fetched
  rw [text] at hi
  rw [← bytes_eq_take _ _ f.length_le, (Memory.fetch_eq_ok_iff_bytes.1 fetched).2.2, bytes]
    at hbytes
  exact ⟨_, f, fetched, text, i, hi, hentry, hbytes⟩

end Assembler
end I8085
