import I8085.Proofs.Assembler.Canonical

/-!
# A line read back from its bytes

The bytes of an accepted line are fetched as the instruction that the line stands
for, at any address and over any memory.  However the line was spaced and in
whichever case its digits were written, its canonical text is read as the same
instruction, so instructions are told apart by their bytes and by their texts
alike.
-/

namespace I8085
namespace Assembler

variable {i j : Instruction}

theorem bytes_eq_iff (hi : i.Fits) (hj : j.Fits) : i.bytes = j.bytes ↔ i = j := by
  constructor
  · intro h
    have read := Memory.fetch_load hi Memory.zero 0
    rw [h, Memory.fetch_load hj] at read
    exact (congrArg Fetched.toInstruction (Except.ok.inj read)).symm
  · intro h
    rw [h]

theorem text_eq_iff (hi : i.Fits) (hj : j.Fits) : i.text = j.text ↔ i = j := by
  constructor
  · intro h
    have read := encode_text hi
    rw [h, encode_text hj] at read
    exact (Except.ok.inj read).symm
  · intro h
    rw [h]

/-- The bytes of an accepted line are fetched as what the line says, wherever they are placed, and
the canonical text of what is fetched is encoded as the line was.  Two accepted lines are encoded
alike exactly if their canonical texts agree. -/
theorem fetch_load_of_encode (line : String) (i : Instruction) (h : encode line = .ok i) :
    (∀ (m : Memory) (a : Word), ∃ f tokens, (m.load a i.bytes).fetch a = .ok f ∧
      f.address = a ∧ f.toInstruction = i ∧ Spells f.entry tokens line.toList ∧
      f.data.toNat = writtenValue f.entry.slots tokens ∧
      f.next = a + BitVec.ofNat 16 i.length ∧ encode f.text = .ok i) ∧
    ∀ (other : String) (j : Instruction), encode other = .ok j →
      (i = j ↔ i.text = j.text) ∧ (i.bytes = j.bytes ↔ i.text = j.text) := by
  have hfits := fits_of_encode h
  constructor
  · intro m a
    obtain ⟨tokens, hspells, hvalue, -⟩ := exists_spells_of_encode h
    exact ⟨{ i with address := a }, tokens, Memory.fetch_load hfits m a, rfl, rfl, hspells, hvalue,
      rfl, encode_text hfits⟩
  · intro other j hj
    rw [bytes_eq_iff hfits (fits_of_encode hj), text_eq_iff hfits (fits_of_encode hj)]
    exact ⟨Iff.rfl, Iff.rfl⟩

/-- A line with blanks and small letters, its literal at `FFFF` and `0000`. -/
theorem fetch_load_of_spaced_line :
    ∃ i f, encode " LXI\tH , c0Ff" = .ok i ∧
      (Memory.zero.load 0xFFFE i.bytes).fetch 0xFFFE = .ok f ∧ f.text = "LXI H,C0FF" ∧
      f.next = 1 := by
  let i : Instruction := { entry := ⟨0x21, .lxi .hl, rfl⟩, data := 0xC0FF }
  have accepted : encode " LXI\tH , c0Ff" = .ok i := by decide +kernel
  obtain ⟨f, -, hf, -, hi, -, -, hnext, -⟩ :=
    (fetch_load_of_encode _ i accepted).1 Memory.zero 0xFFFE
  refine ⟨i, f, accepted, hf, ?_, ?_⟩
  · rw [hi]
    decide +kernel
  · rw [hnext]
    decide

end Assembler
end I8085
