import I8085.Proofs.Assembler.Lookup
import I8085.Proofs.Instruction.Fetch
import I8085.Proofs.Text.Numerals

/-!
# What a line is encoded as

A line is encoded in three steps, each of which can refuse it.  What comes out is
an instruction whose literal has no more digits than its bytes have room for.
-/

namespace I8085
namespace Assembler

theorem bind_eq_ok_iff {ε α β : Type} {x : Except ε α} {f : α → Except ε β} {b : β} :
    (x >>= f) = .ok b ↔ ∃ a, x = .ok a ∧ f a = .ok b := by
  cases x with
  | error e =>
    constructor
    · intro h
      cases h
    · rintro ⟨a, ha, _⟩
      cases ha
  | ok a =>
    constructor
    · intro h
      exact ⟨a, rfl, h⟩
    · rintro ⟨_, ha, h⟩
      cases ha
      exact h

theorem assembleParts_eq_ok_iff {mnemonic : String} {operandText : List Char} {i : Instruction} :
    assembleParts mnemonic operandText = .ok i ↔
      ∃ tokens, operands operandText = .ok tokens ∧ resolve mnemonic tokens = .ok i.entry ∧
        literal i.entry.slots tokens = .ok i.data := by
  simp only [assembleParts, bind_eq_ok_iff]
  constructor
  · rintro ⟨tokens, htokens, entry, hentry, data, hdata, hi⟩
    cases hi
    exact ⟨tokens, htokens, hentry, hdata⟩
  · rintro ⟨tokens, htokens, hentry, hdata⟩
    exact ⟨tokens, htokens, i.entry, hentry, i.data, hdata, rfl⟩

theorem encode_eq_ok_iff {line : String} {i : Instruction} :
    encode line = .ok i ↔
      ∃ tokens, operands (Text.afterFirstWord (Text.trim line.toList)) = .ok tokens ∧
        resolve (String.ofList (Text.firstWord (Text.trim line.toList))) tokens = .ok i.entry ∧
        literal i.entry.slots tokens = .ok i.data :=
  assembleParts_eq_ok_iff

/-! ## The literal has room -/

/-- An operation has one literal at most, and what its length leaves for it is the
literal's width. -/
theorem length_of_isLiteral {o : Operation} {slot : Slot} (h : slot ∈ o.slots)
    (hslot : slot.isLiteral = true) : o.length = 1 + slot.width := by
  cases o with
  | mov target source =>
    simp only [Operation.slots, List.mem_cons, List.not_mem_nil, or_false] at h
    rcases h with rfl | rfl <;> cases hslot
  | mvi target | lxi pair =>
    simp only [Operation.slots, List.mem_cons, List.not_mem_nil, or_false] at h
    rcases h with rfl | rfl
    · cases hslot
    · rfl
  | _ => simp_all [Operation.slots, Operation.length]

theorem length_of_forall_not_isLiteral {o : Operation}
    (h : ∀ slot ∈ o.slots, slot.isLiteral = false) : o.length = 1 := by
  cases o <;> simp_all [Operation.slots, Operation.length, Slot.isLiteral, Slot.width]

theorem literal_eq_ok {slots : List Slot} {tokens : List (List Char)} {w : Word}
    (h : literal slots tokens = .ok w) :
    w = 0 ∨ ∃ slot ∈ slots, slot.isLiteral = true ∧ w.toNat < 256 ^ slot.width := by
  induction slots generalizing tokens with
  | nil =>
    cases h
    exact .inl rfl
  | cons slot slots ih =>
    cases tokens with
    | nil =>
      cases h
      exact .inl rfl
    | cons token tokens =>
      rw [literal] at h
      split at h
      · next hslot =>
        split at h
        · next value hvalue =>
          cases h
          have bound := Hex.word?_lt hvalue
          rw [Nat.pow_mul] at bound
          exact .inr ⟨slot, List.mem_cons_self, hslot, bound⟩
        · cases h
      · rcases ih h with hw | ⟨s, hs, hrest⟩
        · exact .inl hw
        · exact .inr ⟨s, List.mem_cons_of_mem slot hs, hrest⟩

/-- What a line is encoded as can be fetched back from its bytes. -/
theorem fits_of_encode {line : String} {i : Instruction} (h : encode line = .ok i) : i.Fits := by
  obtain ⟨tokens, _, _, hdata⟩ := encode_eq_ok_iff.1 h
  unfold Instruction.Fits
  rcases literal_eq_ok hdata with hzero | ⟨slot, hmem, hslot, hlt⟩
  · rw [hzero]
    exact Nat.pow_pos (by decide)
  · have hlen : i.length = 1 + slot.width := length_of_isLiteral hmem hslot
    rwa [hlen, Nat.add_sub_cancel_left]

end Assembler
end I8085
