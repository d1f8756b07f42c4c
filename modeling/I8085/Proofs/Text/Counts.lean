import I8085.Text.Decimal
import Mathlib.Algebra.Group.Nat.Defs

/-!
# Which texts are counts

The reader of counts is compared with the ten digits as they are listed and with the number that a
row of them writes in base ten.  Zeros in front change nothing; the one bound is on the number.
-/

namespace I8085
namespace Decimal

def digits : List Char := "0123456789".toList

/-- The number that a row of digits continues, `acc` being what was written before. -/
def valueFrom (acc : Nat) (s : List Char) : Nat :=
  s.foldl (fun n c => 10 * n + digits.idxOf c) acc

def value (s : List Char) : Nat := valueFrom 0 s

def IsNumeral (s : List Char) : Prop := s ≠ [] ∧ ∀ c ∈ s, c ∈ digits

/-- The text is a numeral, perhaps behind a plus sign, and the number it writes has at most
sixty-four bits. -/
def IsCount (s : List Char) : Prop :=
  ∃ sign numeral, s = sign ++ numeral ∧ (sign = [] ∨ sign = ['+']) ∧ IsNumeral numeral ∧
    value numeral ≤ 2 ^ 64 - 1

variable {s : List Char} {n : Nat}

theorem mem_digits_iff {c : Char} : c ∈ digits ↔ '0' ≤ c ∧ c ≤ '9' := by
  constructor
  · have all : digits.all (fun c => decide ('0' ≤ c ∧ c ≤ '9')) = true := by decide
    exact fun h => of_decide_eq_true (List.all_eq_true.1 all c h)
  · intro h
    have ascii : ∀ n < 58, 48 ≤ n → Char.ofNat n ∈ digits := by decide
    have upper : c.toNat ≤ 57 := h.2
    have := ascii c.toNat (by omega) h.1
    rwa [Char.ofNat_toNat] at this

theorem toNat_sub_of_mem {c : Char} (h : c ∈ digits) : c.toNat - 48 = digits.idxOf c := by
  have all : digits.all (fun c => c.toNat - 48 == digits.idxOf c) = true := by decide
  exact beq_iff_eq.1 (List.all_eq_true.1 all c h)

theorem valueFrom?_eq_some_iff {acc : Nat} :
    valueFrom? acc s = some n ↔ (∀ c ∈ s, c ∈ digits) ∧ n = valueFrom acc s := by
  induction s generalizing acc with
  | nil => simp [valueFrom?, valueFrom, eq_comm]
  | cons c rest ih =>
    rw [valueFrom?, List.forall_mem_cons]
    by_cases hc : c ∈ digits
    · rw [if_pos (mem_digits_iff.1 hc), toNat_sub_of_mem hc, and_iff_right hc]
      exact ih
    · simp [mt mem_digits_iff.2 hc, hc]

theorem count?_eq_some_iff_unsigned :
    count? s = some n ↔ IsNumeral (unsigned s) ∧ n = value (unsigned s) ∧ n < countRange := by
  unfold count?
  cases unsigned s with
  | nil => simp [IsNumeral]
  | cons c rest =>
    constructor
    · intro h
      dsimp only at h
      split at h
      · next k hk =>
        obtain ⟨hdigits, hvalue⟩ := valueFrom?_eq_some_iff.1 hk
        rw [Option.ite_none_right_eq_some, Option.some.injEq] at h
        obtain ⟨hrange, rfl⟩ := h
        exact ⟨⟨List.cons_ne_nil c rest, hdigits⟩, hvalue, hrange⟩
      · cases h
    · rintro ⟨⟨-, hdigits⟩, hvalue, hrange⟩
      have read := valueFrom?_eq_some_iff.2 ⟨hdigits, hvalue⟩
      dsimp only
      rw [read]
      exact if_pos hrange

/-- Only a plus sign is taken away, and no numeral begins with one. -/
theorem unsigned_append {sign numeral : List Char} (hsign : sign = [] ∨ sign = ['+'])
    (h : IsNumeral numeral) : unsigned (sign ++ numeral) = numeral := by
  rcases hsign with rfl | rfl
  · cases numeral with
    | nil => exact absurd rfl h.1
    | cons c rest =>
      have hc : c ≠ '+' := by
        rintro rfl
        exact absurd (h.2 '+' List.mem_cons_self) (by decide)
      rw [List.nil_append, unsigned]
      intro rest' e
      exact hc (List.cons.inj e).1
  · rfl

theorem exists_sign (s : List Char) :
    ∃ sign, (sign = [] ∨ sign = ['+']) ∧ s = sign ++ unsigned s := by
  unfold unsigned
  split
  · exact ⟨['+'], .inr rfl, rfl⟩
  · exact ⟨[], .inl rfl, rfl⟩

/-- A numeral behind a sign is read as its number, if that is in range. -/
theorem count?_append {sign numeral : List Char} (hsign : sign = [] ∨ sign = ['+'])
    (h : IsNumeral numeral) (hrange : value numeral ≤ 2 ^ 64 - 1) :
    count? (sign ++ numeral) = some (value numeral) := by
  rw [count?_eq_some_iff_unsigned, unsigned_append hsign h]
  exact ⟨h, rfl, Nat.lt_of_le_pred (by decide) hrange⟩

/-- Nothing but a count is read. -/
theorem count?_eq_none (h : ¬IsCount s) : count? s = none := by
  cases hcount : count? s with
  | none => rfl
  | some n =>
    obtain ⟨hnumeral, rfl, hrange⟩ := count?_eq_some_iff_unsigned.1 hcount
    obtain ⟨sign, hsign, hs⟩ := exists_sign s
    exact absurd ⟨sign, unsigned s, hs, hsign, hnumeral, Nat.le_pred_of_lt hrange⟩ h

end Decimal
end I8085
