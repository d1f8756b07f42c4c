import I8085.Text.Hex
import Mathlib.Algebra.GroupWithZero.Nat

/-!
# Which texts are numerals

The reader of numerals is compared with the digits as they are listed and with
the number that a row of them writes in base sixteen.  A numeral of so many digits
never says more than they can, and a number printed with enough digits is read as
itself.
-/

namespace I8085
namespace Hex

/-- The digits, the letters in upper case and then in lower case. -/
def digits : List Char := "0123456789ABCDEFabcdef".toList

/-- A lower-case letter stands six places behind its upper-case one. -/
def digitValue (c : Char) : Nat :=
  if digits.idxOf c < 16 then digits.idxOf c else digits.idxOf c - 6

/-- The number that a row of digits continues, `acc` being what was written before. -/
def valueFrom (acc : Nat) (s : List Char) : Nat := s.foldl (fun n c => 16 * n + digitValue c) acc

def value (s : List Char) : Nat := valueFrom 0 s

def IsNumeral (width : Nat) (s : List Char) : Prop := s.length = width ∧ ∀ c ∈ s, c ∈ digits

/-- The digits that numerals are printed with. -/
def upperDigits : List Char := digits.take 16

def IsUpperNumeral (width : Nat) (s : List Char) : Prop :=
  s.length = width ∧ ∀ c ∈ s, c ∈ upperDigits

instance (width : Nat) : DecidablePred (IsUpperNumeral width) :=
  fun s => inferInstanceAs (Decidable (s.length = width ∧ ∀ c ∈ s, c ∈ upperDigits))

theorem IsUpperNumeral.isNumeral {width : Nat} {s : List Char} (h : IsUpperNumeral width s) :
    IsNumeral width s := ⟨h.1, fun c hc => List.mem_of_mem_take (h.2 c hc)⟩

theorem isNumeral_replicate_zero (n : Nat) : IsNumeral n (List.replicate n '0') := by
  refine ⟨List.length_replicate, fun c hc => ?_⟩
  rw [List.eq_of_mem_replicate hc]
  decide

/-! ## Reading -/

theorem digit?_of_mem {c : Char} (h : c ∈ digits) : digit? c = some (digitValue c) := by
  have all : digits.all (fun c => digit? c == some (digitValue c)) = true := by decide
  exact beq_iff_eq.1 (List.all_eq_true.1 all c h)

/-- A digit is a figure, or one of six letters in either case. -/
theorem digit?_cases {c : Char} {d : Nat} (h : digit? c = some d) :
    (48 ≤ c.toNat ∧ c.toNat ≤ 57) ∨ (65 ≤ c.toNat ∧ c.toNat ≤ 70) ∨
      (97 ≤ c.toNat ∧ c.toNat ≤ 102) := by
  unfold digit? at h
  split at h
  · next hc => exact .inl hc
  · split at h
    · next hc => exact .inr (.inl hc)
    · split at h
      · next hc => exact .inr (.inr hc)
      · cases h

theorem mem_digits_of_digit? {c : Char} {d : Nat} (h : digit? c = some d) : c ∈ digits := by
  have ascii : ∀ n < 103, digit? (Char.ofNat n) ≠ none → Char.ofNat n ∈ digits := by decide
  have small : c.toNat < 103 := by
    have := digit?_cases h
    omega
  have := ascii c.toNat small
  rw [Char.ofNat_toNat, h] at this
  exact this (Option.some_ne_none d)

theorem digit?_eq_none {c : Char} (h : c ∉ digits) : digit? c = none := by
  cases hd : digit? c with
  | none => rfl
  | some d => exact absurd (mem_digits_of_digit? hd) h

theorem valueFrom?_eq_some_iff {acc n : Nat} {s : List Char} :
    valueFrom? acc s = some n ↔ (∀ c ∈ s, c ∈ digits) ∧ n = valueFrom acc s := by
  induction s generalizing acc with
  | nil => simp [valueFrom?, valueFrom, eq_comm]
  | cons c rest ih =>
    rw [valueFrom?, List.forall_mem_cons]
    by_cases hc : c ∈ digits
    · rw [digit?_of_mem hc, and_iff_right hc]
      exact ih
    · simp [digit?_eq_none hc, hc]

/-- A text is read at a width exactly if it is a numeral of that width and what it
writes is a word. -/
theorem word?_eq_some_iff {width : Nat} {s : List Char} {w : Word} :
    word? width s = some w ↔ 0 < width ∧ IsNumeral width s ∧ w.toNat = value s := by
  unfold word?
  constructor
  · intro h
    split at h
    · next hlen =>
      split at h
      · next n hn =>
        obtain ⟨hdigits, hvalue⟩ := valueFrom?_eq_some_iff.1 hn
        simp only [Option.ite_none_right_eq_some, Option.some.injEq] at h
        obtain ⟨hsmall, rfl⟩ := h
        have some_digits := List.length_pos_iff.2 hlen.2
        refine ⟨by omega, ⟨hlen.1, hdigits⟩, ?_⟩
        rw [BitVec.toNat_ofNat, Nat.mod_eq_of_lt hsmall]
        exact hvalue
      · cases h
    · cases h
  · rintro ⟨hwidth, ⟨hlen, hdigits⟩, hvalue⟩
    have some_digits : s ≠ [] := by
      rintro rfl
      rw [List.length_nil] at hlen
      omega
    have read : valueFrom? 0 s = some w.toNat := valueFrom?_eq_some_iff.2 ⟨hdigits, hvalue⟩
    rw [if_pos ⟨hlen, some_digits⟩, read]
    show (if w.toNat < 65536 then some (BitVec.ofNat 16 w.toNat) else none) = some w
    rw [if_pos w.isLt, BitVec.ofNat_toNat, BitVec.setWidth_eq]

theorem word?_eq_none {width : Nat} {s : List Char} (h : ¬IsNumeral width s) :
    word? width s = none := by
  cases hword : word? width s with
  | none => rfl
  | some w => exact absurd (word?_eq_some_iff.1 hword).2.1 h

/-! ## What so many digits can say -/

theorem digitValue_lt {c : Char} (h : c ∈ digits) : digitValue c < 16 := by
  have all : digits.all (fun c => decide (digitValue c < 16)) = true := by decide
  exact of_decide_eq_true (List.all_eq_true.1 all c h)

theorem valueFrom_lt {acc : Nat} {s : List Char} (h : ∀ c ∈ s, c ∈ digits) :
    valueFrom acc s < 16 ^ s.length * (acc + 1) := by
  induction s generalizing acc with
  | nil => simp [valueFrom]
  | cons c rest ih =>
    rw [List.forall_mem_cons] at h
    have hlt := digitValue_lt h.1
    calc valueFrom acc (c :: rest)
      _ = valueFrom (16 * acc + digitValue c) rest := rfl
      _ < 16 ^ rest.length * (16 * acc + digitValue c + 1) := ih h.2
      _ ≤ 16 ^ rest.length * (16 * (acc + 1)) := Nat.mul_le_mul_left _ (by omega)
      _ = 16 ^ (c :: rest).length * (acc + 1) := by
        rw [List.length_cons, Nat.pow_succ, Nat.mul_assoc]

theorem value_lt {width : Nat} {s : List Char} (h : IsNumeral width s) : value s < 16 ^ width := by
  have bound : valueFrom 0 s < 16 ^ s.length * (0 + 1) := valueFrom_lt h.2
  rwa [h.1, Nat.zero_add, Nat.mul_one] at bound

theorem word?_lt {width : Nat} {s : List Char} {w : Word} (h : word? width s = some w) :
    w.toNat < 16 ^ width := by
  obtain ⟨-, hnumeral, hvalue⟩ := word?_eq_some_iff.1 h
  rw [hvalue]
  exact value_lt hnumeral

/-- A numeral of up to four digits is read. -/
theorem exists_word?_of_isNumeral {width : Nat} {s : List Char} (hpos : 0 < width)
    (hwidth : width ≤ 4) (h : IsNumeral width s) : ∃ w, word? width s = some w := by
  have small : value s < 65536 := by
    calc value s < 16 ^ width := value_lt h
      _ ≤ 16 ^ 4 := Nat.pow_le_pow_right (by decide) hwidth
  refine ⟨BitVec.ofNat 16 (value s), word?_eq_some_iff.2 ⟨hpos, h, ?_⟩⟩
  rw [BitVec.toNat_ofNat, Nat.mod_eq_of_lt small]

/-! ## Printing -/

theorem mem_upperDigits_of_mem_print {width n : Nat} {c : Char} (h : c ∈ print width n) :
    c ∈ upperDigits := by
  induction width generalizing n with
  | zero => cases h
  | succ width ih =>
    have last : digit (n % 16) ∈ upperDigits :=
      (by decide : ∀ d < 16, digit d ∈ upperDigits) _ (Nat.mod_lt n (by decide))
    rw [print, List.mem_append, List.mem_singleton] at h
    rcases h with hc | rfl
    · exact ih hc
    · exact last

theorem isUpperNumeral_print (width n : Nat) : IsUpperNumeral width (print width n) :=
  ⟨print_length width n, fun _ hc => mem_upperDigits_of_mem_print hc⟩

theorem isNumeral_print (width n : Nat) : IsNumeral width (print width n) :=
  (isUpperNumeral_print width n).isNumeral

/-- Digits printed at a width read as the number modulo the power of sixteen. -/
theorem valueFrom?_print (width acc n : Nat) :
    valueFrom? acc (print width n) = some (16 ^ width * acc + n % 16 ^ width) := by
  induction width generalizing acc n with
  | zero => simp [print, valueFrom?, Nat.mod_one]
  | succ width ih =>
    have low : n % 16 < 16 := Nat.mod_lt _ (by decide)
    have parts : n % 16 ^ (width + 1) = n % 16 + 16 * (n / 16 % 16 ^ width) := by
      rw [Nat.pow_succ, Nat.mul_comm, Nat.mod_mul]
    rw [print, valueFrom?_append, ih]
    simp only [Option.bind_some, valueFrom?, digit?_digit low, Option.some.injEq]
    rw [parts, Nat.pow_succ, Nat.mul_add, Nat.mul_comm (16 ^ width) 16, Nat.mul_assoc]
    omega

/-- A number printed with enough digits is written by them. -/
theorem value_print {width n : Nat} (h : n < 16 ^ width) : value (print width n) = n := by
  have read := (valueFrom?_eq_some_iff.1 (valueFrom?_print width 0 n)).2
  rw [Nat.mul_zero, Nat.zero_add, Nat.mod_eq_of_lt h] at read
  exact read.symm

/-- A word printed with enough digits is read back. -/
theorem word?_print {width : Nat} (w : Word) (hwidth : 0 < width) (h : w.toNat < 16 ^ width) :
    word? width (print width w.toNat) = some w :=
  word?_eq_some_iff.2 ⟨hwidth, isNumeral_print width w.toNat, (value_print h).symm⟩

end Hex
end I8085
