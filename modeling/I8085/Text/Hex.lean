import I8085.Word

/-!
# Hexadecimal numerals

Numerals are printed with a fixed number of upper-case digits and read, in
either case, at a fixed number of digits.  There is no sign and no mark in front,
so the digits are the whole numeral.
-/

namespace I8085
namespace Hex

def digit (n : Nat) : Char :=
  if n < 10 then Char.ofNat (48 + n) else Char.ofNat (55 + n)

/-- The last `width` digits of a number, the most significant first. -/
def print : (width : Nat) → Nat → List Char
  | 0, _ => []
  | width + 1, n => print width (n / 16) ++ [digit (n % 16)]

/-- The value of a digit: `0` to `9`, `A` to `F` or `a` to `f`. -/
def digit? (c : Char) : Option Nat :=
  if '0' ≤ c ∧ c ≤ '9' then some (c.toNat - 48)
  else if 'A' ≤ c ∧ c ≤ 'F' then some (c.toNat - 55)
  else if 'a' ≤ c ∧ c ≤ 'f' then some (c.toNat - 87)
  else none

/-- The number that a row of digits continues, `acc` being what was read before. -/
def valueFrom? : Nat → List Char → Option Nat
  | acc, [] => some acc
  | acc, c :: rest =>
    match digit? c with
    | some d => valueFrom? (16 * acc + d) rest
    | none => none

/-- The word written by exactly `digits` digits, of which there is at least one.
A value that needs more than sixteen bits is refused. -/
def word? (digits : Nat) (text : List Char) : Option Word :=
  if text.length = digits ∧ text ≠ [] then
    match valueFrom? 0 text with
    | some n => if n < 65536 then some (BitVec.ofNat 16 n) else none
    | none => none
  else none

theorem print_length (width n : Nat) : (print width n).length = width := by
  induction width generalizing n with
  | zero => rfl
  | succ width ih => simp [print, ih]

theorem digit?_digit {n : Nat} (h : n < 16) : digit? (digit n) = some n := by
  have all : ∀ k : Fin 16, digit? (digit k) = some k.val := by decide
  exact all ⟨n, h⟩

theorem valueFrom?_append (acc : Nat) (s t : List Char) :
    valueFrom? acc (s ++ t) = (valueFrom? acc s).bind fun n => valueFrom? n t := by
  induction s generalizing acc with
  | nil => rfl
  | cons c rest ih =>
    simp only [List.cons_append, valueFrom?]
    cases digit? c with
    | none => rfl
    | some d => exact ih _

def word (w : Word) : String := String.ofList (print 4 w.toNat)

def byte (b : Byte) : String := String.ofList (print 2 b.toNat)

end Hex
end I8085
