import I8085.Word

/-!
# Decimal counts

A count of instructions is written in ASCII digits, with or without a plus sign
in front, and fits in sixty-four bits.
-/

namespace I8085
namespace Decimal

/-- The number that a row of digits continues, `acc` being what was read before. -/
def valueFrom? : Nat → List Char → Option Nat
  | acc, [] => some acc
  | acc, c :: rest =>
    if '0' ≤ c ∧ c ≤ '9' then valueFrom? (10 * acc + (c.toNat - 48)) rest else none

/-- The text without the plus sign it may begin with. -/
def unsigned : List Char → List Char
  | '+' :: rest => rest
  | s => s

/-- The count a text writes: at least one digit, leading zeros allowed, below the
counter's range. -/
def count? (text : List Char) : Option Nat :=
  match unsigned text with
  | [] => none
  | digits =>
    match valueFrom? 0 digits with
    | some n => if n < countRange then some n else none
    | none => none

end Decimal
end I8085
