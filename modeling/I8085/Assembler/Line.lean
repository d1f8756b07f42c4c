import I8085.Assembler.Error
import I8085.Instruction
import I8085.Text.Blank
import I8085.Text.Fields

/-!
# Reading a line

A line is a mnemonic, white space, and operands separated by a comma.  The
mnemonic and the operands together select an entry of the opcode chart; a literal
operand is looked at only then, so a bad literal is reported after a bad mnemonic
and after operands of the wrong kind.
-/

namespace I8085
namespace Assembler

def reservedNames : List String := ["B", "C", "D", "E", "H", "L", "M", "A", "SP", "PSW"]

def isReserved (token : List Char) : Bool := reservedNames.any fun name => name.toList == token

/-- The operands of a text: none if it is blank, else one or two, none of them
empty. -/
def operands (s : List Char) : Except AsmError (List (List Char)) :=
  match Text.trim s with
  | [] => .ok []
  | trimmed =>
    let tokens := (Text.fields ',' trimmed).map Text.trim
    if tokens.length ≤ 2 ∧ [] ∉ tokens then .ok tokens else .error .invalidOperand

/-- Whether a token can stand in a slot.  A literal slot takes whatever is not a
reserved name. -/
def accepts (slot : Slot) (token : List Char) : Bool :=
  match slot with
  | .reg r => r.name.toList == token
  | .pair p => p.name.toList == token
  | .vector n => [Hex.digit n] == token
  | .data8 | .data16 | .address => !isReserved token

def fits : List Slot → List (List Char) → Bool
  | [], [] => true
  | slot :: slots, token :: tokens => accepts slot token && fits slots tokens
  | _, _ => false

def named (mnemonic : String) : List Entry :=
  Entry.all.filter fun entry => entry.mnemonic == mnemonic

def resolve (mnemonic : String) (tokens : List (List Char)) : Except AsmError Entry :=
  match named mnemonic with
  | [] => .error .unknownMnemonic
  | entries =>
    match entries.find? fun entry => fits entry.slots tokens with
    | some entry => .ok entry
    | none => .error .invalidOperand

/-- The literal among the tokens, zero if no slot is one.  A byte has two digits
and a word four. -/
def literal : List Slot → List (List Char) → Except AsmError Word
  | slot :: slots, token :: tokens =>
    if slot.isLiteral then
      match Hex.word? (2 * slot.width) token with
      | some value => .ok value
      | none => .error (.malformedImmediate (2 * slot.width))
    else literal slots tokens
  | _, _ => .ok 0

def assembleParts (mnemonic : String) (operandText : List Char) :
    Except AsmError Instruction := do
  let tokens ← operands operandText
  let entry ← resolve mnemonic tokens
  let data ← literal entry.slots tokens
  return { entry, data }

/-- The entry that a mnemonic and its operand text select, whatever the digits of
the literal. -/
def lookup (mnemonic operandText : String) : Except AsmError Entry := do
  resolve mnemonic (← operands operandText.toList)

/-- The instruction that a line stands for. -/
def encode (line : String) : Except AsmError Instruction :=
  let trimmed := Text.trim line.toList
  assembleParts (String.ofList (Text.firstWord trimmed)) (Text.afterFirstWord trimmed)

end Assembler
end I8085
