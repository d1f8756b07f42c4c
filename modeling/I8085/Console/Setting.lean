import I8085.Text.Decimal
import I8085.Text.Fields
import I8085.Text.Hex

/-!
# Settings

The values that options of the command line take: addresses, cells to seed,
ranges to show and limits on the number of steps.  Each is refused with the part
of it that was wrong; where two parts are, the first in the order of the checks
is named.
-/

namespace I8085
namespace Console

/-- A setting that could not be read, with the text at fault. -/
inductive SettingError
  | invalidAddress (text : String)
  | cellExpected (text : String)
  | invalidByte (text : String)
  | rangeExpected (text : String)
  | emptyRange (text : String)
  | invalidCount (text : String)
deriving DecidableEq

def SettingError.message : SettingError → String
  | invalidAddress text => "invalid address (4 hex digits): " ++ text
  | cellExpected text => "expected ADDR=VAL: " ++ text
  | invalidByte text => "invalid byte (2 hex digits): " ++ text
  | rangeExpected text => "expected FROM:TO: " ++ text
  | emptyRange text => "empty dump range: " ++ text
  | invalidCount text => "invalid step count: " ++ text

namespace Setting

def addressOf (text : List Char) : Except SettingError Word :=
  match Hex.word? 4 text with
  | some address => .ok address
  | none => .error (.invalidAddress (String.ofList text))

def byteOf (text : List Char) : Except SettingError Byte :=
  match Hex.word? 2 text with
  | some value => .ok (Word.low value)
  | none => .error (.invalidByte (String.ofList text))

def address (text : String) : Except SettingError Word := addressOf text.toList

/-- An address and a byte around the first equals sign.  The byte is read before
the address. -/
def cell (text : String) : Except SettingError (Word × Byte) :=
  match Text.cut? '=' text.toList with
  | none => .error (.cellExpected text)
  | some (before, after) => do
    let value ← byteOf after
    let address ← addressOf before
    return (address, value)

/-- Two addresses around the first colon, the second not below the first. -/
def range (text : String) : Except SettingError (Word × Word) :=
  match Text.cut? ':' text.toList with
  | none => .error (.rangeExpected text)
  | some (before, after) => do
    let first ← addressOf before
    let last ← addressOf after
    if first ≤ last then return (first, last) else .error (.emptyRange text)

def stepCount (text : String) : Except SettingError Nat :=
  match Decimal.count? text.toList with
  | some count => .ok count
  | none => .error (.invalidCount text)

def optional {α : Type} (read : String → Except SettingError α) :
    Option String → Except SettingError (Option α)
  | none => .ok none
  | some text => (read text).map some

end Setting
end Console
end I8085
