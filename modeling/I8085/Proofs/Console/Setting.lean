import I8085.Console.Setting
import I8085.Proofs.Text.Counts
import I8085.Proofs.Text.Numerals

/-!
# What the options may say

For each kind of option there is a relation between its text and the answer to it: how the text is
written and the value it has, or what it lacks and the message that says so.  The rules of one
relation exclude each other and leave no text out, and so the relation is all that the reader of
that option does.

A text with several separators is cut at the first of them.  Of several faults the one is named
whose rule asks the least of the others: a byte is found wrong before its address, the beginning of
a range before its end.
-/

namespace I8085
namespace Console

/-! ## Texts and their answers

An answer is the value, or the message of the error with the text at fault.
-/

inductive AddressAnswer (text : String) : Except String Word → Prop
  | read {a : Word} : Hex.IsNumeral 4 text.toList → a.toNat = Hex.value text.toList →
      AddressAnswer text (.ok a)
  | notAddress : ¬Hex.IsNumeral 4 text.toList →
      AddressAnswer text (.error ("invalid address (4 hex digits): " ++ text))

/-- The byte is looked at before the address. -/
inductive CellAnswer : String → Except String (Word × Byte) → Prop
  | read {address value : String} {a : Word} {v : Byte} :
      Hex.IsNumeral 4 address.toList → a.toNat = Hex.value address.toList →
      Hex.IsNumeral 2 value.toList → v.toNat = Hex.value value.toList →
      CellAnswer (address ++ "=" ++ value) (.ok (a, v))
  | noSign {text : String} : '=' ∉ text.toList →
      CellAnswer text (.error ("expected ADDR=VAL: " ++ text))
  | notByte {address value : String} : '=' ∉ address.toList → ¬Hex.IsNumeral 2 value.toList →
      CellAnswer (address ++ "=" ++ value) (.error ("invalid byte (2 hex digits): " ++ value))
  | notAddress {address value : String} : '=' ∉ address.toList → Hex.IsNumeral 2 value.toList →
      ¬Hex.IsNumeral 4 address.toList →
      CellAnswer (address ++ "=" ++ value) (.error ("invalid address (4 hex digits): " ++ address))

inductive RangeAnswer : String → Except String (Word × Word) → Prop
  | read {first last : String} {a b : Word} :
      Hex.IsNumeral 4 first.toList → a.toNat = Hex.value first.toList →
      Hex.IsNumeral 4 last.toList → b.toNat = Hex.value last.toList →
      Hex.value first.toList ≤ Hex.value last.toList →
      RangeAnswer (first ++ ":" ++ last) (.ok (a, b))
  | noColon {text : String} : ':' ∉ text.toList →
      RangeAnswer text (.error ("expected FROM:TO: " ++ text))
  | notFirst {first last : String} : ':' ∉ first.toList → ¬Hex.IsNumeral 4 first.toList →
      RangeAnswer (first ++ ":" ++ last) (.error ("invalid address (4 hex digits): " ++ first))
  | notLast {first last : String} : Hex.IsNumeral 4 first.toList →
      ¬Hex.IsNumeral 4 last.toList →
      RangeAnswer (first ++ ":" ++ last) (.error ("invalid address (4 hex digits): " ++ last))
  | empty {first last : String} :
      Hex.IsNumeral 4 first.toList → Hex.IsNumeral 4 last.toList →
      Hex.value last.toList < Hex.value first.toList →
      RangeAnswer (first ++ ":" ++ last) (.error ("empty dump range: " ++ (first ++ ":" ++ last)))

inductive CountAnswer : String → Except String Nat → Prop
  | read {sign numeral : String} : sign = "" ∨ sign = "+" → Decimal.IsNumeral numeral.toList →
      Decimal.value numeral.toList ≤ 2 ^ 64 - 1 →
      CountAnswer (sign ++ numeral) (.ok (Decimal.value numeral.toList))
  | notCount {text : String} : ¬Decimal.IsCount text.toList →
      CountAnswer text (.error ("invalid step count: " ++ text))

/-! ## The parts of a text -/

section

variable {separator : Char} {s : List Char}

theorem not_mem_of_isNumeral {width : Nat} (hseparator : separator ∉ Hex.digits)
    (h : Hex.IsNumeral width s) : separator ∉ s := fun hmem => hseparator (h.2 separator hmem)

/-- A text with a separator has a part in front of the first one and a part behind it. -/
theorem exists_parts {text : String} (h : separator ∈ text.toList) :
    ∃ before after : String, separator ∉ before.toList ∧
      text = before ++ String.singleton separator ++ after := by
  cases hcut : Text.cut? separator text.toList with
  | none => exact absurd h (Text.cut?_eq_none_iff.1 hcut)
  | some parts =>
    obtain ⟨before, after⟩ := parts
    obtain ⟨htext, hbefore⟩ := Text.cut?_eq_some hcut
    refine ⟨String.ofList before, String.ofList after, ?_, ?_⟩
    · rwa [String.toList_ofList]
    · rw [← String.toList_inj, htext]
      simp

theorem cut?_parts {before : String} (after : String) (h : separator ∉ before.toList) :
    Text.cut? separator (before ++ String.singleton separator ++ after).toList =
      some (before.toList, after.toList) := by
  have chars : (before ++ String.singleton separator ++ after).toList =
      before.toList ++ separator :: after.toList := by simp
  rw [chars, Text.cut?_append _ h]

end

section

variable {s : List Char}

theorem addressOf_of_isNumeral {a : Word} (h : Hex.IsNumeral 4 s) (ha : a.toNat = Hex.value s) :
    Setting.addressOf s = .ok a := by
  rw [Setting.addressOf, Hex.word?_eq_some_iff.2 ⟨by decide, h, ha⟩]

theorem addressOf_of_not_isNumeral (h : ¬Hex.IsNumeral 4 s) :
    Setting.addressOf s = .error (.invalidAddress (String.ofList s)) := by
  rw [Setting.addressOf, Hex.word?_eq_none h]

theorem byteOf_of_isNumeral {v : Byte} (h : Hex.IsNumeral 2 s) (hv : v.toNat = Hex.value s) :
    Setting.byteOf s = .ok v := by
  have wide : (Word.ofByte v).toNat = v.toNat := by
    rw [Word.ofByte, Word.toNat_ofBytes]
    exact Nat.zero_add _
  have read : Hex.word? 2 s = some (Word.ofByte v) :=
    Hex.word?_eq_some_iff.2 ⟨by decide, h, wide.trans hv⟩
  rw [Setting.byteOf, read]
  exact congrArg Except.ok (Word.low_ofBytes 0 v)

theorem byteOf_of_not_isNumeral (h : ¬Hex.IsNumeral 2 s) :
    Setting.byteOf s = .error (.invalidByte (String.ofList s)) := by
  rw [Setting.byteOf, Hex.word?_eq_none h]

theorem exists_word (h : Hex.IsNumeral 4 s) : ∃ a : Word, a.toNat = Hex.value s :=
  ⟨BitVec.ofNat 16 (Hex.value s), Nat.mod_eq_of_lt (Hex.value_lt h)⟩

theorem exists_byte (h : Hex.IsNumeral 2 s) : ∃ v : Byte, v.toNat = Hex.value s :=
  ⟨BitVec.ofNat 8 (Hex.value s), Nat.mod_eq_of_lt (Hex.value_lt h)⟩

end

/-! ## Every text has an answer -/

theorem exists_addressAnswer (text : String) : ∃ answer, AddressAnswer text answer := by
  by_cases h : Hex.IsNumeral 4 text.toList
  · obtain ⟨a, ha⟩ := exists_word h
    exact ⟨_, .read h ha⟩
  · exact ⟨_, .notAddress h⟩

theorem exists_cellAnswer (text : String) : ∃ answer, CellAnswer text answer := by
  by_cases hsign : '=' ∈ text.toList
  · obtain ⟨address, value, hfirst, rfl⟩ := exists_parts hsign
    by_cases hvalue : Hex.IsNumeral 2 value.toList
    · by_cases haddress : Hex.IsNumeral 4 address.toList
      · obtain ⟨a, ha⟩ := exists_word haddress
        obtain ⟨v, hv⟩ := exists_byte hvalue
        exact ⟨_, .read haddress ha hvalue hv⟩
      · exact ⟨_, .notAddress hfirst hvalue haddress⟩
    · exact ⟨_, .notByte hfirst hvalue⟩
  · exact ⟨_, .noSign hsign⟩

theorem exists_rangeAnswer (text : String) : ∃ answer, RangeAnswer text answer := by
  by_cases hcolon : ':' ∈ text.toList
  · obtain ⟨first, last, hcut, rfl⟩ := exists_parts hcolon
    by_cases hfirst : Hex.IsNumeral 4 first.toList
    · by_cases hlast : Hex.IsNumeral 4 last.toList
      · rcases Nat.lt_or_ge (Hex.value last.toList) (Hex.value first.toList) with hlt | hle
        · exact ⟨_, .empty hfirst hlast hlt⟩
        · obtain ⟨a, ha⟩ := exists_word hfirst
          obtain ⟨b, hb⟩ := exists_word hlast
          exact ⟨_, .read hfirst ha hlast hb hle⟩
      · exact ⟨_, .notLast hfirst hlast⟩
    · exact ⟨_, .notFirst hcut hfirst⟩
  · exact ⟨_, .noColon hcolon⟩

theorem exists_countAnswer (text : String) : ∃ answer, CountAnswer text answer := by
  by_cases h : Decimal.IsCount text.toList
  · obtain ⟨sign, numeral, htext, hsign, hnumeral, hrange⟩ := h
    have parts : text = String.ofList sign ++ String.ofList numeral := by
      rw [← String.toList_inj, htext]
      simp
    have sign' : String.ofList sign = "" ∨ String.ofList sign = "+" := by
      rcases hsign with rfl | rfl
      · exact .inl rfl
      · exact .inr rfl
    rw [parts]
    exact ⟨_, .read sign' (by rwa [String.toList_ofList]) (by rwa [String.toList_ofList])⟩
  · exact ⟨_, .notCount h⟩

/-! ## The answers are those of the readers -/

/-- The answer of a reader as it is given: with the message if it fails. -/
def answerOf {α : Type} (result : Except SettingError α) : Except String α :=
  result.mapError SettingError.message

theorem answerOf_address {text : String} {answer : Except String Word}
    (h : AddressAnswer text answer) : answerOf (Setting.address text) = answer := by
  cases h with
  | read hnumeral ha =>
    rw [Setting.address, addressOf_of_isNumeral hnumeral ha]
    rfl
  | notAddress hnumeral =>
    rw [Setting.address, addressOf_of_not_isNumeral hnumeral, String.ofList_toList]
    rfl

theorem cell_of_parts {address : String} (value : String) (h : '=' ∉ address.toList) :
    Setting.cell (address ++ "=" ++ value) =
      (do
        let v ← Setting.byteOf value.toList
        let a ← Setting.addressOf address.toList
        return (a, v)) := by
  have cut : Text.cut? '=' (address ++ "=" ++ value).toList =
      some (address.toList, value.toList) := cut?_parts value h
  rw [Setting.cell, cut]

theorem answerOf_cell {text : String} {answer : Except String (Word × Byte)}
    (h : CellAnswer text answer) : answerOf (Setting.cell text) = answer := by
  cases h with
  | @read address value a v haddress ha hvalue hv =>
    have hfirst : '=' ∉ address.toList := not_mem_of_isNumeral (by decide) haddress
    rw [cell_of_parts value hfirst, byteOf_of_isNumeral hvalue hv,
      addressOf_of_isNumeral haddress ha]
    rfl
  | noSign hsign =>
    rw [Setting.cell, Text.cut?_eq_none_iff.2 hsign]
    rfl
  | @notByte address value hfirst hvalue =>
    rw [cell_of_parts value hfirst, byteOf_of_not_isNumeral hvalue, String.ofList_toList]
    rfl
  | @notAddress address value hfirst hvalue haddress =>
    obtain ⟨v, hv⟩ := exists_byte hvalue
    rw [cell_of_parts value hfirst, byteOf_of_isNumeral hvalue hv,
      addressOf_of_not_isNumeral haddress, String.ofList_toList]
    rfl

theorem range_of_parts {first : String} (last : String) (h : ':' ∉ first.toList) :
    Setting.range (first ++ ":" ++ last) =
      (do
        let a ← Setting.addressOf first.toList
        let b ← Setting.addressOf last.toList
        if a ≤ b then return (a, b) else .error (.emptyRange (first ++ ":" ++ last))) := by
  have cut : Text.cut? ':' (first ++ ":" ++ last).toList = some (first.toList, last.toList) :=
    cut?_parts last h
  rw [Setting.range, cut]

/-- Two addresses that can be read are a range if the second is not below the first. -/
theorem range_of_addresses {first last : String} {a b : Word}
    (hfirst : Hex.IsNumeral 4 first.toList) (ha : a.toNat = Hex.value first.toList)
    (hlast : Hex.IsNumeral 4 last.toList) (hb : b.toNat = Hex.value last.toList) :
    Setting.range (first ++ ":" ++ last) =
      if Hex.value first.toList ≤ Hex.value last.toList then .ok (a, b)
      else .error (.emptyRange (first ++ ":" ++ last)) := by
  have order : a ≤ b ↔ Hex.value first.toList ≤ Hex.value last.toList := by
    rw [BitVec.le_def, ha, hb]
  rw [range_of_parts last (not_mem_of_isNumeral (by decide) hfirst),
    addressOf_of_isNumeral hfirst ha, addressOf_of_isNumeral hlast hb, ← if_congr order rfl rfl]
  rfl

theorem answerOf_range {text : String} {answer : Except String (Word × Word)}
    (h : RangeAnswer text answer) : answerOf (Setting.range text) = answer := by
  cases h with
  | read hfirst ha hlast hb hle =>
    rw [range_of_addresses hfirst ha hlast hb, if_pos hle]
    rfl
  | noColon hcolon =>
    rw [Setting.range, Text.cut?_eq_none_iff.2 hcolon]
    rfl
  | @notFirst first last hcut hfirst =>
    rw [range_of_parts last hcut, addressOf_of_not_isNumeral hfirst, String.ofList_toList]
    rfl
  | @notLast first last hfirst hlast =>
    obtain ⟨a, ha⟩ := exists_word hfirst
    have hcut : ':' ∉ first.toList := not_mem_of_isNumeral (by decide) hfirst
    rw [range_of_parts last hcut, addressOf_of_isNumeral hfirst ha,
      addressOf_of_not_isNumeral hlast, String.ofList_toList]
    rfl
  | empty hfirst hlast hlt =>
    obtain ⟨a, ha⟩ := exists_word hfirst
    obtain ⟨b, hb⟩ := exists_word hlast
    rw [range_of_addresses hfirst ha hlast hb, if_neg (Nat.not_le_of_lt hlt)]
    rfl

theorem answerOf_stepCount {text : String} {answer : Except String Nat}
    (h : CountAnswer text answer) : answerOf (Setting.stepCount text) = answer := by
  cases h with
  | @read sign numeral hsign hnumeral hrange =>
    have chars : sign.toList = [] ∨ sign.toList = ['+'] := by
      rcases hsign with rfl | rfl
      · exact .inl rfl
      · exact .inr rfl
    rw [Setting.stepCount, String.toList_append, Decimal.count?_append chars hnumeral hrange]
    rfl
  | notCount hcount =>
    rw [Setting.stepCount, Decimal.count?_eq_none hcount]
    rfl

/-- The rules of an option are all that its reader does, as every text has an answer and each rule
gives the reader's. -/
theorem eq_iff_of_exists {α : Type} {read : String → Except String α}
    {Answer : String → Except String α → Prop} (total : ∀ text, ∃ answer, Answer text answer)
    (sound : ∀ {text answer}, Answer text answer → read text = answer) (text : String)
    (answer : Except String α) : read text = answer ↔ Answer text answer := by
  constructor
  · rintro rfl
    obtain ⟨answer, h⟩ := total text
    rwa [sound h]
  · exact sound

/-- Each option is read as its rules say, for every text: it accepts what they accept, with the
value that is written, and refuses the rest with the first fault and the text at fault. -/
theorem settings_answer_iff :
    (∀ text answer, (Setting.address text).mapError SettingError.message = answer ↔
      AddressAnswer text answer) ∧
    (∀ text answer, (Setting.cell text).mapError SettingError.message = answer ↔
      CellAnswer text answer) ∧
    (∀ text answer, (Setting.range text).mapError SettingError.message = answer ↔
      RangeAnswer text answer) ∧
    ∀ text answer, (Setting.stepCount text).mapError SettingError.message = answer ↔
      CountAnswer text answer :=
  ⟨eq_iff_of_exists exists_addressAnswer answerOf_address,
    eq_iff_of_exists exists_cellAnswer answerOf_cell,
    eq_iff_of_exists exists_rangeAnswer answerOf_range,
    eq_iff_of_exists exists_countAnswer answerOf_stepCount⟩

example : Setting.cell "C050=9=6" = .error (.invalidByte "9=6") := by cbv

example : Setting.stepCount "+0018446744073709551615" = .ok 18446744073709551615 := rfl

end Console
end I8085
