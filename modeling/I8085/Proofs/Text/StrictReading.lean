import I8085.Proofs.Text.Numerals

/-!
# Strict reading

A numeral is read from a text of any characters and at any width.  What is read is a word, so the
digits in front of the last four are zeros; no sign, no mark and no white space is passed over, and
a letter is the same digit in either case.

A text is stored as bytes, a character beyond the first 128 as several of them, and its length is
the number of its bytes.  The reader of bytes makes a word digit by digit and gives up as soon as
sixteen bits do not suffice.  It says the same as the reader of characters, which looks at the
number at the end.
-/

namespace I8085
namespace Hex

variable {s : List Char} {width v : Nat}

/-! ## Digits in front -/

theorem valueFrom_eq (acc : Nat) (s : List Char) :
    valueFrom acc s = 16 ^ s.length * acc + value s := by
  induction s generalizing acc with
  | nil => simp [valueFrom, value]
  | cons c rest ih =>
    calc valueFrom acc (c :: rest)
      _ = 16 ^ rest.length * (16 * acc + digitValue c) + value rest := ih _
      _ = 16 ^ (c :: rest).length * acc +
            (16 ^ rest.length * (16 * 0 + digitValue c) + value rest) := by
        rw [List.length_cons, Nat.pow_succ, Nat.mul_zero, Nat.zero_add, Nat.mul_add, Nat.mul_assoc,
          Nat.add_assoc]
      _ = 16 ^ (c :: rest).length * acc + value (c :: rest) := by
        rw [← ih]
        rfl

theorem value_append (s t : List Char) : value (s ++ t) = 16 ^ t.length * value s + value t := by
  rw [value, valueFrom, List.foldl_append]
  exact valueFrom_eq _ t

theorem value_cons (c : Char) (rest : List Char) :
    value (c :: rest) = 16 ^ rest.length * digitValue c + value rest := by
  have one : value [c] = digitValue c := Nat.zero_add _
  rw [← one, ← value_append, List.singleton_append]

theorem eq_zero_of_digitValue {c : Char} (h : c ∈ digits) (hvalue : digitValue c = 0) :
    c = '0' := by
  have all : digits.all (fun c => decide (digitValue c = 0 → c = '0')) = true := by decide
  exact of_decide_eq_true (List.all_eq_true.1 all c h) hvalue

theorem value_replicate_zero (n : Nat) : value (List.replicate n '0') = 0 := by
  induction n with
  | zero => rfl
  | succ n ih => exact ih

/-- Only zeros write zero. -/
theorem eq_replicate_of_value_eq_zero (h : ∀ c ∈ s, c ∈ digits) (hvalue : value s = 0) :
    s = List.replicate s.length '0' := by
  induction s with
  | nil => rfl
  | cons c rest ih =>
    rw [List.forall_mem_cons] at h
    rw [value_cons, Nat.add_eq_zero_iff, Nat.mul_eq_zero] at hvalue
    have first : digitValue c = 0 := hvalue.1.resolve_left (Nat.ne_of_gt (Nat.pow_pos (by decide)))
    rw [List.length_cons, List.replicate_succ, ← ih h.2 hvalue.2, eq_zero_of_digitValue h.1 first]

theorem IsNumeral.append {m n : Nat} {t : List Char} (hs : IsNumeral m s) (ht : IsNumeral n t) :
    IsNumeral (m + n) (s ++ t) :=
  ⟨by rw [List.length_append, hs.1, ht.1], List.forall_mem_append.2 ⟨hs.2, ht.2⟩⟩

/-- A numeral is cut into two at any place. -/
theorem IsNumeral.exists_append {m n : Nat} (h : IsNumeral (m + n) s) :
    ∃ front back, s = front ++ back ∧ IsNumeral m front ∧ IsNumeral n back := by
  refine ⟨s.take m, s.drop m, (List.take_append_drop m s).symm,
    ⟨?_, fun c hc => h.2 c (List.mem_of_mem_take hc)⟩,
    ⟨?_, fun c hc => h.2 c (List.mem_of_mem_drop hc)⟩⟩
  · rw [List.length_take, h.1, Nat.min_eq_left (Nat.le_add_right m n)]
  · rw [List.length_drop, h.1, Nat.add_sub_cancel_left]

/-- A numeral with digits in front of four writes a word exactly if these are zeros, and then it
writes what the four do. -/
theorem isNumeral_iff_padded (surplus : Nat) :
    IsNumeral (surplus + 4) s ∧ value s ≤ 65535 ∧ v = value s ↔
      ∃ numeral, s = List.replicate surplus '0' ++ numeral ∧ IsNumeral 4 numeral ∧
        v = value numeral := by
  constructor
  · rintro ⟨hnumeral, hsmall, rfl⟩
    obtain ⟨front, back, rfl, hfront, hback⟩ := hnumeral.exists_append
    rw [value_append, hback.1] at hsmall ⊢
    have nothing : value front = 0 := by omega
    have zeros := eq_replicate_of_value_eq_zero hfront.2 nothing
    rw [hfront.1] at zeros
    rw [nothing, Nat.mul_zero, Nat.zero_add]
    exact ⟨back, congrArg (· ++ back) zeros, hback, rfl⟩
  · rintro ⟨numeral, rfl, hnumeral, rfl⟩
    rw [value_append, value_replicate_zero, Nat.mul_zero, Nat.zero_add]
    exact ⟨(isNumeral_replicate_zero surplus).append hnumeral,
      Nat.le_of_lt_succ (value_lt hnumeral), rfl⟩

/-! ## The number that is read -/

/-- The number that is read is the one the digits write, if a word can be it. -/
theorem map_toNat_word?_eq_some_iff :
    (word? width s).map BitVec.toNat = some v ↔
      1 ≤ width ∧ IsNumeral width s ∧ value s ≤ 65535 ∧ v = value s := by
  rw [Option.map_eq_some_iff]
  constructor
  · rintro ⟨w, hw, rfl⟩
    obtain ⟨hpos, hnumeral, hvalue⟩ := word?_eq_some_iff.1 hw
    exact ⟨hpos, hnumeral, hvalue ▸ Nat.le_of_lt_succ w.isLt, hvalue⟩
  · rintro ⟨hpos, hnumeral, hsmall, rfl⟩
    have room : (BitVec.ofNat 16 (value s)).toNat = value s := by
      rw [BitVec.toNat_ofNat, Nat.mod_eq_of_lt (Nat.lt_succ_of_le hsmall)]
    exact ⟨BitVec.ofNat 16 (value s), word?_eq_some_iff.2 ⟨hpos, hnumeral, room⟩, room⟩

/-- A number printed at a width that a word can fill is read back. -/
theorem map_toNat_word?_print (hpos : 1 ≤ width) (hwidth : width ≤ 4) (h : v < 16 ^ width) :
    (word? width (print width v)).map BitVec.toNat = some v := by
  have small : v < 16 ^ 4 := Nat.lt_of_lt_of_le h (Nat.pow_le_pow_right (by decide) hwidth)
  rw [map_toNat_word?_eq_some_iff, value_print h]
  exact ⟨hpos, isNumeral_print width v, Nat.le_of_lt_succ small, rfl⟩

/-! ## The case of letters -/

theorem toLower_of_le {c : Char} (h : 128 ≤ c.toNat) : c.toLower = c := by
  have beyond : ¬(c.val ≥ 'A'.val ∧ c.val ≤ 'Z'.val) := by
    rintro ⟨-, hle⟩
    have : c.toNat ≤ 90 := hle
    omega
  exact dif_neg beyond

theorem digit?_toLower (c : Char) : digit? c.toLower = digit? c := by
  by_cases h : c.toNat < 128
  · have ascii : ∀ n < 128, digit? (Char.ofNat n).toLower = digit? (Char.ofNat n) := by decide
    have := ascii c.toNat h
    rwa [Char.ofNat_toNat] at this
  · rw [toLower_of_le (Nat.le_of_not_lt h)]

theorem valueFrom?_map_toLower (acc : Nat) (s : List Char) :
    valueFrom? acc (s.map Char.toLower) = valueFrom? acc s := by
  induction s generalizing acc with
  | nil => rfl
  | cons c rest ih =>
    rw [List.map_cons, valueFrom?, valueFrom?, digit?_toLower]
    cases digit? c with
    | none => rfl
    | some d => exact ih _

/-- A text is read as its lower-case form is. -/
theorem word?_map_toLower (width : Nat) (s : List Char) :
    word? width (s.map Char.toLower) = word? width s := by
  simp only [word?, List.length_map, valueFrom?_map_toLower, ne_eq, List.map_eq_nil_iff]

/-! ## Reading the bytes -/

/-- The word that is a number, if there is one. -/
def toWord? (n : Nat) : Option Word := if n < 65536 then some (BitVec.ofNat 16 n) else none

/-- A word with one more digit behind it.  The product and then the sum are made in sixteen bits,
and neither may go over. -/
def extend? (w d : Word) : Option Word :=
  if w.umulOverflow 16 then none
  else if (w * 16).uaddOverflow d then none
  else some (w * 16 + d)

/-- The word that a row of bytes continues, `w` being what was read before.  A byte is read as the
character of its number. -/
def wordFrom? : Word → List UInt8 → Option Word
  | w, [] => some w
  | w, b :: rest =>
    (digit? (Char.ofUInt8 b)).bind fun d =>
      (extend? w (BitVec.ofNat 16 d)).bind fun next => wordFrom? next rest

def bytes (text : String) : List UInt8 := text.toUTF8.data.toList

/-- The word written by a text of exactly `width` bytes, of which there is at least one. -/
def wordOfBytes? (width : Nat) (text : String) : Option Word :=
  if (bytes text).length = width ∧ bytes text ≠ [] then wordFrom? 0 (bytes text) else none

theorem bytes_eq_flatMap (text : String) :
    bytes text = text.toList.flatMap String.utf8EncodeChar := by
  rw [bytes, String.toUTF8_eq_toByteArray, ← String.utf8Encode_toList]
  exact List.toList_data_toByteArray

/-! ### One digit -/

theorem toWord?_toNat (w : Word) : toWord? w.toNat = some w := by
  rw [toWord?, if_pos w.isLt, BitVec.ofNat_toNat, BitVec.setWidth_eq]

theorem toWord?_of_le {n : Nat} (h : 65536 ≤ n) : toWord? n = none := if_neg (Nat.not_lt_of_le h)

/-- Neither the product nor the sum goes over exactly if the number is a word. -/
theorem extend?_eq_toWord? (w : Word) {d : Nat} (hd : d < 16) :
    extend? w (BitVec.ofNat 16 d) = toWord? (16 * w.toNat + d) := by
  have digit : (BitVec.ofNat 16 d).toNat = d := by
    rw [BitVec.toNat_ofNat]
    omega
  unfold extend?
  split
  · next too_big =>
    have : 65536 ≤ w.toNat * 16 := of_decide_eq_true too_big
    rw [toWord?_of_le (by omega)]
  · next product_fits =>
    have product : (w * 16).toNat = w.toNat * 16 :=
      BitVec.toNat_mul_of_not_umulOverflow product_fits
    split
    · next too_big =>
      have : 65536 ≤ (w * 16).toNat + (BitVec.ofNat 16 d).toNat := of_decide_eq_true too_big
      rw [toWord?_of_le (by omega)]
    · next sum_fits =>
      have sum : (w * 16 + BitVec.ofNat 16 d).toNat = 16 * w.toNat + d := by
        rw [BitVec.toNat_add_of_not_uaddOverflow sum_fits, product, digit, Nat.mul_comm]
      rw [← sum, toWord?_toNat]

theorem digit?_lt {c : Char} {d : Nat} (h : digit? c = some d) : d < 16 := by
  have hc := mem_digits_of_digit? h
  rw [digit?_of_mem hc, Option.some.injEq] at h
  exact h ▸ digitValue_lt hc

/-! ### One character -/

theorem digit?_of_le {c : Char} (h : 128 ≤ c.toNat) : digit? c = none := by
  cases hd : digit? c with
  | none => rfl
  | some d =>
    have := digit?_cases hd
    omega

theorem toNat_ofUInt8 (b : UInt8) : (Char.ofUInt8 b).toNat = b.toNat := UInt8.toNat_toUInt32 b

theorem utf8EncodeChar_of_lt {c : Char} (h : c.toNat < 128) :
    String.utf8EncodeChar c = [UInt8.ofNat c.toNat] := if_pos (Nat.le_of_lt_succ h)

/-- The first byte of a character that needs several is no number of a digit. -/
theorem exists_utf8EncodeChar_of_le {c : Char} (h : 128 ≤ c.toNat) :
    ∃ b rest, String.utf8EncodeChar c = b :: rest ∧ 128 ≤ b.toNat := by
  have beyond : ¬c.val.toNat ≤ 127 := Nat.not_le_of_lt h
  simp only [String.utf8EncodeChar, if_neg beyond]
  split
  · refine ⟨_, _, rfl, ?_⟩
    rw [UInt8.toNat_ofNat']
    omega
  · split <;>
    · refine ⟨_, _, rfl, ?_⟩
      rw [UInt8.toNat_ofNat']
      omega

/-- The bytes of a character are read as the character is. -/
theorem wordFrom?_utf8EncodeChar (w : Word) (c : Char) (rest : List UInt8) :
    wordFrom? w (String.utf8EncodeChar c ++ rest) =
      (digit? c).bind fun d =>
        (extend? w (BitVec.ofNat 16 d)).bind fun next => wordFrom? next rest := by
  by_cases h : c.toNat < 128
  · have whole : Char.ofUInt8 (UInt8.ofNat c.toNat) = c := by
      apply Char.toNat_inj.1
      rw [toNat_ofUInt8, UInt8.toNat_ofNat', Nat.mod_eq_of_lt (Nat.lt_trans h (by decide))]
    rw [utf8EncodeChar_of_lt h, List.singleton_append, wordFrom?, whole]
  · have several : 128 ≤ c.toNat := Nat.le_of_not_lt h
    obtain ⟨b, others, hbytes, hb⟩ := exists_utf8EncodeChar_of_le several
    rw [hbytes, List.cons_append, wordFrom?, digit?_of_le ((toNat_ofUInt8 b).symm ▸ hb),
      digit?_of_le several]
    rfl

/-! ### The whole text -/

theorem le_of_valueFrom? {acc n : Nat} (h : valueFrom? acc s = some n) : acc ≤ n := by
  have scaled : acc ≤ 16 ^ s.length * acc := Nat.le_mul_of_pos_left acc (Nat.pow_pos (by decide))
  rw [(valueFrom?_eq_some_iff.1 h).2, valueFrom_eq]
  omega

/-- What is over stays over. -/
theorem valueFrom?_bind_toWord?_of_le {acc : Nat} (h : 65536 ≤ acc) :
    (valueFrom? acc s).bind toWord? = none := by
  cases hn : valueFrom? acc s with
  | none => rfl
  | some n => exact toWord?_of_le (Nat.le_trans h (le_of_valueFrom? hn))

/-- To look at each step whether it goes over and to look once at the end is the same. -/
theorem wordFrom?_flatMap (w : Word) (s : List Char) :
    wordFrom? w (s.flatMap String.utf8EncodeChar) = (valueFrom? w.toNat s).bind toWord? := by
  -- a word that goes over has no successor here, and there a number that the rest only makes larger
  induction s generalizing w with
  | nil => exact (toWord?_toNat w).symm
  | cons c rest ih =>
    rw [List.flatMap_cons, wordFrom?_utf8EncodeChar, valueFrom?]
    cases hd : digit? c with
    | none => rfl
    | some d =>
      show (extend? w (BitVec.ofNat 16 d)).bind _ =
        (valueFrom? (16 * w.toNat + d) rest).bind toWord?
      rw [extend?_eq_toWord? w (digit?_lt hd)]
      by_cases hfits : 16 * w.toNat + d < 65536
      · have next : (BitVec.ofNat 16 (16 * w.toNat + d)).toNat = 16 * w.toNat + d := by
          rw [BitVec.toNat_ofNat, Nat.mod_eq_of_lt hfits]
        rw [toWord?, if_pos hfits, Option.bind_some, ih, next]
      · rw [toWord?_of_le (Nat.le_of_not_lt hfits),
          valueFrom?_bind_toWord?_of_le (Nat.le_of_not_lt hfits)]
        rfl

theorem length_flatMap_of_digits (h : ∀ c ∈ s, c ∈ digits) :
    (s.flatMap String.utf8EncodeChar).length = s.length := by
  induction s with
  | nil => rfl
  | cons c rest ih =>
    rw [List.forall_mem_cons] at h
    have ascii : c.toNat < 128 := by
      have := digit?_cases (digit?_of_mem h.1)
      omega
    rw [List.flatMap_cons, utf8EncodeChar_of_lt ascii, List.singleton_append, List.length_cons,
      List.length_cons, ih h.2]

theorem wordOfBytes?_eq_word? (width : Nat) (text : String) :
    wordOfBytes? width text = word? width text.toList := by
  have read : wordFrom? 0 (bytes text) = (valueFrom? 0 text.toList).bind toWord? := by
    rw [bytes_eq_flatMap]
    exact wordFrom?_flatMap 0 text.toList
  rw [wordOfBytes?, read]
  by_cases h : ∀ c ∈ text.toList, c ∈ digits
  · have hlen : (bytes text).length = text.toList.length := by
      rw [bytes_eq_flatMap, length_flatMap_of_digits h]
    have nonempty : bytes text ≠ [] ↔ text.toList ≠ [] := by
      rw [← List.length_pos_iff, hlen, List.length_pos_iff]
    simp only [hlen, nonempty, word?]
    cases valueFrom? 0 text.toList <;> rfl
  · have unread : valueFrom? 0 text.toList = none :=
      Option.eq_none_iff_forall_ne_some.2 fun n hn => h (valueFrom?_eq_some_iff.1 hn).1
    rw [unread, Option.bind_none, ite_self, word?_eq_none fun hnumeral => h hnumeral.2]

/-- Reading at a width is strict.  The reader of bytes, which counts bytes and has sixteen bits to
work with, agrees with the reader of characters on every text.  A number is read exactly if the text
has as many characters as the width, at least one, and all of them are digits, and the number is the
one they write and no more than sixteen bits hold; what is printed in up to four digits is read
back, in capitals or not; and at a width above four the surplus digits in front are zeros. -/
theorem strict_reading (width : Nat) (text : String) :
    wordOfBytes? width text = word? width text.toList ∧
    (∀ v, (word? width text.toList).map BitVec.toNat = some v ↔
      1 ≤ width ∧ IsNumeral width text.toList ∧ value text.toList ≤ 65535 ∧
        v = value text.toList) ∧
    (1 ≤ width → width ≤ 4 → ∀ v < 16 ^ width,
      (word? width (print width v)).map BitVec.toNat = some v ∧
      (word? width ((print width v).map Char.toLower)).map BitVec.toNat = some v) ∧
    (4 < width → ∀ v, (word? width text.toList).map BitVec.toNat = some v ↔
      ∃ numeral, text.toList = List.replicate (width - 4) '0' ++ numeral ∧ IsNumeral 4 numeral ∧
        v = value numeral) := by
  refine ⟨wordOfBytes?_eq_word? width text, fun v => map_toNat_word?_eq_some_iff,
    fun hpos hwidth v hv => ?_, fun hwidth v => ?_⟩
  · rw [word?_map_toLower]
    exact ⟨map_toNat_word?_print hpos hwidth hv, map_toNat_word?_print hpos hwidth hv⟩
  · obtain ⟨surplus, rfl⟩ := Nat.exists_eq_add_of_le' (Nat.le_of_lt hwidth)
    rw [map_toNat_word?_eq_some_iff, and_iff_right (Nat.le_add_left 1 (surplus + 3)),
      Nat.add_sub_cancel]
    exact isNumeral_iff_padded surplus

/-- A character of two bytes is no numeral of two digits, `C5` and `c5` are the same byte, and six
digits are read behind two zeros. -/
theorem strict_reading_at_three_widths :
    wordOfBytes? 2 "é" = none ∧
    (1 ≤ 2 ∧ 2 ≤ 4 ∧ 0xC5 < 16 ^ 2 ∧
      (word? 2 "C5".toList).map BitVec.toNat = some 0xC5 ∧
      (word? 2 "c5".toList).map BitVec.toNat = some 0xC5) ∧
    (4 < 6 ∧ (word? 6 "00c05A".toList).map BitVec.toNat = some 0xC05A) := by
  have multibyte := (strict_reading 2 "é").1
  have printed := (strict_reading 2 "C5").2.2.1 (by decide) (by decide) 0xC5 (by decide)
  have padded := (strict_reading 6 "00c05A").2.2.2 (by decide) 0xC05A
  have four := valueFrom?_eq_some_iff.1 (by decide : valueFrom? 0 "c05A".toList = some 0xC05A)
  exact ⟨multibyte.trans (by decide), ⟨by decide, by decide, by decide, printed⟩, by decide,
    padded.2 ⟨"c05A".toList, by decide, ⟨by decide, four.1⟩, four.2⟩⟩

end Hex
end I8085
