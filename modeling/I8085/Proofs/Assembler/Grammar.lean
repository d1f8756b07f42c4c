import I8085.Proofs.Assembler.Encode
import I8085.Proofs.Text.Words
import Mathlib.Data.List.Forall2

/-!
# The grammar of a line

The lines that stand for an instruction are described here by how they are
written: a mnemonic of the chart, its operands in their slots, and white space
where it is allowed.  `encode` accepts these lines and no others, and an accepted
line is encoded as its entry's opcode followed by its literal, low byte first.

A line without white space at its ends has one of three layouts.  White space has to stand behind
the mnemonic if an operand follows, and may stand on either side of the comma.
-/

namespace I8085
namespace Assembler

inductive Layout (name : List Char) : List (List Char) → List Char → Prop
  | bare : Layout name [] name
  | one {w t : List Char} : Text.Blank w → w ≠ [] → Layout name [t] (name ++ (w ++ t))
  | two {w t u v t' : List Char} : Text.Blank w → w ≠ [] → Text.Blank u → Text.Blank v →
      Layout name [t, t'] (name ++ (w ++ (t ++ (u ++ ',' :: v ++ t'))))

/-- What can be written in a slot: a name in upper case, the digit of a vector, or a numeral of two
digits for each byte. -/
def Fills : Slot → List Char → Prop
  | .reg r, t => t = r.name.toList
  | .pair p, t => t = p.name.toList
  | .vector n, t => t = (Nat.repr n).toList
  | .data8, t => Hex.IsNumeral 2 t
  | .data16, t => Hex.IsNumeral 4 t
  | .address, t => Hex.IsNumeral 4 t

/-- The line is written with the entry's mnemonic and the given operands, one for each slot. -/
structure Spells (entry : Entry) (tokens : List (List Char)) (line : List Char) : Prop where
  layout : ∃ before body after, Text.Blank before ∧ Text.Blank after ∧
    line = before ++ body ++ after ∧ Layout entry.mnemonic.toList tokens body
  operands : List.Forall₂ Fills entry.slots tokens

/-! ## Tokens -/

/-- Text that the comma and the blanks leave whole. -/
def IsToken (t : List Char) : Prop := Text.Solid t ∧ t ≠ [] ∧ ',' ∉ t

instance : DecidablePred IsToken :=
  fun t => inferInstanceAs (Decidable (Text.Solid t ∧ t ≠ [] ∧ ',' ∉ t))

theorem isToken_mnemonic (o : Operation) : IsToken o.mnemonic.toList := by
  cases o with
  | arithmetic op source =>
    show IsToken op.mnemonic.toList
    cases op <;> decide
  | immediate op => cases op <;> decide
  | jumpIf condition => cases condition <;> decide
  | callIf condition => cases condition <;> decide
  | returnIf condition => cases condition <;> decide
  | _ =>
    dsimp only [Operation.mnemonic]
    decide

theorem isToken_of_isNumeral {width : Nat} {t : List Char} (hwidth : 0 < width)
    (h : Hex.IsNumeral width t) : IsToken t := by
  have plain : Hex.digits.all (fun c => !Text.isBlank c) = true := by decide
  have hcomma : ',' ∉ Hex.digits := by decide
  refine ⟨fun c hc => ?_, ?_, fun hc => hcomma (h.2 ',' hc)⟩
  · simpa using List.all_eq_true.1 plain c (h.2 c hc)
  rintro rfl
  have : [].length = width := h.1
  simp at this
  omega

/-- A numeral of several digits is no name: the names of several letters have one
that is no digit. -/
theorem isReserved_of_isNumeral {width : Nat} {t : List Char} (hwidth : 1 < width)
    (h : Hex.IsNumeral width t) : isReserved t = false := by
  have names : reservedNames.all (fun name => name.toList.length == 1 ||
      name.toList.any fun c => !Hex.digits.contains c) = true := by decide
  refine List.any_eq_false.2 (fun name hname he => ?_)
  have hname' : name.toList = t := beq_iff_eq.1 he
  have hcase := List.all_eq_true.1 names name hname
  rw [hname', h.1, Bool.or_eq_true, List.any_eq_true] at hcase
  rcases hcase with hone | ⟨c, hc, hdigit⟩
  · have : width = 1 := beq_iff_eq.1 hone
    omega
  · have hmem := h.2 c hc
    simp [hmem] at hdigit

theorem isToken_of_fills {slot : Slot} {t : List Char} (h : Fills slot t) : IsToken t := by
  cases slot with
  | reg r =>
    rw [show t = r.name.toList from h]
    cases r <;> decide
  | pair p =>
    rw [show t = p.name.toList from h]
    cases p <;> decide
  | vector n =>
    rw [show t = (Nat.repr n).toList from h]
    exact (by decide : ∀ n : Fin 8, IsToken (Nat.repr n).toList) n
  | data8 => exact isToken_of_isNumeral (by decide) h
  | data16 => exact isToken_of_isNumeral (by decide) h
  | address => exact isToken_of_isNumeral (by decide) h

theorem forall_isToken {slots : List Slot} {tokens : List (List Char)}
    (h : List.Forall₂ Fills slots tokens) : ∀ t ∈ tokens, IsToken t := by
  induction h with
  | nil => simp
  | cons hfills _ ih =>
    rw [List.forall_mem_cons]
    exact ⟨isToken_of_fills hfills, ih⟩

/-! ## Slots -/

theorem width_pos_of_isLiteral {slot : Slot} (h : slot.isLiteral = true) : 0 < slot.width := by
  have : slot.width ≠ 0 := by simpa [Slot.isLiteral] using h
  omega

theorem fills_iff_of_isLiteral {slot : Slot} (h : slot.isLiteral = true) (t : List Char) :
    Fills slot t ↔ Hex.IsNumeral (2 * slot.width) t := by
  cases slot with
  | data8 | data16 | address => exact Iff.rfl
  | reg | pair | vector => cases h

theorem digit_vector (n : Fin 8) : [Hex.digit n] = (Nat.repr n).toList :=
  (by decide : ∀ k : Fin 8, [Hex.digit k] = (Nat.repr k).toList) n

theorem fills_iff_accepts {slot : Slot} (h : slot.isLiteral = false) (t : List Char) :
    Fills slot t ↔ accepts slot t = true := by
  cases slot with
  | reg r =>
    rw [accepts, beq_iff_eq]
    exact eq_comm
  | pair p =>
    rw [accepts, beq_iff_eq]
    exact eq_comm
  | vector n =>
    rw [accepts, beq_iff_eq, digit_vector]
    exact eq_comm
  | data8 | data16 | address => cases h

theorem accepts_of_isLiteral {slot : Slot} (h : slot.isLiteral = true) (token : List Char) :
    accepts slot token = !isReserved token := by
  cases slot with
  | data8 | data16 | address => rfl
  | reg | pair | vector => cases h

theorem accepts_of_fills {slot : Slot} {t : List Char} (h : Fills slot t) :
    accepts slot t = true := by
  cases hslot : slot.isLiteral with
  | true =>
    have hwidth := width_pos_of_isLiteral hslot
    have hplain : isReserved t = false :=
      isReserved_of_isNumeral (by omega) ((fills_iff_of_isLiteral hslot t).1 h)
    rw [accepts_of_isLiteral hslot, hplain]
    rfl
  | false => exact (fills_iff_accepts hslot t).1 h

theorem fits_iff_forall₂ {slots : List Slot} {tokens : List (List Char)} :
    fits slots tokens = true ↔
      List.Forall₂ (fun slot token => accepts slot token = true) slots tokens := by
  induction slots generalizing tokens with
  | nil => cases tokens <;> simp [fits]
  | cons slot slots ih => cases tokens <;> simp [fits, ih]

theorem fits_of_fills {slots : List Slot} {tokens : List (List Char)}
    (h : List.Forall₂ Fills slots tokens) : fits slots tokens = true :=
  fits_iff_forall₂.2 (h.imp fun _ _ => accepts_of_fills)

/-- Only the last slot of an operation can be a literal. -/
theorem pairwise_slots (o : Operation) : o.slots.Pairwise fun slot _ => slot.isLiteral = false := by
  cases o <;> simp [Operation.slots, Slot.isLiteral, Slot.width]

/-- A literal's digits are looked at after the entry is chosen, so the lookup alone does not
tell that they fill their slot. -/
theorem fills_of_fits {slots : List Slot} {tokens : List (List Char)} {w : Word}
    (hslots : slots.Pairwise fun slot _ => slot.isLiteral = false)
    (hfits : fits slots tokens = true) (hw : literal slots tokens = .ok w) :
    List.Forall₂ Fills slots tokens := by
  induction slots generalizing tokens with
  | nil =>
    cases tokens with
    | nil => exact .nil
    | cons => cases hfits
  | cons slot slots ih =>
    cases tokens with
    | nil => cases hfits
    | cons token tokens =>
      rw [fits, Bool.and_eq_true] at hfits
      obtain ⟨hlast, hrest⟩ := List.pairwise_cons.1 hslots
      rw [literal] at hw
      cases hslot : slot.isLiteral with
      | false =>
        rw [hslot, if_neg Bool.false_ne_true] at hw
        exact .cons ((fills_iff_accepts hslot token).2 hfits.1) (ih hrest hfits.2 hw)
      | true =>
        rw [if_pos hslot] at hw
        split at hw
        · next value hvalue =>
          have hnumeral := (Hex.word?_eq_some_iff.1 hvalue).2.1
          refine .cons ((fills_iff_of_isLiteral hslot token).2 hnumeral) ?_
          -- no slot follows a literal, so the digits seen are all there are
          cases slots with
          | cons other _ =>
            have := hlast other List.mem_cons_self
            rw [hslot] at this
            cases this
          | nil => cases tokens with
            | nil => exact .nil
            | cons => cases hfits.2
        · cases hw

theorem exists_word?_of_fills {slot : Slot} {t : List Char} (hslot : slot.isLiteral = true)
    (h : Fills slot t) : ∃ w, Hex.word? (2 * slot.width) t = some w := by
  have hpos := width_pos_of_isLiteral hslot
  have hwidth : slot.width ≤ 2 := by cases slot <;> simp [Slot.width]
  exact Hex.exists_word?_of_isNumeral (by omega) (by omega) ((fills_iff_of_isLiteral hslot t).1 h)

/-! ## The literal -/

/-- The operand that stands in a literal slot, with its slot. -/
def literalOperand (slots : List Slot) (tokens : List (List Char)) : Option (Slot × List Char) :=
  (slots.zip tokens).find? fun operand => operand.1.isLiteral

/-- The number that the operands write, zero if none of them is a literal. -/
def writtenValue (slots : List Slot) (tokens : List (List Char)) : Nat :=
  match literalOperand slots tokens with
  | some (_, numeral) => Hex.value numeral
  | none => 0

/-- A number in so many bytes, the lowest first. -/
def littleEndian : (width : Nat) → Nat → List Byte
  | 0, _ => []
  | width + 1, n => BitVec.ofNat 8 n :: littleEndian width (n / 256)

/-- The bytes that the operands write. -/
def writtenBytes (slots : List Slot) (tokens : List (List Char)) : List Byte :=
  match literalOperand slots tokens with
  | some (slot, numeral) => littleEndian slot.width (Hex.value numeral)
  | none => []

theorem exists_literal {slots : List Slot} {tokens : List (List Char)}
    (h : List.Forall₂ Fills slots tokens) : ∃ w, literal slots tokens = .ok w := by
  induction h with
  | nil => exact ⟨0, rfl⟩
  | @cons slot token _ _ hfills _ ih =>
    rw [literal]
    cases hslot : slot.isLiteral with
    | false => exact ih
    | true =>
      obtain ⟨w, hw⟩ := exists_word?_of_fills hslot hfills
      exact ⟨w, by rw [if_pos rfl, hw]⟩

theorem literal_cases {slots : List Slot} {tokens : List (List Char)} {w : Word}
    (h : List.Forall₂ Fills slots tokens) (hw : literal slots tokens = .ok w) :
    (literalOperand slots tokens = none ∧ (∀ slot ∈ slots, slot.isLiteral = false) ∧ w = 0) ∨
      ∃ slot numeral, literalOperand slots tokens = some (slot, numeral) ∧ slot ∈ slots ∧
        slot.isLiteral = true ∧ w.toNat = Hex.value numeral := by
  induction h with
  | nil =>
    cases hw
    exact .inl ⟨rfl, by simp, rfl⟩
  | @cons slot token slots tokens _ _ ih =>
    rw [literal] at hw
    cases hslot : slot.isLiteral with
    | false =>
      rw [hslot, if_neg Bool.false_ne_true] at hw
      have skip : literalOperand (slot :: slots) (token :: tokens) = literalOperand slots tokens :=
        List.find?_cons_of_neg (by simp [hslot])
      rw [skip]
      rcases ih hw with ⟨hnone, hnames, hzero⟩ | ⟨s, t, hfound, hmem, hs, hvalue⟩
      · exact .inl ⟨hnone, by simpa [hslot] using hnames, hzero⟩
      · exact .inr ⟨s, t, hfound, List.mem_cons_of_mem slot hmem, hs, hvalue⟩
    | true =>
      rw [if_pos hslot] at hw
      split at hw
      · next value hvalue =>
        cases hw
        refine .inr ⟨slot, token, List.find?_cons_of_pos hslot, List.mem_cons_self, hslot, ?_⟩
        exact (Hex.word?_eq_some_iff.1 hvalue).2.2
      · cases hw

theorem toNat_of_literal {slots : List Slot} {tokens : List (List Char)} {w : Word}
    (h : List.Forall₂ Fills slots tokens) (hw : literal slots tokens = .ok w) :
    w.toNat = writtenValue slots tokens := by
  unfold writtenValue
  rcases literal_cases h hw with ⟨hnone, -, rfl⟩ | ⟨slot, numeral, hfound, -, -, hvalue⟩
  · rw [hnone]
    rfl
  · rw [hfound]
    exact hvalue

theorem take_bytes_eq_littleEndian (w : Word) {width : Nat} (h : width ≤ 2) :
    [Word.low w, Word.high w].take width = littleEndian width w.toNat := by
  have low : Word.low w = BitVec.ofNat 8 w.toNat := by
    apply BitVec.eq_of_toNat_eq
    rw [Word.toNat_low, BitVec.toNat_ofNat]
  have high : Word.high w = BitVec.ofNat 8 (w.toNat / 256) := by
    apply BitVec.eq_of_toNat_eq
    have := w.isLt
    rw [Word.toNat_high, BitVec.toNat_ofNat]
    omega
  have hw : width = 0 ∨ width = 1 ∨ width = 2 := by omega
  rw [low, high]
  rcases hw with rfl | rfl | rfl <;> rfl

theorem bytes_of_literal {i : Instruction} {tokens : List (List Char)}
    (h : List.Forall₂ Fills i.entry.slots tokens)
    (hw : literal i.entry.slots tokens = .ok i.data) :
    i.bytes = i.entry.opcode :: writtenBytes i.entry.slots tokens := by
  have room : i.length - 1 ≤ 2 := by
    have := i.length_le
    omega
  rw [Instruction.bytes, Instruction.operandBytes, take_bytes_eq_littleEndian i.data room,
    writtenBytes]
  rcases literal_cases h hw with ⟨hnone, hnames, -⟩ | ⟨slot, numeral, hfound, hmem, hslot, hvalue⟩
  · have hlen : i.length = 1 := length_of_forall_not_isLiteral hnames
    rw [hnone, hlen]
    rfl
  · have hlen : i.length = 1 + slot.width := length_of_isLiteral hmem hslot
    rw [hfound, hlen, Nat.add_sub_cancel_left, hvalue]

/-! ## Operands and the white space between them -/

theorem comma_not_mem_blank {w : List Char} (h : Text.Blank w) : ',' ∉ w := h.not_mem (by decide)

/-- One or two pieces that are not blank are read as operands, whatever white space is around
them. -/
theorem operands_intercalate {pieces : List (List Char)} (hne : pieces ≠ [])
    (hlen : pieces.length ≤ 2) (hcomma : ∀ p ∈ pieces, ',' ∉ p)
    (hfull : ∀ p ∈ pieces, Text.trim p ≠ []) :
    operands (List.intercalate [','] pieces) = .ok (pieces.map Text.trim) := by
  have cut : (Text.fields ',' (Text.trim (List.intercalate [','] pieces))).map Text.trim =
      pieces.map Text.trim := by
    rw [Text.map_trim_fields_trim (by decide), Text.fields_intercalate hne hcomma]
  have nonblank : [] ∉ pieces.map Text.trim := by
    intro hmem
    obtain ⟨p, hp, hblank⟩ := List.mem_map.1 hmem
    exact hfull p hp hblank
  unfold operands
  split
  · next empty =>
    -- the empty text is one empty field, and no piece is empty
    rw [empty] at cut
    exact absurd (cut ▸ List.mem_singleton_self []) nonblank
  · simp only [cut]
    exact if_pos ⟨by simpa using hlen, nonblank⟩

theorem exists_pieces {s : List Char} {tokens : List (List Char)} (h : operands s = .ok tokens) :
    (tokens = [] ∧ Text.Blank s) ∨
      ∃ pieces, pieces ≠ [] ∧ pieces.length ≤ 2 ∧ tokens = pieces.map Text.trim ∧
        Text.trim s = List.intercalate [','] pieces := by
  unfold operands at h
  split at h
  · next empty =>
    cases h
    obtain ⟨before, after, hbefore, hafter, hs⟩ := Text.exists_trim s
    rw [empty, List.append_nil] at hs
    exact .inl ⟨rfl, hs ▸ hbefore.append hafter⟩
  · simp only at h
    split at h
    · next hok =>
      cases h
      refine .inr ⟨Text.fields ',' (Text.trim s), List.splitOn_ne_nil _ _, ?_, rfl, ?_⟩
      · simpa using hok.1
      · exact (Text.intercalate_fields ',' _).symm
    · cases h

theorem operands_one {w t : List Char} (hw : Text.Blank w) (ht : IsToken t) :
    operands (w ++ t) = .ok [t] := by
  obtain ⟨hsolid, hne, hcomma⟩ := ht
  have piece : Text.trim (w ++ t) = t := by rw [Text.trim_blank_append hw, hsolid.trim_eq]
  have read : operands (List.intercalate [','] [w ++ t]) = .ok ([w ++ t].map Text.trim) :=
    operands_intercalate (by simp) (by simp) (by simp [hcomma, comma_not_mem_blank hw])
      (by simpa [piece] using hne)
  rwa [List.intercalate_singleton, List.map_singleton, piece] at read

theorem operands_two {w t u v t' : List Char} (hw : Text.Blank w) (ht : IsToken t)
    (hu : Text.Blank u) (hv : Text.Blank v) (ht' : IsToken t') :
    operands (w ++ (t ++ (u ++ ',' :: v ++ t'))) = .ok [t, t'] := by
  obtain ⟨hsolid, hne, hcomma⟩ := ht
  obtain ⟨hsolid', hne', hcomma'⟩ := ht'
  have first : Text.trim (w ++ (t ++ u)) = t := by
    rw [Text.trim_blank_append hw, Text.trim_append_blank t hu, hsolid.trim_eq]
  have second : Text.trim (v ++ t') = t' := by rw [Text.trim_blank_append hv, hsolid'.trim_eq]
  have written : w ++ (t ++ (u ++ ',' :: v ++ t')) =
      List.intercalate [','] [w ++ (t ++ u), v ++ t'] := by
    simp [List.intercalate_cons_cons]
  have read : operands (List.intercalate [','] [w ++ (t ++ u), v ++ t']) =
      .ok ([w ++ (t ++ u), v ++ t'].map Text.trim) :=
    operands_intercalate (by simp) (by simp)
      (by simp [hcomma, hcomma', comma_not_mem_blank hw, comma_not_mem_blank hu,
        comma_not_mem_blank hv])
      (by simp [first, second, hne, hne'])
  rw [List.map_cons, List.map_singleton, first, second, ← written] at read
  exact read

/-- A stripped line is cut as it was laid out. -/
theorem Layout.cut {name body : List Char} {tokens : List (List Char)}
    (h : Layout name tokens body) (hname : IsToken name) (htokens : ∀ t ∈ tokens, IsToken t) :
    Text.trim body = body ∧ Text.firstWord body = name ∧
      operands (Text.afterFirstWord body) = .ok tokens := by
  obtain ⟨hsolid, hne, -⟩ := hname
  cases h with
  | bare =>
    refine ⟨hsolid.trim_eq, hsolid.firstWord_eq, ?_⟩
    rw [hsolid.afterFirstWord_eq]
    rfl
  | @one w t hw hwne =>
    have ht : IsToken t := htokens t (by simp)
    refine ⟨Text.trim_append hsolid hne ht.1 ht.2.1 w, hsolid.firstWord_append_blank hw hwne t, ?_⟩
    rw [hsolid.afterFirstWord_append_blank hw hwne]
    exact operands_one hw ht
  | @two w t u v t' hw hwne hu hv =>
    have ht : IsToken t := htokens t (by simp)
    have ht' : IsToken t' := htokens t' (by simp)
    have ends := Text.trim_append hsolid hne ht'.1 ht'.2.1 (w ++ (t ++ (u ++ ',' :: v)))
    refine ⟨?_, hsolid.firstWord_append_blank hw hwne _, ?_⟩
    · simpa only [List.append_assoc, List.cons_append] using ends
    · rw [hsolid.afterFirstWord_append_blank hw hwne]
      exact operands_two hw ht hu hv ht'

/-- Text that is read as operands is laid out behind any name, if it begins with white space
unless it is all white space. -/
theorem exists_layout (name : List Char) {s : List Char} {tokens : List (List Char)}
    (h : operands s = .ok tokens) (htokens : ∀ t ∈ tokens, IsToken t)
    (hs : ∀ w t, Text.Solid w → w ≠ [] → s ≠ w ++ t) :
    ∃ body after, Text.Blank after ∧ name ++ s = body ++ after ∧ Layout name tokens body := by
  rcases exists_pieces h with ⟨rfl, hblank⟩ | ⟨pieces, hne, hlen, rfl, hpieces⟩
  · exact ⟨name, s, hblank, rfl, .bare⟩
  · obtain ⟨before, after, hbefore, hafter, hparts⟩ := Text.exists_trim s
    rw [hpieces] at hparts
    have lead_ne {lead t rest : List Char} (ht : IsToken t) (split : s = lead ++ (t ++ rest)) :
        lead ≠ [] := by
      rintro rfl
      exact hs t rest ht.1 ht.2.1 split
    match pieces with
    | [] => exact absurd rfl hne
    | [p] =>
      obtain ⟨l, r, hl, hr, hp⟩ := Text.exists_trim p
      have ht : IsToken (Text.trim p) := htokens _ (by simp)
      rw [List.map_singleton]
      generalize Text.trim p = t at hp ht ⊢
      have split : s = (before ++ l) ++ (t ++ (r ++ after)) := by
        simp [hparts, hp, List.intercalate_singleton]
      exact ⟨_, r ++ after, hr.append hafter, by simp [split],
        .one (hbefore.append hl) (lead_ne ht split)⟩
    | [p, q] =>
      obtain ⟨l, r, hl, hr, hp⟩ := Text.exists_trim p
      obtain ⟨l', r', hl', hr', hq⟩ := Text.exists_trim q
      have ht : IsToken (Text.trim p) := htokens _ (by simp)
      rw [List.map_cons, List.map_singleton]
      generalize Text.trim p = t at hp ht ⊢
      generalize Text.trim q = t' at hq ⊢
      have split : s = (before ++ l) ++ (t ++ (r ++ ',' :: (l' ++ t' ++ (r' ++ after)))) := by
        simp [hparts, hp, hq, List.intercalate_cons_cons]
      exact ⟨_, r' ++ after, hr'.append hafter, by simp [split],
        .two (hbefore.append hl) (lead_ne ht split) hr hl'⟩
    | p :: q :: o :: rest => simp at hlen

/-! ## Lines -/

/-- A line is encoded as an instruction exactly if it spells the instruction's entry and its
literal is the instruction's. -/
theorem encode_eq_ok_iff_spells {line : String} {i : Instruction} :
    encode line = .ok i ↔
      ∃ tokens, Spells i.entry tokens line.toList ∧ literal i.entry.slots tokens = .ok i.data := by
  rw [encode_eq_ok_iff]
  constructor
  · rintro ⟨tokens, hoperands, hresolve, hdata⟩
    obtain ⟨hname, hfits⟩ := resolve_eq_ok_iff.1 hresolve
    have hfills := fills_of_fits (pairwise_slots i.operation) hfits hdata
    obtain ⟨before, after, hbefore, hafter, hline⟩ := Text.exists_trim line.toList
    obtain ⟨body, after', hafter', hbody, hlayout⟩ :=
      exists_layout i.entry.mnemonic.toList hoperands (forall_isToken hfills)
        (fun w t hw hne => Text.afterFirstWord_ne_append hw hne _ t)
    have hwords := Text.firstWord_append_afterFirstWord (Text.trim line.toList)
    have hfirst : Text.firstWord (Text.trim line.toList) = i.entry.mnemonic.toList := by
      rw [hname, String.toList_ofList]
    rw [hfirst, hbody] at hwords
    refine ⟨tokens, ⟨⟨before, body, after' ++ after, hbefore, hafter'.append hafter, ?_, hlayout⟩,
      hfills⟩, hdata⟩
    rw [hline, ← hwords]
    simp
  · rintro ⟨tokens, ⟨⟨before, body, after, hbefore, hafter, hline, hlayout⟩, hfills⟩, hdata⟩
    obtain ⟨htrim, hfirst, hoperands⟩ :=
      hlayout.cut (isToken_mnemonic i.operation) (forall_isToken hfills)
    have stripped : Text.trim line.toList = body := by
      rw [hline, Text.trim_append_blank _ hafter, Text.trim_blank_append hbefore, htrim]
    have hresolve : resolve i.entry.mnemonic tokens = .ok i.entry :=
      resolve_eq_ok_iff.2 ⟨rfl, fits_of_fills hfills⟩
    rw [stripped, hfirst, String.ofList_toList]
    exact ⟨tokens, hoperands, hresolve, hdata⟩

theorem exists_encode_of_spells {line : String} {entry : Entry} {tokens : List (List Char)}
    (h : Spells entry tokens line.toList) :
    ∃ i, encode line = .ok i ∧ i.entry = entry ∧
      i.bytes = entry.opcode :: writtenBytes entry.slots tokens := by
  obtain ⟨w, hw⟩ := exists_literal h.operands
  exact ⟨{ entry, data := w }, encode_eq_ok_iff_spells.2 ⟨tokens, h, hw⟩, rfl,
    bytes_of_literal (i := { entry, data := w }) h.operands hw⟩

theorem exists_spells_of_encode {line : String} {i : Instruction} (h : encode line = .ok i) :
    ∃ tokens, Spells i.entry tokens line.toList ∧
      i.data.toNat = writtenValue i.entry.slots tokens ∧
      i.bytes = i.entry.opcode :: writtenBytes i.entry.slots tokens := by
  obtain ⟨tokens, hspells, hdata⟩ := encode_eq_ok_iff_spells.1 h
  exact ⟨tokens, hspells, toNat_of_literal hspells.operands hdata,
    bytes_of_literal hspells.operands hdata⟩

/-- A line is accepted exactly if it is one of the grammar, and its bytes are then the opcode of
the entry that it spells and behind it the literal that it writes. -/
theorem encode_accepts_grammar (line : String) :
    ((∃ i, encode line = .ok i) ↔ ∃ entry tokens, Spells entry tokens line.toList) ∧
      ∀ (entry : Entry) (bytes : List Byte),
        (∃ i, encode line = .ok i ∧ i.entry = entry ∧ i.bytes = bytes) ↔
          ∃ tokens, Spells entry tokens line.toList ∧
            bytes = entry.opcode :: writtenBytes entry.slots tokens := by
  refine ⟨⟨?_, ?_⟩, fun entry bytes => ⟨?_, ?_⟩⟩
  · rintro ⟨i, hi⟩
    obtain ⟨tokens, hspells, -⟩ := exists_spells_of_encode hi
    exact ⟨i.entry, tokens, hspells⟩
  · rintro ⟨entry, tokens, hspells⟩
    obtain ⟨i, hi, -⟩ := exists_encode_of_spells hspells
    exact ⟨i, hi⟩
  · rintro ⟨i, hi, rfl, rfl⟩
    obtain ⟨tokens, hspells, -, hbytes⟩ := exists_spells_of_encode hi
    exact ⟨tokens, hspells, hbytes⟩
  · rintro ⟨tokens, hspells, rfl⟩
    exact exists_encode_of_spells hspells

end Assembler
end I8085
