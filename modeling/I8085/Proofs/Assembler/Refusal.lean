import I8085.Proofs.Assembler.Canonical

/-!
# Why a line is refused

Several things can be wrong with a line at once, and one of them is reported.  Operand text that
does not come apart into operands is looked at first, whatever stands before it.  Then the
mnemonic has to be one of the chart's.  A literal is malformed if nothing but its digits is wrong:
with zeros in its place the line would be accepted.  Everything else is an operand of the wrong
kind, or the wrong number of them.

What is reported is compared with the lines that are accepted, not with the order of the checks.
That at most one entry can fit carries the case of the literal: the entry that takes the zeros is
the one that was chosen for the digits.
-/

namespace I8085
namespace Text

/-- The text with something new between the white space at its ends. -/
def refill (new s : List Char) : List Char :=
  s.takeWhile isBlank ++ new ++ (s.reverse.takeWhile isBlank).reverse

theorem trim_refill (new s : List Char) : trim (refill new s) = trim new := by
  rw [refill, trim_append_blank _ (blank_takeWhile s.reverse).reverse,
    trim_blank_append (blank_takeWhile s)]

end Text

namespace Assembler

/-! ## The parts of a line -/

def mnemonicText (line : String) : List Char := Text.firstWord (Text.trim line.toList)

/-- What follows the mnemonic, beginning with white space. -/
def operandsText (line : String) : List Char := Text.afterFirstWord (Text.trim line.toList)

/-- The operands of a line with the white space around them.  If there is nothing behind the
mnemonic, that is one blank part. -/
def parts (line : String) : List (List Char) := Text.fields ',' (Text.trim (operandsText line))

/-- The operand text does not come apart into one or two operands. -/
def Misplit (line : String) : Prop :=
  Text.trim (operandsText line) ≠ [] ∧
    (1 < (Text.trim (operandsText line)).count ',' ∨ ∃ part ∈ parts line, Text.trim part = [])

instance : DecidablePred Misplit := fun line =>
  inferInstanceAs (Decidable (Text.trim (operandsText line) ≠ [] ∧
    (1 < (Text.trim (operandsText line)).count ',' ∨ ∃ part ∈ parts line, Text.trim part = [])))

/-- The line with the operand at a place written anew.  All white space stays. -/
def withOperand (line : String) (place : Nat) (token : List Char) : String :=
  String.ofList (mnemonicText line ++ ((operandsText line).takeWhile Text.isBlank ++
    List.intercalate [','] ((parts line).modify place (Text.refill token))))

example : withOperand " MVI\tA , 9 9 " 1 ['0', '0'] = "MVI\tA , 00" := by decide

/-- With so many zeros for one of its operands, which is no reserved name, the line is accepted and
the zeros stand in a slot for a literal of as many digits. -/
def MendedByZeros (line : String) (digits : Nat) : Prop :=
  (digits = 2 ∨ digits = 4) ∧
    ∃ place part slot i, (parts line)[place]? = some part ∧ Text.trim part ≠ [] ∧
      (∀ name ∈ reservedNames, name.toList ≠ Text.trim part) ∧
      encode (withOperand line place (List.replicate digits '0')) = .ok i ∧
      i.entry.slots[place]? = some slot ∧ slot.isLiteral = true ∧ 2 * slot.width = digits

/-! ## Operand text -/

/-- The operands of a line whose operand text comes apart. -/
def tokens (line : String) : List (List Char) :=
  if Text.trim (operandsText line) = [] then [] else (parts line).map Text.trim

theorem operands_of_misplit {line : String} (h : Misplit line) :
    operands (operandsText line) = .error .invalidOperand := by
  obtain ⟨hfull, hbad⟩ := h
  unfold operands
  split
  · next empty => exact absurd empty hfull
  · refine if_neg (fun hgood => ?_)
    rcases hbad with hcommas | ⟨part, hpart, hblank⟩
    · have := hgood.1
      rw [List.length_map, Text.length_fields] at this
      omega
    · exact hgood.2 (List.mem_map.2 ⟨part, hpart, hblank⟩)

theorem length_parts_le {line : String} (h : ¬Misplit line) : (parts line).length ≤ 2 := by
  rw [parts, Text.length_fields]
  by_cases hempty : Text.trim (operandsText line) = []
  · rw [hempty]
    decide
  · have : ¬1 < (Text.trim (operandsText line)).count ',' := fun hc => h ⟨hempty, .inl hc⟩
    omega

theorem operands_of_not_misplit {line : String} (h : ¬Misplit line) :
    operands (operandsText line) = .ok (tokens line) := by
  unfold operands tokens
  split
  · next empty => rw [if_pos empty]
  · next full =>
    have hfull : Text.trim (operandsText line) ≠ [] := fun e => full e
    rw [if_neg hfull]
    refine if_pos ⟨?_, fun hmem => ?_⟩
    · rw [List.length_map]
      exact length_parts_le h
    · obtain ⟨part, hpart, hblank⟩ := List.mem_map.1 hmem
      exact h ⟨hfull, .inr ⟨part, hpart, hblank⟩⟩

/-! ## The line with an operand written anew -/

theorem operands_congr {s t : List Char} (h : Text.trim s = Text.trim t) :
    operands s = operands t := by
  unfold operands
  rw [h]

/-- White space behind a name ends the mnemonic, and the line is cut there. -/
theorem encode_append {name gap rest : List Char} (hname : Text.Solid name) (hne : name ≠ [])
    (hgap : Text.Blank gap) (hgapne : gap ≠ []) :
    encode (String.ofList (name ++ (gap ++ rest))) =
      assembleParts (String.ofList name) rest := by
  obtain ⟨after, hafter, hend⟩ := Text.exists_trimEnd (gap ++ rest)
  have stop : Text.firstWord (Text.trimEnd (gap ++ rest)) = [] := by
    apply Text.firstWord_of_append (t := after)
    rw [← hend]
    exact Text.Solid.firstWord_append_blank (w := []) (by simp [Text.Solid]) hgap hgapne rest
  have first : Text.firstWord (name ++ Text.trimEnd (gap ++ rest)) = name := by
    rw [hname.firstWord_append, stop, List.append_nil]
  have others : Text.afterFirstWord (name ++ Text.trimEnd (gap ++ rest)) =
      Text.trimEnd (gap ++ rest) := by
    have whole := Text.firstWord_append_afterFirstWord (name ++ Text.trimEnd (gap ++ rest))
    rw [first] at whole
    exact List.append_cancel_left whole
  have same : Text.trim (Text.trimEnd (gap ++ rest)) = Text.trim rest := by
    rw [← Text.trim_append_blank _ hafter, ← hend, Text.trim_blank_append hgap]
  simp only [encode, String.toList_ofList, Text.trim_solid_append hname hne, first, others,
    assembleParts, operands_congr same]

theorem gap_ne_nil {line : String} (h : operandsText line ≠ []) :
    (operandsText line).takeWhile Text.isBlank ≠ [] := by
  have stop : Text.firstWord (operandsText line) = [] := Text.firstWord_afterFirstWord _
  cases htext : operandsText line with
  | nil => exact absurd htext h
  | cons c rest =>
    rw [htext] at stop
    have hc : Text.isBlank c = true := by
      simpa [Text.firstWord, List.takeWhile_cons] using stop
    rw [List.takeWhile_cons_of_pos hc]
    exact List.cons_ne_nil c _

/-- The instruction that a mnemonic and operands stand for. -/
def assembleTokens (mnemonic : String) (tokens : List (List Char)) : Except AsmError Instruction :=
  do
  let entry ← resolve mnemonic tokens
  let data ← literal entry.slots tokens
  return { entry, data }

theorem assembleParts_of_operands {s : List Char} {tokens : List (List Char)}
    (h : operands s = .ok tokens) (mnemonic : String) :
    assembleParts mnemonic s = assembleTokens mnemonic tokens := by
  rw [assembleParts, h]
  rfl

theorem encode_of_not_misplit {line : String} (h : ¬Misplit line) :
    encode line = assembleTokens (String.ofList (mnemonicText line)) (tokens line) :=
  assembleParts_of_operands (operands_of_not_misplit h) _

section

variable {line : String} {place : Nat} {part token : List Char}

theorem trim_operandsText_ne_nil (hpart : (parts line)[place]? = some part)
    (hfull : Text.trim part ≠ []) : Text.trim (operandsText line) ≠ [] := by
  intro hempty
  have hmem : part ∈ parts line := List.mem_of_getElem? hpart
  rw [parts, hempty] at hmem
  rw [List.mem_singleton.1 hmem] at hfull
  exact hfull rfl

theorem tokens_of_part (hpart : (parts line)[place]? = some part) (hfull : Text.trim part ≠ []) :
    tokens line = (parts line).map Text.trim :=
  if_neg (trim_operandsText_ne_nil hpart hfull)

/-- To write an operand anew is to write its token anew. -/
theorem operands_modify_parts (h : ¬Misplit line) (hpart : (parts line)[place]? = some part)
    (hfull : Text.trim part ≠ []) (htoken : IsToken token) :
    operands (List.intercalate [','] ((parts line).modify place (Text.refill token))) =
      .ok ((tokens line).set place token) := by
  obtain ⟨hsolid, htokenne, hcomma⟩ := htoken
  have stripped : Text.trim (Text.refill token part) = token := by
    rw [Text.trim_refill, hsolid.trim_eq]
  have written : (parts line).modify place (Text.refill token) =
      (parts line).set place (Text.refill token part) := by
    rw [List.modify_eq_set_getElem?, hpart, Option.map_eq_map, Option.map_some, Option.getD_some]
  have hne : parts line ≠ [] := List.ne_nil_of_mem (List.mem_of_getElem? hpart)
  rw [written, operands_intercalate, List.map_set, stripped, tokens_of_part hpart hfull]
  · exact fun e => hne ((List.set_eq_nil_iff place _).1 e)
  · rw [List.length_set]
    exact length_parts_le h
  · intro p hp
    rcases List.mem_or_eq_of_mem_set hp with hp | rfl
    · exact Text.not_mem_of_mem_fields hp
    · simp only [Text.refill, List.mem_append, not_or]
      exact ⟨⟨comma_not_mem_blank (Text.blank_takeWhile part), hcomma⟩,
        comma_not_mem_blank (Text.blank_takeWhile part.reverse).reverse⟩
  · intro p hp
    rcases List.mem_or_eq_of_mem_set hp with hp | rfl
    · exact fun e => h ⟨trim_operandsText_ne_nil hpart hfull, .inr ⟨p, hp, e⟩⟩
    · rw [stripped]
      exact htokenne

theorem encode_withOperand (h : ¬Misplit line) (hpart : (parts line)[place]? = some part)
    (hfull : Text.trim part ≠ []) (htoken : IsToken token) :
    encode (withOperand line place token) =
      assembleTokens (String.ofList (mnemonicText line)) ((tokens line).set place token) := by
  have htext : operandsText line ≠ [] := by
    intro e
    apply trim_operandsText_ne_nil hpart hfull
    rw [e]
    rfl
  have hline : Text.trim line.toList ≠ [] := by
    intro e
    apply htext
    rw [operandsText, e]
    rfl
  have hname : Text.Solid (mnemonicText line) := Text.solid_firstWord _
  rw [withOperand, encode_append hname (Text.firstWord_trim_ne_nil hline)
    (Text.blank_takeWhile _) (gap_ne_nil htext)]
  exact assembleParts_of_operands (operands_modify_parts h hpart hfull htoken) _

end

/-! ## What the chart takes -/

section

variable {mnemonic : String} {tokens : List (List Char)} {token : List Char} {slots : List Slot}
  {slot : Slot} {place : Nat}

theorem accepts_of_fits (h : fits slots tokens = true) (hslot : slots[place]? = some slot)
    (htoken : tokens[place]? = some token) : accepts slot token = true := by
  induction slots generalizing tokens place with
  | nil => cases hslot
  | cons first slots ih =>
    cases tokens with
    | nil => cases h
    | cons t tokens =>
      rw [fits, Bool.and_eq_true] at h
      cases place with
      | zero =>
        cases hslot
        cases htoken
        exact h.1
      | succ place => exact ih h.2 hslot htoken

theorem fits_set (h : fits slots tokens = true) (hslot : slots[place]? = some slot)
    (htoken : accepts slot token = true) : fits slots (tokens.set place token) = true := by
  induction slots generalizing tokens place with
  | nil => cases hslot
  | cons first slots ih =>
    cases tokens with
    | nil => cases h
    | cons t tokens =>
      rw [fits, Bool.and_eq_true] at h
      cases place with
      | zero =>
        cases hslot
        rw [List.set_cons_zero, fits, htoken, h.2]
        rfl
      | succ place =>
        rw [List.set_cons_succ, fits, h.1, ih h.2 hslot]
        rfl

/-- The literal is the token in the literal slot, of which there is one at most. -/
theorem literal_of_getElem? (hslots : slots.Pairwise fun slot _ => slot.isLiteral = false)
    (hslot : slots[place]? = some slot) (hliteral : slot.isLiteral = true)
    (htoken : tokens[place]? = some token) :
    literal slots tokens =
      match Hex.word? (2 * slot.width) token with
      | some value => .ok value
      | none => .error (.malformedImmediate (2 * slot.width)) := by
  induction slots generalizing tokens place with
  | nil => cases hslot
  | cons first slots ih =>
    cases tokens with
    | nil => cases htoken
    | cons t tokens =>
      obtain ⟨hfirst, hothers⟩ := List.pairwise_cons.1 hslots
      cases place with
      | zero =>
        cases hslot
        cases htoken
        exact if_pos hliteral
      | succ place =>
        have hmem : slot ∈ slots := List.mem_of_getElem? hslot
        rw [literal, hfirst slot hmem, if_neg Bool.false_ne_true]
        exact ih hothers hslot htoken

theorem exists_of_literal_eq_error {e : AsmError} (h : literal slots tokens = .error e) :
    ∃ (place : Nat) (slot : Slot) (token : List Char), slots[place]? = some slot ∧
      slot.isLiteral = true ∧ tokens[place]? = some token ∧
      e = .malformedImmediate (2 * slot.width) := by
  induction slots generalizing tokens with
  | nil => cases h
  | cons first slots ih =>
    cases tokens with
    | nil => cases h
    | cons t tokens =>
      rw [literal] at h
      split at h
      · next hliteral =>
        split at h
        · cases h
        · cases h
          exact ⟨0, first, t, rfl, hliteral, rfl, rfl⟩
      · obtain ⟨place, slot, token, hslot, hliteral, htoken, he⟩ := ih h
        exact ⟨place + 1, slot, token, hslot, hliteral, htoken, he⟩

theorem assembleTokens_of_resolve {entry : Entry} (h : resolve mnemonic tokens = .ok entry) :
    assembleTokens mnemonic tokens =
      (literal entry.slots tokens).map fun data => { entry, data } := by
  rw [assembleTokens, h]
  rfl

theorem assembleTokens_eq_ok_iff {i : Instruction} :
    assembleTokens mnemonic tokens = .ok i ↔
      resolve mnemonic tokens = .ok i.entry ∧ literal i.entry.slots tokens = .ok i.data := by
  simp only [assembleTokens, bind_eq_ok_iff]
  constructor
  · rintro ⟨entry, hentry, data, hdata, hi⟩
    cases hi
    exact ⟨hentry, hdata⟩
  · rintro ⟨hentry, hdata⟩
    exact ⟨i.entry, hentry, i.data, hdata, rfl⟩

theorem assembleTokens_eq_error_iff {e : AsmError} :
    assembleTokens mnemonic tokens = .error e ↔
      resolve mnemonic tokens = .error e ∨
        ∃ entry, resolve mnemonic tokens = .ok entry ∧ literal entry.slots tokens = .error e := by
  cases hresolve : resolve mnemonic tokens with
  | error cause =>
    rw [assembleTokens, hresolve]
    simp [bind, Except.bind]
  | ok entry =>
    rw [assembleTokens_of_resolve hresolve]
    cases hliteral : literal entry.slots tokens with
    | error cause => simp [Except.map, hliteral]
    | ok data => simp [Except.map, hliteral]

theorem resolve_eq_unknownMnemonic_iff :
    resolve mnemonic tokens = .error .unknownMnemonic ↔ named mnemonic = [] := by
  unfold resolve
  cases named mnemonic with
  | nil => simp
  | cons first others =>
    simp only
    split <;> simp

theorem resolve_ne_malformedImmediate (digits : Nat) :
    resolve mnemonic tokens ≠ .error (.malformedImmediate digits) := by
  unfold resolve
  split
  · simp
  · split <;> simp

/-! ## The cause of a refusal, by its operands -/

theorem assembleTokens_eq_unknownMnemonic_iff (tokens : List (List Char)) :
    assembleTokens mnemonic tokens = .error .unknownMnemonic ↔ named mnemonic = [] := by
  rw [assembleTokens_eq_error_iff, resolve_eq_unknownMnemonic_iff]
  constructor
  · rintro (h | ⟨entry, -, hliteral⟩)
    · exact h
    · obtain ⟨_, _, _, _, _, _, he⟩ := exists_of_literal_eq_error hliteral
      cases he
  · exact .inl

theorem isToken_zeros {digits : Nat} (h : digits = 2 ∨ digits = 4) :
    IsToken (List.replicate digits '0') :=
  isToken_of_isNumeral (by omega) (Hex.isNumeral_replicate_zero digits)

section

variable {entry : Entry} (hresolve : resolve mnemonic tokens = .ok entry)
  (hslot : entry.slots[place]? = some slot) (hliteral : slot.isLiteral = true)

include hresolve hslot

/-- The entry that was chosen does not change with what stands in a literal slot of it. -/
theorem resolve_set (htoken : accepts slot token = true) :
    resolve mnemonic (tokens.set place token) = .ok entry := by
  obtain ⟨hname, hfits⟩ := resolve_eq_ok_iff.1 hresolve
  exact resolve_eq_ok_iff.2 ⟨hname, fits_set hfits hslot htoken⟩

include hliteral

theorem assembleTokens_of_literal (htoken : tokens[place]? = some token) :
    assembleTokens mnemonic tokens =
      match Hex.word? (2 * slot.width) token with
      | some value => .ok { entry, data := value }
      | none => .error (.malformedImmediate (2 * slot.width)) := by
  have hslots : entry.slots.Pairwise fun slot _ => slot.isLiteral = false :=
    pairwise_slots entry.operation
  rw [assembleTokens_of_resolve hresolve, literal_of_getElem? hslots hslot hliteral htoken]
  cases Hex.word? (2 * slot.width) token <;> rfl

end

/-- A literal is refused exactly if zeros would be accepted in its place. -/
theorem assembleTokens_eq_malformedImmediate_iff {digits : Nat}
    (hrefused : ∀ i, assembleTokens mnemonic tokens ≠ .ok i) :
    assembleTokens mnemonic tokens = .error (.malformedImmediate digits) ↔
      ∃ (place : Nat) (token : List Char) (slot : Slot) (i : Instruction),
        tokens[place]? = some token ∧ isReserved token = false ∧
        assembleTokens mnemonic (tokens.set place (List.replicate digits '0')) = .ok i ∧
        i.entry.slots[place]? = some slot ∧ slot.isLiteral = true ∧ 2 * slot.width = digits := by
  constructor
  · intro h
    rcases assembleTokens_eq_error_iff.1 h with hresolve | ⟨entry, hresolve, hrefusal⟩
    · exact absurd hresolve (resolve_ne_malformedImmediate digits)
    obtain ⟨place, slot, token, hslot, hliteral, htoken, he⟩ :=
      exists_of_literal_eq_error hrefusal
    cases he
    have hplain := accepts_of_fits (resolve_eq_ok_iff.1 hresolve).2 hslot htoken
    rw [accepts_of_isLiteral hliteral, Bool.not_eq_true'] at hplain
    have zeros : Fills slot (List.replicate (2 * slot.width) '0') :=
      (fills_iff_of_isLiteral hliteral _).2 (Hex.isNumeral_replicate_zero _)
    obtain ⟨w, hw⟩ := exists_word?_of_fills hliteral zeros
    obtain ⟨inside, -⟩ := List.getElem?_eq_some_iff.1 htoken
    have hmended := assembleTokens_of_literal (resolve_set hresolve hslot (accepts_of_fills zeros))
      hslot hliteral (List.getElem?_set_self inside)
    rw [hw] at hmended
    exact ⟨place, token, slot, _, htoken, hplain, hmended, hslot, hliteral, rfl⟩
  · rintro ⟨place, token, slot, i, htoken, hplain, hmended, hslot, hliteral, rfl⟩
    -- the token is put back where the zeros stood, and the entry they selected is its entry too
    have htaken : accepts slot token = true := by
      rw [accepts_of_isLiteral hliteral, hplain]
      rfl
    have hresolve := resolve_set (assembleTokens_eq_ok_iff.1 hmended).1 hslot htaken
    have restored : (tokens.set place (List.replicate (2 * slot.width) '0')).set place token =
        tokens := by
      obtain ⟨inside, rfl⟩ := List.getElem?_eq_some_iff.1 htoken
      rw [List.set_set, List.set_getElem_self]
    rw [restored] at hresolve
    have hread := assembleTokens_of_literal hresolve hslot hliteral htoken
    cases hword : Hex.word? (2 * slot.width) token with
    | none =>
      rw [hword] at hread
      exact hread
    | some value =>
      rw [hword] at hread
      exact absurd hread (hrefused _)

end

/-! ## The cause of a refusal, by the line -/

section

variable {line : String}

theorem getElem?_tokens_iff (h : ¬Misplit line) {place : Nat} {token : List Char} :
    (tokens line)[place]? = some token ↔
      ∃ part, (parts line)[place]? = some part ∧ Text.trim part ≠ [] ∧ Text.trim part = token := by
  constructor
  · intro htoken
    by_cases hempty : Text.trim (operandsText line) = []
    · rw [tokens, if_pos hempty] at htoken
      cases htoken
    · rw [tokens, if_neg hempty, List.getElem?_map, Option.map_eq_some_iff] at htoken
      obtain ⟨part, hpart, htrim⟩ := htoken
      have hmem : part ∈ parts line := List.mem_of_getElem? hpart
      exact ⟨part, hpart, fun e => h ⟨hempty, .inr ⟨part, hmem, e⟩⟩, htrim⟩
  · rintro ⟨part, hpart, hfull, rfl⟩
    rw [tokens_of_part hpart hfull, List.getElem?_map, hpart]
    rfl

/-- A literal is as wide as a byte or a word. -/
theorem digits_of_isLiteral {slot : Slot} (h : slot.isLiteral = true) :
    2 * slot.width = 2 ∨ 2 * slot.width = 4 := by
  cases slot with
  | data8 => exact .inl rfl
  | data16 | address => exact .inr rfl
  | reg | pair | vector => cases h

theorem encode_eq_malformedImmediate_iff (h : ¬Misplit line) (hrefused : ∀ i, encode line ≠ .ok i)
    (digits : Nat) :
    encode line = .error (.malformedImmediate digits) ↔ MendedByZeros line digits := by
  rw [encode_of_not_misplit h] at hrefused ⊢
  rw [assembleTokens_eq_malformedImmediate_iff hrefused]
  constructor
  · rintro ⟨place, token, slot, i, htoken, hplain, hmended, hslot, hliteral, rfl⟩
    obtain ⟨part, hpart, hfull, rfl⟩ := (getElem?_tokens_iff h).1 htoken
    refine ⟨digits_of_isLiteral hliteral, place, part, slot, i, hpart, hfull,
      isReserved_eq_false_iff.1 hplain, ?_, hslot, hliteral, rfl⟩
    rw [encode_withOperand h hpart hfull (isToken_zeros (digits_of_isLiteral hliteral))]
    exact hmended
  · rintro ⟨hdigits, place, part, slot, i, hpart, hfull, hplain, hmended, hslot, hliteral, hwidth⟩
    rw [encode_withOperand h hpart hfull (isToken_zeros hdigits)] at hmended
    exact ⟨place, Text.trim part, slot, i, (getElem?_tokens_iff h).2 ⟨part, hpart, hfull, rfl⟩,
      isReserved_eq_false_iff.2 hplain, hmended, hslot, hliteral, hwidth⟩

/-- A mnemonic of the chart is that of a line that is accepted. -/
theorem named_eq_nil_iff {mnemonic : List Char} :
    named (String.ofList mnemonic) = [] ↔
      ¬∃ other i, encode other = .ok i ∧ mnemonicText other = mnemonic := by
  rw [List.eq_nil_iff_forall_not_mem, not_exists]
  constructor
  · rintro hnone other ⟨i, hencode, rfl⟩
    obtain ⟨tokens, -, hresolve, -⟩ := encode_eq_ok_iff.1 hencode
    exact hnone i.entry (mem_named.2 (resolve_eq_ok_iff.1 hresolve).1)
  · intro hnone entry hentry
    let i : Instruction := { entry, data := 0 }
    have hencode : encode i.text = .ok i := encode_text (Nat.pow_pos (by decide))
    obtain ⟨tokens, -, hresolve, -⟩ := encode_eq_ok_iff.1 hencode
    have hname : entry.mnemonic = String.ofList (mnemonicText i.text) :=
      (resolve_eq_ok_iff.1 hresolve).1
    rw [mem_named.1 hentry] at hname
    exact hnone i.text ⟨i, hencode, (String.ofList_injective hname).symm⟩

/-! ## The cause that is reported -/

/-- What a refused line is refused for.  Operand text that does not come apart is an invalid
operand whatever the mnemonic.  Otherwise the mnemonic is unknown if no accepted line has it, a
literal is malformed if zeros in its place would be accepted, and all that remains is an invalid
operand. -/
theorem encode_error_cause (line : String) (cause : AsmError) (h : encode line = .error cause) :
    (Misplit line → cause = .invalidOperand) ∧
      (¬Misplit line →
        (cause = .unknownMnemonic ↔
          ¬∃ other i, encode other = .ok i ∧ mnemonicText other = mnemonicText line) ∧
        (∀ digits, cause = .malformedImmediate digits ↔ MendedByZeros line digits) ∧
        (cause = .invalidOperand ↔
          (∃ other i, encode other = .ok i ∧ mnemonicText other = mnemonicText line) ∧
            ¬∃ digits, MendedByZeros line digits)) := by
  refine ⟨fun hsplit => ?_, fun hsplit => ?_⟩
  · have hrefused : encode line = .error .invalidOperand := by
      rw [encode, assembleParts, ← operandsText, operands_of_misplit hsplit]
      rfl
    rw [h] at hrefused
    cases hrefused
    rfl
  have unknown : cause = .unknownMnemonic ↔
      ¬∃ other i, encode other = .ok i ∧ mnemonicText other = mnemonicText line := by
    rw [← named_eq_nil_iff, ← assembleTokens_eq_unknownMnemonic_iff (tokens line),
      ← encode_of_not_misplit hsplit, h, Except.error.injEq]
  have malformed (digits : Nat) :
      cause = .malformedImmediate digits ↔ MendedByZeros line digits := by
    rw [← encode_eq_malformedImmediate_iff hsplit (by simp [h]), h, Except.error.injEq]
  have known : (∃ other i, encode other = .ok i ∧ mnemonicText other = mnemonicText line) ↔
      cause ≠ .unknownMnemonic := by
    rw [Ne, unknown, not_not]
  refine ⟨unknown, malformed, ?_⟩
  simp only [known, ← malformed]
  cases cause <;> simp

/-- Digits with a blank between them are malformed, since two zeros there would be accepted. -/
theorem encode_error_cause_digits :
    encode "MVI A , 9 9" = .error (.malformedImmediate 2) ∧ MendedByZeros "MVI A , 9 9" 2 := by
  have refused : encode "MVI A , 9 9" = .error (.malformedImmediate 2) := by decide +kernel
  have split : ¬Misplit "MVI A , 9 9" := by decide +kernel
  exact ⟨refused, (((encode_error_cause _ _ refused).2 split).2.1 2).1 rfl⟩

end

end Assembler
end I8085
