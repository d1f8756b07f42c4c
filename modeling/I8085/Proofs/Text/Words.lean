import I8085.Text.Blank
import I8085.Text.Fields
import Mathlib.Data.List.TakeWhile

/-!
# Words and the blanks between them

Text without white space passes through the cutting of a line unchanged: nothing
is stripped from its ends, it is its own first word, and a blank behind it ends
it.
-/

namespace I8085
namespace Text

/-- Text without white space. -/
def Solid (s : List Char) : Prop := ∀ c ∈ s, isBlank c = false

instance : DecidablePred Solid := fun s => List.decidableBAll (fun c => isBlank c = false) s

theorem isBlank_space : isBlank ' ' = true := rfl

variable {s t w : List Char}

theorem Solid.reverse (h : Solid s) : Solid s.reverse :=
  fun c hc => h c (List.mem_reverse.1 hc)

/-! ## Stripping the ends -/

theorem trimStart_append (hw : Solid w) (hne : w ≠ []) (s : List Char) :
    trimStart (w ++ s) = w ++ s := by
  cases w with
  | nil => exact absurd rfl hne
  | cons c rest =>
    have hc : ¬isBlank c = true := by
      rw [hw c List.mem_cons_self]
      exact Bool.false_ne_true
    exact List.dropWhile_cons_of_neg hc

theorem trimEnd_append (hw : Solid w) (hne : w ≠ []) (s : List Char) :
    trimEnd (s ++ w) = s ++ w := by
  have hrev : trimStart (s ++ w).reverse = (s ++ w).reverse := by
    rw [List.reverse_append]
    exact trimStart_append hw.reverse (fun e => hne (List.reverse_eq_nil_iff.1 e)) s.reverse
  show (trimStart (s ++ w).reverse).reverse = s ++ w
  rw [hrev, List.reverse_reverse]

/-- Nothing is stripped from a text that begins and ends with words. -/
theorem trim_append (hs : Solid s) (hsne : s ≠ []) (ht : Solid t) (htne : t ≠ [])
    (middle : List Char) : trim (s ++ (middle ++ t)) = s ++ (middle ++ t) := by
  rw [trim, trimStart_append hs hsne, ← List.append_assoc, trimEnd_append ht htne]

theorem Solid.trim_eq (h : Solid s) : trim s = s := by
  by_cases hne : s = []
  · subst hne
    rfl
  · have hstart : trimStart s = s := by simpa using trimStart_append h hne []
    have hend : trimEnd s = s := by simpa using trimEnd_append h hne []
    rw [trim, hstart, hend]

/-! ## White space around a text -/

/-- Text that is white space throughout. -/
def Blank (s : List Char) : Prop := ∀ c ∈ s, isBlank c = true

instance : DecidablePred Blank := fun s => List.decidableBAll (fun c => isBlank c = true) s

theorem Blank.append (hs : Blank s) (ht : Blank t) : Blank (s ++ t) := by
  intro c hc
  rcases List.mem_append.1 hc with h | h
  · exact hs c h
  · exact ht c h

theorem Blank.reverse (h : Blank s) : Blank s.reverse :=
  fun c hc => h c (List.mem_reverse.1 hc)

theorem blank_takeWhile (s : List Char) : Blank (s.takeWhile isBlank) :=
  List.all_eq_true.1 List.all_takeWhile

theorem trimStart_eq_nil_iff : trimStart s = [] ↔ Blank s := List.dropWhile_eq_nil_iff

theorem trimEnd_append_blank (s : List Char) (h : Blank w) : trimEnd (s ++ w) = trimEnd s := by
  rw [trimEnd, List.reverse_append, List.dropWhile_append_of_pos h.reverse, trimEnd]

theorem trim_blank_append (h : Blank w) (s : List Char) : trim (w ++ s) = trim s := by
  rw [trim, trimStart, List.dropWhile_append_of_pos h, trim, trimStart]

theorem trim_append_blank (s : List Char) (h : Blank w) : trim (s ++ w) = trim s := by
  have start : trimStart (s ++ w) =
      if (trimStart s).isEmpty then trimStart w else trimStart s ++ w := List.dropWhile_append
  rw [trim, start, trim]
  split
  · next empty =>
    rw [trimStart_eq_nil_iff.2 h, List.isEmpty_iff.1 empty]
  · exact trimEnd_append_blank (trimStart s) h

/-- A text is what is left when it is stripped, with white space before and after. -/
theorem exists_trim (s : List Char) :
    ∃ before after, Blank before ∧ Blank after ∧ s = before ++ trim s ++ after := by
  refine ⟨s.takeWhile isBlank, ((trimStart s).reverse.takeWhile isBlank).reverse,
    blank_takeWhile s, (blank_takeWhile _).reverse, ?_⟩
  have ends : trim s ++ ((trimStart s).reverse.takeWhile isBlank).reverse = trimStart s := by
    rw [trim, trimEnd, ← List.reverse_append, List.takeWhile_append_dropWhile, List.reverse_reverse]
  rw [List.append_assoc, ends]
  exact List.takeWhile_append_dropWhile.symm

theorem trim_trim (s : List Char) : trim (trim s) = trim s := by
  obtain ⟨before, after, hbefore, hafter, hs⟩ := exists_trim s
  have stripped := congrArg trim hs
  rw [trim_append_blank _ hafter, trim_blank_append hbefore] at stripped
  exact stripped.symm

theorem exists_trimEnd (s : List Char) : ∃ after, Blank after ∧ s = trimEnd s ++ after := by
  refine ⟨(s.reverse.takeWhile isBlank).reverse, (blank_takeWhile _).reverse, ?_⟩
  rw [trimEnd, ← List.reverse_append, List.takeWhile_append_dropWhile, List.reverse_reverse]

/-- Behind a word white space is stripped from the end alone. -/
theorem trim_solid_append (hw : Solid w) (hne : w ≠ []) (s : List Char) :
    trim (w ++ s) = w ++ trimEnd s := by
  obtain ⟨after, hafter, hs⟩ := exists_trimEnd s
  rw [trim, trimStart_append hw hne]
  cases hend : trimEnd s with
  | nil =>
    rw [hend, List.nil_append] at hs
    have word : trimEnd w = w := trimEnd_append hw hne []
    rw [hs, trimEnd_append_blank w hafter, word, List.append_nil]
  | cons c rest =>
    have kept : ¬(s.reverse.dropWhile isBlank).isEmpty = true := by
      rw [List.isEmpty_iff, ← List.reverse_eq_nil_iff, ← trimEnd, hend]
      exact List.cons_ne_nil c rest
    rw [trimEnd, List.reverse_append, List.dropWhile_append, if_neg kept, List.reverse_append,
      List.reverse_reverse, ← trimEnd, hend]

theorem length_trim_le (s : List Char) : (trim s).length ≤ s.length := by
  obtain ⟨before, after, -, -, hs⟩ := exists_trim s
  have lengths := congrArg List.length hs
  rw [List.length_append, List.length_append] at lengths
  omega

/-! ## The first word -/

theorem Solid.firstWord_append (h : Solid w) (s : List Char) :
    firstWord (w ++ s) = w ++ firstWord s := by
  have all : ∀ c ∈ w, (!isBlank c) = true := by
    intro c hc
    rw [h c hc]
    rfl
  exact List.takeWhile_append_of_pos all

theorem Solid.firstWord_eq (h : Solid w) : firstWord w = w := by
  have whole := h.firstWord_append []
  rwa [List.append_nil, show firstWord [] = [] from rfl, List.append_nil] at whole

theorem Solid.afterFirstWord_eq (h : Solid w) : afterFirstWord w = [] := by
  have parts := firstWord_append_afterFirstWord w
  rw [h.firstWord_eq] at parts
  exact List.append_right_eq_self.1 parts

theorem Solid.firstWord_append_blank (h : Solid w) (ht : Blank t) (hne : t ≠ [])
    (s : List Char) : firstWord (w ++ (t ++ s)) = w := by
  cases t with
  | nil => exact absurd rfl hne
  | cons c rest =>
    have stop : firstWord (c :: rest ++ s) = [] := by
      apply List.takeWhile_cons_of_neg
      rw [ht c List.mem_cons_self]
      exact Bool.false_ne_true
    rw [h.firstWord_append, stop, List.append_nil]

theorem Solid.afterFirstWord_append_blank (h : Solid w) (ht : Blank t) (hne : t ≠ [])
    (s : List Char) : afterFirstWord (w ++ (t ++ s)) = t ++ s := by
  have parts := firstWord_append_afterFirstWord (w ++ (t ++ s))
  rw [h.firstWord_append_blank ht hne] at parts
  exact List.append_cancel_left parts

/-- What follows the first word begins with white space. -/
theorem afterFirstWord_ne_append (hw : Solid w) (hne : w ≠ []) (s t : List Char) :
    afterFirstWord s ≠ w ++ t := by
  intro e
  cases w with
  | nil => exact hne rfl
  | cons c rest =>
    have stop := List.head?_dropWhile_not (fun c => !isBlank c) s
    rw [show s.dropWhile (fun c => !isBlank c) = c :: rest ++ t from e] at stop
    have hc : (!isBlank c) = false := stop
    rw [hw c List.mem_cons_self] at hc
    cases hc

theorem solid_firstWord (s : List Char) : Solid (firstWord s) := by
  intro c hc
  simpa using List.mem_takeWhile_imp hc

theorem firstWord_of_append (h : firstWord (s ++ t) = []) : firstWord s = [] := by
  cases s with
  | nil => rfl
  | cons c rest =>
    have hc : isBlank c = true := by simpa [firstWord, List.takeWhile_cons] using h
    exact List.takeWhile_cons_of_neg (by simp [hc])

theorem firstWord_afterFirstWord (s : List Char) : firstWord (afterFirstWord s) = [] := by
  rw [firstWord, List.takeWhile_eq_nil_iff]
  exact fun h => List.dropWhile_get_zero_not _ s h

/-- A stripped text begins with its first word. -/
theorem firstWord_trim_ne_nil (h : trim s ≠ []) : firstWord (trim s) ≠ [] := by
  intro hword
  cases hs : trim s with
  | nil => exact h hs
  | cons c rest =>
    rw [hs] at hword
    have hc : isBlank c = true := by simpa [firstWord, List.takeWhile_cons] using hword
    have shorter : trim s = trim rest := by
      rw [← trim_trim, hs]
      exact trim_blank_append (w := [c]) (by simpa [Blank] using hc) rest
    have lengths := length_trim_le rest
    rw [← shorter, hs, List.length_cons] at lengths
    omega

/-! ## Fields -/

theorem fields_intercalate {separator : Char} {pieces : List (List Char)} (hne : pieces ≠ [])
    (h : ∀ piece ∈ pieces, separator ∉ piece) :
    fields separator (List.intercalate [separator] pieces) = pieces :=
  List.splitOn_intercalate separator h hne

theorem intercalate_fields (separator : Char) (s : List Char) :
    List.intercalate [separator] (fields separator s) = s :=
  List.intercalate_splitOn separator

theorem length_fields (separator : Char) (s : List Char) :
    (fields separator s).length = s.count separator + 1 := by
  induction s with
  | nil => rfl
  | cons c rest ih =>
    rw [fields, List.splitOn_cons_eq_if_modifyHead, List.count_cons]
    split
    · rw [List.length_cons, ← fields, ih]
    · rw [List.length_modifyHead, ← fields, ih]

theorem not_mem_of_mem_fields {separator : Char} {piece : List Char}
    (h : piece ∈ fields separator s) : separator ∉ piece := by
  induction s generalizing piece with
  | nil =>
    rw [List.mem_singleton.1 h]
    exact List.not_mem_nil
  | cons c rest ih =>
    rw [fields, List.splitOn_cons_eq_if_modifyHead, ← fields] at h
    split at h
    · rcases List.mem_cons.1 h with rfl | h
      · exact List.not_mem_nil
      · exact ih h
    · next hc =>
      cases hfields : fields separator rest with
      | nil =>
        rw [hfields] at h
        cases h
      | cons first others =>
        rw [hfields, List.modifyHead_cons] at h
        rw [hfields] at ih
        rcases List.mem_cons.1 h with rfl | h
        · rw [List.mem_cons, not_or]
          exact ⟨fun e => hc (beq_iff_eq.2 e.symm), ih List.mem_cons_self⟩
        · exact ih (List.mem_cons_of_mem first h)

theorem fields_append_left {separator : Char} (h : separator ∉ w) (s : List Char) :
    fields separator (w ++ s) = (fields separator s).modifyHead (w ++ ·) := by
  induction w with
  | nil => exact (congrFun List.modifyHead_id (fields separator s)).symm
  | cons c rest ih =>
    rw [List.mem_cons, not_or] at h
    have hc : ¬(c == separator) = true := fun e => h.1 (beq_iff_eq.1 e).symm
    rw [List.cons_append, fields, List.splitOn_cons_eq_if_modifyHead, if_neg hc, ← fields, ih h.2,
      List.modifyHead_modifyHead]
    rfl

theorem exists_fields_append {separator : Char} (h : separator ∉ w) (s : List Char) :
    ∃ body last, fields separator s = body ++ [last] ∧
      fields separator (s ++ w) = body ++ [last ++ w] := by
  induction s with
  | nil =>
    have whole := fields_append_left h []
    rw [List.append_nil] at whole
    refine ⟨[], [], rfl, whole.trans ?_⟩
    show [w ++ []] = [w]
    rw [List.append_nil]
  | cons c rest ih =>
    obtain ⟨body, last, hs, hsw⟩ := ih
    rw [List.cons_append, fields, fields, List.splitOn_cons_eq_if_modifyHead,
      List.splitOn_cons_eq_if_modifyHead, ← fields, ← fields, hs, hsw]
    split
    · exact ⟨[] :: body, last, rfl, rfl⟩
    · cases body with
      | nil => exact ⟨[], c :: last, rfl, rfl⟩
      | cons piece body => exact ⟨(c :: piece) :: body, last, rfl, rfl⟩

theorem fields_append_cons (separator : Char) (s t : List Char) :
    fields separator (s ++ separator :: t) = fields separator s ++ fields separator t :=
  List.splitOn_append_cons_self s t

theorem Blank.not_mem (h : Blank w) {c : Char} (hc : isBlank c = false) : c ∉ w := by
  intro hmem
  rw [h c hmem] at hc
  cases hc

/-- White space in front of a text is white space in front of its first field. -/
theorem map_trim_fields_blank_append {separator : Char} (h : isBlank separator = false)
    (hw : Blank w) (s : List Char) :
    (fields separator (w ++ s)).map trim = (fields separator s).map trim := by
  rw [fields_append_left (hw.not_mem h)]
  cases fields separator s with
  | nil => rfl
  | cons first rest =>
    rw [List.modifyHead_cons, List.map_cons, List.map_cons, trim_blank_append hw]

/-- White space behind a text is white space behind its last field. -/
theorem map_trim_fields_append_blank {separator : Char} (h : isBlank separator = false)
    (s : List Char) (hw : Blank w) :
    (fields separator (s ++ w)).map trim = (fields separator s).map trim := by
  obtain ⟨body, last, hs, hsw⟩ := exists_fields_append (hw.not_mem h) s
  rw [hs, hsw, List.map_append, List.map_append, List.map_singleton, List.map_singleton,
    trim_append_blank last hw]

/-- White space around a text is white space around its first and last field. -/
theorem map_trim_fields_trim {separator : Char} (h : isBlank separator = false) (s : List Char) :
    (fields separator (trim s)).map trim = (fields separator s).map trim := by
  obtain ⟨before, after, hbefore, hafter, hs⟩ := exists_trim s
  calc (fields separator (trim s)).map trim
    _ = (fields separator (before ++ trim s)).map trim :=
      (map_trim_fields_blank_append h hbefore (trim s)).symm
    _ = (fields separator (before ++ trim s ++ after)).map trim :=
      (map_trim_fields_append_blank h _ hafter).symm
    _ = (fields separator s).map trim := by rw [← hs]

/-! ## The text in front of a separator -/

theorem upTo_append {separator : Char} (h : separator ∉ s) (t : List Char) :
    upTo separator (s ++ t) = s ++ upTo separator t := by
  apply List.takeWhile_append_of_pos
  intro c hc
  exact bne_iff_ne.2 (fun e => h (e ▸ hc))

theorem upTo_append_cons {separator : Char} (h : separator ∉ s) (t : List Char) :
    upTo separator (s ++ separator :: t) = s := by
  rw [upTo_append h, upTo, List.takeWhile_cons_of_neg (by simp), List.append_nil]

theorem upTo_eq_self {separator : Char} (h : separator ∉ s) : upTo separator s = s := by
  simpa [upTo] using upTo_append h []

/-- What follows a separator does not count, whatever it is. -/
theorem upTo_append_of_mem {separator : Char} (h : separator ∈ s) (t : List Char) :
    upTo separator (s ++ t) = upTo separator s := by
  induction s with
  | nil => cases h
  | cons c rest ih =>
    rw [List.cons_append, upTo, upTo, List.takeWhile_cons, List.takeWhile_cons]
    split
    · next hc =>
      have hrest : separator ∈ rest := by
        rcases List.mem_cons.1 h with rfl | hrest
        · exact absurd rfl (bne_iff_ne.1 hc)
        · exact hrest
      exact congrArg (c :: ·) (ih hrest)
    · rfl

end Text
end I8085
