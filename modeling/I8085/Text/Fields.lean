/-!
# Texts cut at a separator

A list of fields is written with a separator between neighbours; a pair is
written with one, and a second separator belongs to the second half.
-/

namespace I8085
namespace Text

/-- The fields of a text, a separator ending each but the last.  There is always
one: the empty text is one empty field. -/
def fields (separator : Char) (s : List Char) : List (List Char) := s.splitOn separator

/-- The text before the first separator; the whole text if there is none. -/
def upTo (separator : Char) (s : List Char) : List Char := s.takeWhile (· != separator)

def cut? (separator : Char) : List Char → Option (List Char × List Char)
  | [] => none
  | c :: rest =>
    if c = separator then some ([], rest)
    else (cut? separator rest).map fun (before, after) => (c :: before, after)

theorem cut?_eq_some {separator : Char} {s before after : List Char}
    (h : cut? separator s = some (before, after)) :
    s = before ++ separator :: after ∧ separator ∉ before := by
  induction s generalizing before with
  | nil => simp [cut?] at h
  | cons c rest ih =>
    unfold cut? at h
    split at h
    · next hc =>
      simp only [Option.some.injEq, Prod.mk.injEq] at h
      obtain ⟨rfl, rfl⟩ := h
      simp [hc]
    · next hc =>
      obtain ⟨⟨b, a⟩, hb, he⟩ := Option.map_eq_some_iff.1 h
      simp only [Prod.mk.injEq] at he
      obtain ⟨rfl, rfl⟩ := he
      obtain ⟨hs, hn⟩ := ih hb
      refine ⟨by rw [hs]; rfl, ?_⟩
      simp only [List.mem_cons, not_or]
      exact ⟨fun e => hc e.symm, hn⟩

theorem cut?_append {separator : Char} {before : List Char} (after : List Char)
    (h : separator ∉ before) :
    cut? separator (before ++ separator :: after) = some (before, after) := by
  induction before with
  | nil => simp [cut?]
  | cons c rest ih =>
    simp only [List.mem_cons, not_or] at h
    have hc : ¬c = separator := fun e => h.1 e.symm
    simp [cut?, hc, ih h.2]

theorem cut?_eq_none_iff {separator : Char} {s : List Char} :
    cut? separator s = none ↔ separator ∉ s := by
  induction s with
  | nil => simp [cut?]
  | cons c rest ih =>
    unfold cut?
    split
    · next hc => simp [hc]
    · next hc =>
      simp only [Option.map_eq_none_iff, ih, List.mem_cons, not_or]
      exact ⟨fun h => ⟨fun e => hc e.symm, h⟩, fun h => h.2⟩

end Text
end I8085
