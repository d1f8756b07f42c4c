import I8085.Word
import Mathlib.Data.List.Induction

/-!
# Moves of a stack

A stack of words by itself, without a memory to hold it.  A row of moves leaves
`words` on a stack that was empty, and the `depth` is what was put less what was
taken.  `length_words` ties the two together for a row that takes nothing from
below its start, and `lastPut_of_words` finds for each word the move that left it
there.
-/

namespace I8085

/-- What an instruction does to the words on the stack. -/
inductive StackMove
  | keep
  | put (word : Word)
  | take
  | replace (word : Word)
deriving DecidableEq

namespace StackMove

/-- The words after a move, the top first. -/
def apply (move : StackMove) (words : List Word) : List Word :=
  match move with
  | keep => words
  | put word => word :: words
  | take => words.tail
  | replace word => word :: words.tail

def change : StackMove → Int
  | keep => 0
  | put _ => 1
  | take => -1
  | replace _ => 0

/-- Words put minus words taken. -/
def depth : List StackMove → Int
  | [] => 0
  | move :: moves => move.change + depth moves

def words (moves : List StackMove) : List Word :=
  moves.foldl (fun words move => move.apply words) []

/-- The moves take no word from below where they begin, and replace none there. -/
structure Grounded (moves : List StackMove) : Prop where
  depth_nonneg : ∀ p, p <+: moves → 0 ≤ depth p
  depth_pos : ∀ p word, p ++ [replace word] <+: moves → 0 < depth p

/-- The latest move at the level `level` words under the top has left `word` there:
the moves after it stay above. -/
def LastPut (moves : List StackMove) (level : Nat) (word : Word) : Prop :=
  ∃ before move after, moves = before ++ move :: after ∧
    (move = put word ∨ move = replace word) ∧ Grounded after ∧ depth after = level

variable {moves : List StackMove} {move : StackMove}

@[simp]
theorem depth_concat (moves : List StackMove) (move : StackMove) :
    depth (moves ++ [move]) = depth moves + move.change := by
  induction moves with
  | nil => exact Int.add_comm move.change 0
  | cons first moves ih => rw [List.cons_append, depth, depth, ih, Int.add_assoc]

@[simp]
theorem words_concat (moves : List StackMove) (move : StackMove) :
    words (moves ++ [move]) = move.apply (words moves) := by
  simp [words]

namespace Grounded

theorem nil : Grounded [] where
  depth_nonneg p hp := by
    rw [List.prefix_nil.1 hp]
    exact Int.le_refl 0
  depth_pos p word hp := by
    simp at hp

theorem depth_self (h : Grounded moves) : 0 ≤ depth moves :=
  h.depth_nonneg moves (List.prefix_refl _)

theorem of_prefix {p : List StackMove} (h : Grounded moves) (hp : p <+: moves) : Grounded p where
  depth_nonneg q hq := h.depth_nonneg q (hq.trans hp)
  depth_pos q word hq := h.depth_pos q word (hq.trans hp)

theorem concat (h : Grounded moves) (hmove : 0 ≤ depth moves + move.change)
    (hreplace : ∀ word, move = replace word → 0 < depth moves) : Grounded (moves ++ [move]) where
  depth_nonneg p hp := by
    rcases List.prefix_concat_iff.1 hp with rfl | hp
    · rwa [depth_concat]
    · exact h.depth_nonneg p hp
  depth_pos p word hp := by
    rcases List.prefix_concat_iff.1 hp with e | hp
    · obtain ⟨rfl, hlast⟩ := List.append_inj' e rfl
      exact hreplace word (List.singleton_inj.1 hlast).symm
    · exact h.depth_pos p word hp

end Grounded

/-- The stack is as high as the depth says. -/
theorem length_words (h : Grounded moves) : ((words moves).length : Int) = depth moves := by
  induction moves using List.reverseRecOn with
  | nil => rfl
  | append_singleton moves move ih =>
    have hlength := ih (h.of_prefix (List.prefix_append _ _))
    have hend := h.depth_self
    rw [depth_concat] at hend
    rw [depth_concat, words_concat]
    cases move with
    | keep =>
      rw [apply, change, hlength, Int.add_zero]
    | put word =>
      rw [apply, change, List.length_cons]
      omega
    | take =>
      rw [change] at hend
      rw [apply, change, List.length_tail]
      omega
    | replace word =>
      have hpos := h.depth_pos moves word (List.prefix_refl _)
      rw [apply, change, List.length_cons, List.length_tail]
      omega

namespace LastPut

theorem top {word : Word} (h : move = put word ∨ move = replace word) :
    LastPut (moves ++ [move]) 0 word :=
  ⟨moves, move, [], rfl, h, .nil, rfl⟩

/-- A later move changes the level of a word, as long as it stays above it. -/
theorem concat {level level' : Nat} {word : Word} (h : LastPut moves level word)
    (hlevel : (level' : Int) = level + move.change)
    (hreplace : ∀ w, move = replace w → 0 < level) : LastPut (moves ++ [move]) level' word := by
  obtain ⟨before, origin, after, rfl, horigin, hground, hdepth⟩ := h
  refine ⟨before, origin, after ++ [move], by simp, horigin, ?_, ?_⟩
  · refine hground.concat ?_ (fun w hw => ?_)
    · rw [hdepth, ← hlevel]
      exact Int.natCast_nonneg level'
    · rw [hdepth]
      exact Int.natCast_pos.2 (hreplace w hw)
  · rw [depth_concat, hdepth, hlevel]

end LastPut

/-- Each word on the stack is the one that the latest move at its level has left. -/
theorem lastPut_of_words {level : Nat} {word : Word} (h : (words moves)[level]? = some word) :
    LastPut moves level word := by
  induction moves using List.reverseRecOn generalizing level with
  | nil => simp [words] at h
  | append_singleton moves move ih =>
    rw [words_concat] at h
    cases move with
    | keep => exact (ih h).concat (Int.add_zero _).symm (fun _ e => by cases e)
    | put new =>
      cases level with
      | zero =>
        cases h
        exact .top (.inl rfl)
      | succ level => exact (ih h).concat rfl (fun _ e => by cases e)
    | take =>
      rw [apply, List.getElem?_tail] at h
      refine (ih h).concat ?_ (fun _ e => by cases e)
      show (level : Int) = ((level + 1 : Nat) : Int) + -1
      omega
    | replace new =>
      cases level with
      | zero =>
        cases h
        exact .top (.inr rfl)
      | succ level =>
        rw [apply, List.getElem?_cons_succ, List.getElem?_tail] at h
        exact (ih h).concat (Int.add_zero _).symm (fun _ _ => Nat.succ_pos level)

end StackMove
end I8085
