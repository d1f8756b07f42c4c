import I8085.Proofs.Assembler.Canonical
import Mathlib.Data.List.Nodup

/-!
# The order of the chart does not matter

The lookup goes through the entries of a mnemonic and takes the first that fits.  Stated for any
table and for two operands either of which may be missing, it finds the same entry in every
rearrangement of the chart, because no two entries of one name take the same operands.  And every
entry is found: by the names in its slots, and in a literal slot by whatever is not a reserved
name.
-/

namespace I8085
namespace Assembler

/-- Whether a slot takes an operand, where either of them may be missing. -/
def takes : Option Slot → Option (List Char) → Bool
  | none, none => true
  | some slot, some token => accepts slot token
  | _, _ => false

def suits (first second : Option (List Char)) (entry : Entry) : Bool :=
  takes entry.slots[0]? first && takes entry.slots[1]? second

/-- The lookup in a table: the first entry of the mnemonic that takes the operands. -/
def search (table : List Entry) (mnemonic : String) (first second : Option (List Char)) :
    Except AsmError Entry :=
  match table.filter fun entry => entry.mnemonic == mnemonic with
  | [] => .error .unknownMnemonic
  | entries =>
    match entries.find? (suits first second) with
    | some entry => .ok entry
    | none => .error .invalidOperand

/-- What an operand of an entry is written as: the name in its slot, the digit of its vector, and
in a literal slot anything but a reserved name. -/
def OwnToken : Slot → List Char → Prop
  | .reg r, t => t = r.name.toList
  | .pair p, t => t = p.name.toList
  | .vector n, t => t = (Nat.repr n).toList
  | .data8, t | .data16, t | .address, t => ∀ name ∈ reservedNames, t ≠ name.toList

/-! ## Operands that may be missing -/

theorem fits_eq_takes {slots : List Slot} {tokens : List (List Char)} (hslots : slots.length ≤ 2)
    (htokens : tokens.length ≤ 2) :
    fits slots tokens = (takes slots[0]? tokens[0]? && takes slots[1]? tokens[1]?) := by
  rcases slots with _ | ⟨s, _ | ⟨s', _ | ⟨s'', rest⟩⟩⟩
  · rcases tokens with _ | ⟨t, tokens⟩ <;> rfl
  · rcases tokens with _ | ⟨t, _ | ⟨t', tokens⟩⟩
    · rfl
    · rfl
    · simp [fits, takes]
  · rcases tokens with _ | ⟨t, _ | ⟨t', _ | ⟨t'', tokens⟩⟩⟩
    · rfl
    · simp [fits, takes]
    · simp [fits, takes]
    · simp at htokens
  · simp at hslots

/-- A second operand is taken only behind a first one. -/
theorem fits_of_takes {slots : List Slot} {first second : Option (List Char)}
    (hslots : slots.length ≤ 2) (hfirst : takes slots[0]? first = true)
    (hsecond : takes slots[1]? second = true) :
    fits slots (first.toList ++ second.toList) = true := by
  cases first with
  | none =>
    cases slots with
    | cons s rest => cases hfirst
    | nil => cases second with
      | none => rfl
      | some t' => cases hsecond
  | some t =>
    have htokens : ((some t).toList ++ second.toList).length ≤ 2 := by cases second <;> simp
    rw [fits_eq_takes hslots htokens, Bool.and_eq_true]
    refine ⟨hfirst, ?_⟩
    cases second <;> exact hsecond

theorem length_slots_entry_le (e : Entry) : e.slots.length ≤ 2 := length_slots_le e.operation

section

variable {e f : Entry} {first second : Option (List Char)}

theorem fits_of_suits (h : suits first second e = true) :
    fits e.slots (first.toList ++ second.toList) = true := by
  obtain ⟨hfirst, hsecond⟩ := Bool.and_eq_true_iff.1 h
  exact fits_of_takes (length_slots_entry_le e) hfirst hsecond

/-- A mnemonic and its operands suit at most one entry. -/
theorem eq_of_suits (hname : e.mnemonic = f.mnemonic) (he : suits first second e = true)
    (hf : suits first second f = true) : e = f :=
  eq_of_fits hname (fits_of_suits he) (fits_of_suits hf)

end

/-- The lookup of the assembler is the search of the chart. -/
theorem resolve_eq_search {tokens : List (List Char)} (h : tokens.length ≤ 2)
    (mnemonic : String) :
    resolve mnemonic tokens = search Entry.all mnemonic tokens[0]? tokens[1]? := by
  have same : (fun e : Entry => fits e.slots tokens) = suits tokens[0]? tokens[1]? :=
    funext fun e => fits_eq_takes (length_slots_entry_le e) h
  rw [resolve, search, ← same]
  rfl

/-! ## Rearranging a table -/

/-- Where at most one item can be found, it is found in any order. -/
theorem find?_eq_of_perm {α : Type} {p : α → Bool} {xs ys : List α} (h : xs.Perm ys)
    (unique : ∀ x ∈ xs, ∀ y ∈ xs, p x = true → p y = true → x = y) :
    xs.find? p = ys.find? p := by
  cases hy : ys.find? p with
  | none =>
    rw [List.find?_eq_none] at hy ⊢
    exact fun x hx => hy x (h.mem_iff.1 hx)
  | some y =>
    have hmem : y ∈ xs := h.mem_iff.2 (List.mem_of_find?_eq_some hy)
    have hpy : p y = true := List.find?_some hy
    cases hx : xs.find? p with
    | none => exact absurd hpy (List.find?_eq_none.1 hx y hmem)
    | some x =>
      rw [unique x (List.mem_of_find?_eq_some hx) y hmem (List.find?_some hx) hpy]

theorem search_eq_of_perm {table table' : List Entry} (h : table.Perm table') (mnemonic : String)
    (first second : Option (List Char)) :
    search table mnemonic first second = search table' mnemonic first second := by
  have named := h.filter fun entry => entry.mnemonic == mnemonic
  have unique : ∀ e ∈ table.filter (fun entry => entry.mnemonic == mnemonic),
      ∀ f ∈ table.filter (fun entry => entry.mnemonic == mnemonic),
        suits first second e = true → suits first second f = true → e = f := by
    intro e he f hf
    have hname : e.mnemonic = mnemonic := beq_iff_eq.1 (List.mem_filter.1 he).2
    have hname' : f.mnemonic = mnemonic := beq_iff_eq.1 (List.mem_filter.1 hf).2
    exact eq_of_suits (hname.trans hname'.symm)
  have found := find?_eq_of_perm named unique
  unfold search
  generalize table.filter _ = entries at named found ⊢
  generalize table'.filter _ = entries' at named found ⊢
  cases entries with
  | nil => rw [List.nil_perm.1 named]
  | cons e rest =>
    cases entries' with
    | nil => exact absurd named.symm (List.not_perm_nil_cons e rest)
    | cons e' rest' =>
      dsimp only
      rw [found]

/-! ## The entries -/

theorem nodup_all : Entry.all.Nodup := by
  have apart : (List.range 256).Pairwise fun i j => BitVec.ofNat 8 i ≠ BitVec.ofNat 8 j := by
    refine List.nodup_range.imp_of_mem (fun {i j} hi hj hne e => hne ?_)
    rw [List.mem_range] at hi hj
    have values := congrArg BitVec.toNat e
    rwa [BitVec.toNat_ofNat, BitVec.toNat_ofNat, Nat.mod_eq_of_lt hi, Nat.mod_eq_of_lt hj]
      at values
  refine apart.filterMap _ (fun i j hne e he f hf heq => hne ?_)
  rw [← Entry.ofOpcode?_eq_some_iff.1 he, ← Entry.ofOpcode?_eq_some_iff.1 hf, heq]

theorem length_le_one_of_nodup {α : Type} {xs : List α} (h : xs.Nodup)
    (unique : ∀ x ∈ xs, ∀ y ∈ xs, x = y) : xs.length ≤ 1 := by
  rcases xs with _ | ⟨x, _ | ⟨y, rest⟩⟩
  · exact Nat.zero_le 1
  · exact Nat.le_refl 1
  · have same : x = y := unique x List.mem_cons_self y (List.mem_cons_of_mem x List.mem_cons_self)
    rw [same] at h
    exact absurd List.mem_cons_self (List.nodup_cons.1 h).1

theorem length_suiting_le_one (mnemonic : String) (first second : Option (List Char)) :
    (Entry.all.filter fun e => e.mnemonic == mnemonic && suits first second e).length ≤ 1 := by
  refine length_le_one_of_nodup (nodup_all.filter _) (fun e he f hf => ?_)
  obtain ⟨hname, he⟩ := Bool.and_eq_true_iff.1 (List.mem_filter.1 he).2
  obtain ⟨hname', hf⟩ := Bool.and_eq_true_iff.1 (List.mem_filter.1 hf).2
  exact eq_of_suits ((beq_iff_eq.1 hname).trans (beq_iff_eq.1 hname').symm) he hf

theorem accepts_of_ownToken {slot : Slot} {t : List Char} (h : OwnToken slot t) :
    accepts slot t = true := by
  cases hslot : slot.isLiteral with
  | false =>
    cases slot with
    | reg r => exact (fills_iff_accepts hslot t).1 h
    | pair p => exact (fills_iff_accepts hslot t).1 h
    | vector n => exact (fills_iff_accepts hslot t).1 h
    | data8 | data16 | address => cases hslot
  | true =>
    have plain : isReserved t = false := by
      refine isReserved_eq_false_iff.2 (fun name hname e => ?_)
      cases slot with
      | data8 | data16 | address => exact h name hname e.symm
      | reg | pair | vector => cases hslot
    rw [accepts_of_isLiteral hslot, plain]
    rfl

/-- An entry is found by its mnemonic and its own operands. -/
theorem resolve_of_ownTokens {e : Entry} {tokens : List (List Char)}
    (h : List.Forall₂ OwnToken e.slots tokens) : resolve e.mnemonic tokens = .ok e :=
  resolve_eq_ok_iff.2 ⟨rfl, fits_iff_forall₂.2 (h.imp fun _ _ => accepts_of_ownToken)⟩

/-- No mnemonic and operands suit two entries, so the chart can be searched in any order; the
assembler's lookup is that search; and it finds every entry by the entry's own name and operands,
a literal being any text that is not reserved. -/
theorem search_unambiguous :
    (∀ (mnemonic : String) (first second : Option (List Char)),
      (Entry.all.filter fun e => e.mnemonic == mnemonic && suits first second e).length ≤ 1) ∧
    (∀ table : List Entry, table.Perm Entry.all →
      ∀ (mnemonic : String) (first second : Option (List Char)),
        search table mnemonic first second = search Entry.all mnemonic first second) ∧
    (∀ (mnemonic : String) (tokens : List (List Char)), tokens.length ≤ 2 →
      resolve mnemonic tokens = search Entry.all mnemonic tokens[0]? tokens[1]?) ∧
    ∀ (e : Entry) (tokens : List (List Char)),
      List.Forall₂ OwnToken e.slots tokens → resolve e.mnemonic tokens = .ok e :=
  ⟨length_suiting_le_one, fun _ h => search_eq_of_perm h, fun mnemonic _ h =>
    resolve_eq_search h mnemonic, fun _ _ => resolve_of_ownTokens⟩

end Assembler
end I8085
