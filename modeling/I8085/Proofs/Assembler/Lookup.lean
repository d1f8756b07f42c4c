import I8085.Assembler.Line

/-!
# No line fits two entries

A mnemonic can have as many as sixty-three entries, told apart by the names in their
slots alone.  Where one token could stand in two slots is a question about the
slots, `overlap`, and the chart is searched once for two places with one mnemonic
and overlapping slots.  There are none, so the first entry that fits is the only
one and the order of the chart does not matter.
-/

namespace I8085
namespace Assembler

theorem isReserved_eq_false_iff {token : List Char} :
    isReserved token = false ↔ ∀ name ∈ reservedNames, name.toList ≠ token := by
  simp [isReserved]

/-- What has to stand in a slot; nothing in particular if it is a literal. -/
def nameOf? : Slot → Option (List Char)
  | .reg r => some r.name.toList
  | .pair p => some p.name.toList
  | .vector n => some [Hex.digit n]
  | .data8 | .data16 | .address => none

theorem accepts_of_nameOf? {slot : Slot} {name token : List Char} (h : nameOf? slot = some name) :
    accepts slot token = (name == token) := by
  cases slot <;> cases h <;> rfl

theorem accepts_of_nameOf?_none {slot : Slot} {token : List Char} (h : nameOf? slot = none) :
    accepts slot token = !isReserved token := by
  cases slot <;> first | rfl | cases h

/-- Whether some token can stand in either slot. -/
def slotsMeet (s t : Slot) : Bool :=
  match nameOf? s, nameOf? t with
  | some x, some y => x == y
  | some x, none => !isReserved x
  | none, some y => !isReserved y
  | none, none => true

def overlap : List Slot → List Slot → Bool
  | [], [] => true
  | s :: ss, t :: ts => slotsMeet s t && overlap ss ts
  | _, _ => false

theorem slotsMeet_of_accepts {s t : Slot} {token : List Char} (hs : accepts s token = true)
    (ht : accepts t token = true) : slotsMeet s t = true := by
  unfold slotsMeet
  cases hx : nameOf? s with
  | none =>
    cases hy : nameOf? t with
    | none => rfl
    | some y =>
      rw [accepts_of_nameOf?_none hx] at hs
      rw [accepts_of_nameOf? hy, beq_iff_eq] at ht
      rw [ht]
      exact hs
  | some x =>
    rw [accepts_of_nameOf? hx, beq_iff_eq] at hs
    cases hy : nameOf? t with
    | none =>
      rw [accepts_of_nameOf?_none hy] at ht
      rw [hs]
      exact ht
    | some y =>
      rw [accepts_of_nameOf? hy, beq_iff_eq] at ht
      rw [hs, ht]
      exact beq_self_eq_true token

theorem overlap_of_fits {ss ts : List Slot} {tokens : List (List Char)}
    (hs : fits ss tokens = true) (ht : fits ts tokens = true) : overlap ss ts = true := by
  induction tokens generalizing ss ts with
  | nil =>
    cases ss with
    | nil => cases ts with
      | nil => rfl
      | cons => cases ht
    | cons => cases hs
  | cons token tokens ih =>
    cases ss with
    | nil => cases hs
    | cons s ss => cases ts with
      | nil => cases ht
      | cons t ts =>
        rw [fits, Bool.and_eq_true] at hs ht
        rw [overlap, Bool.and_eq_true]
        exact ⟨slotsMeet_of_accepts hs.1 ht.1, ih hs.2 ht.2⟩

/-! ## The chart -/

/-- Whether one line can stand for the operations of two places. -/
def confusable : Option Operation → Option Operation → Bool
  | some o, some p => o.mnemonic == p.mnemonic && overlap o.slots p.slots
  | _, _ => false

theorem places_unambiguous : Opcode.places.Pairwise fun x y => confusable x y = false := by
  decide +kernel

theorem getElem?_places (e : Entry) :
    getElem? Opcode.places e.opcode.toNat = some (some e.operation) := by
  rw [Opcode.getElem?_places, e.charted]

theorem not_lt_of_fits {e f : Entry} {tokens : List (List Char)}
    (hname : e.mnemonic = f.mnemonic) (he : fits e.slots tokens = true)
    (hf : fits f.slots tokens = true) : ¬e.opcode.toNat < f.opcode.toNat := by
  intro hlt
  have clear : confusable (some e.operation) (some f.operation) = false := by
    obtain ⟨hi, hx⟩ := List.getElem?_eq_some_iff.1 (getElem?_places e)
    obtain ⟨hj, hy⟩ := List.getElem?_eq_some_iff.1 (getElem?_places f)
    have h := List.pairwise_iff_getElem.1 places_unambiguous _ _ hi hj hlt
    rwa [hx, hy] at h
  have clash : confusable (some e.operation) (some f.operation) = true := by
    rw [confusable, Bool.and_eq_true, beq_iff_eq]
    exact ⟨hname, overlap_of_fits he hf⟩
  rw [clear] at clash
  cases clash

/-- A mnemonic and operands fit at most one entry. -/
theorem eq_of_fits {e f : Entry} {tokens : List (List Char)}
    (hname : e.mnemonic = f.mnemonic) (he : fits e.slots tokens = true)
    (hf : fits f.slots tokens = true) : e = f := by
  have hle := not_lt_of_fits hname he hf
  have hge := not_lt_of_fits hname.symm hf he
  apply Entry.eq_of_opcode_eq
  apply BitVec.eq_of_toNat_eq
  omega

theorem mem_named {mnemonic : String} {e : Entry} :
    e ∈ named mnemonic ↔ e.mnemonic = mnemonic := by
  rw [named, List.mem_filter, beq_iff_eq]
  exact and_iff_right e.mem_all

/-- The lookup finds an entry exactly if it has the mnemonic and the operands fit
it. -/
theorem resolve_eq_ok_iff {mnemonic : String} {tokens : List (List Char)} {e : Entry} :
    resolve mnemonic tokens = .ok e ↔ e.mnemonic = mnemonic ∧ fits e.slots tokens = true := by
  unfold resolve
  constructor
  · intro h
    split at h
    · cases h
    · split at h
      · next found =>
        cases h
        have hfits := List.find?_some found
        exact ⟨mem_named.1 (List.mem_of_find?_eq_some found), hfits⟩
      · cases h
  · rintro ⟨hname, hfits⟩
    have hmem := mem_named.2 hname
    split
    · next none =>
      rw [none] at hmem
      exact absurd hmem List.not_mem_nil
    · split
      · next f found =>
        have hf := mem_named.1 (List.mem_of_find?_eq_some found)
        have hfitsf := List.find?_some found
        rw [eq_of_fits (hf.trans hname.symm) hfitsf hfits]
      · next missing =>
        exact absurd hfits (List.find?_eq_none.1 missing e hmem)

end Assembler
end I8085
