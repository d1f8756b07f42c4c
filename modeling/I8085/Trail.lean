import I8085.Word

/-!
# The trail of a run

The addresses of the latest instructions, kept so that a run that went wrong can
say where it came from.  They stand in a double-ended queue of bounded capacity,
and a full one gives up its oldest address before it takes the next.

The queue itself is left open.  `Deque` has the operations that are asked of one and
`LawfulDeque` what they promise; a machine works with any of them, and `Trail` is the
one it works with where nothing else is said.
-/

namespace I8085

/-- A double-ended queue of addresses. -/
class Deque (Q : Type) where
  empty : Q
  isFull : Q → Bool
  /-- Takes out the element in front, if there is one. -/
  popFront : Q → Option Word × Q
  /-- Adds an element behind the others, or gives it back. -/
  pushBack : Q → Word → Except Word Unit × Q
  /-- The elements from front to back. -/
  toList : Q → List Word

/-- What is promised of a queue with a fixed capacity: it begins empty, it is full
when it has as many elements as the capacity allows, and before that there is room
for another. -/
class LawfulDeque (Q : Type) [Deque Q] (capacity : Nat) : Prop where
  toList_empty : Deque.toList (Deque.empty : Q) = []
  isFull_iff (q : Q) : Deque.isFull q = true ↔ (Deque.toList q).length = capacity
  toList_popFront (q : Q) : Deque.toList (Deque.popFront q).2 = (Deque.toList q).tail
  toList_pushBack (q : Q) (address : Word) : (Deque.toList q).length < capacity →
    Deque.toList (Deque.pushBack q address).2 = Deque.toList q ++ [address]

/-- The queue with one more address.  Whether it was taken is not asked. -/
def Deque.record {Q : Type} [Deque Q] (q : Q) (address : Word) : Q :=
  let room := if isFull q then (popFront q).2 else q
  (pushBack room address).2

/-- How many addresses are kept. -/
def trailLength : Nat := 16

/-- At most sixteen addresses, the oldest first. -/
structure Trail where
  addresses : List Word := []
  length_le : addresses.length ≤ trailLength := by decide

namespace Trail

def isFull (t : Trail) : Bool := t.addresses.length == trailLength

def popFront (t : Trail) : Option Word × Trail where
  fst := t.addresses.head?
  snd.addresses := t.addresses.tail
  snd.length_le := by
    have := t.length_le
    rw [List.length_tail]
    omega

def pushBack (t : Trail) (address : Word) : Except Word Unit × Trail :=
  if room : t.addresses.length < trailLength then
    have length_le := by
      rw [List.length_append, List.length_singleton]
      exact room
    (.ok (), { addresses := t.addresses ++ [address], length_le })
  else (.error address, t)

theorem addresses_pushBack {t : Trail} (room : t.addresses.length < trailLength) (x : Word) :
    (t.pushBack x).2.addresses = t.addresses ++ [x] := by
  rw [pushBack, dif_pos room]

instance : Deque Trail where
  empty := {}
  isFull := isFull
  popFront := popFront
  pushBack := pushBack
  toList := addresses

instance : LawfulDeque Trail trailLength where
  toList_empty := rfl
  isFull_iff t := show (t.addresses.length == trailLength) = true ↔ _ from beq_iff_eq
  toList_popFront _ := rfl
  toList_pushBack _ address room := addresses_pushBack room address

end Trail
end I8085
