import I8085.Proofs.Machine.Footprint
import I8085.Proofs.Machine.StackMoves

/-!
# The stack of a run

A run that moves the stack pointer only by pushing and popping, and that stores
into no live cell by other means, keeps a list of words in memory.  The list is the
one that the moves of its instructions leave, and an instruction that takes a word
takes the first of the list.  The words lie below the address that the stack
pointer had at first, two cells each, and may run past `0000` down to `FFFF`.
-/

namespace I8085

/-- The operations that push or pop. -/
def Operation.isStack : Operation → Bool
  | push _ | pop _ | call | callIf _ | rst _ | ret | returnIf _ => true
  | _ => false

namespace Memory

theorem readWord_congr {m n : Memory} {x : Word} (low : m.read x = n.read x)
    (high : m.read (x + 1) = n.read (x + 1)) : m.readWord x = n.readWord x := by
  rw [readWord, readWord, low, high]

theorem readWord_writeWord_of_apart (m : Memory) (x w : Word) {k : Nat} (h : 2 ≤ k)
    (h' : k ≤ 65534) : (m.writeWord x w).readWord (cell x k) = m.readWord (cell x k) := by
  have low : x + 1 ≠ cell x k ∧ x ≠ cell x k := by
    unfold cell
    constructor <;> bv_omega
  have high : x + 1 ≠ cell x k + 1 ∧ x ≠ cell x k + 1 := by
    unfold cell
    constructor <;> bv_omega
  exact readWord_congr (read_writeWord_of_ne m w low.1 low.2)
    (read_writeWord_of_ne m w high.1 high.2)

end Memory

namespace Machine

open StackMove Memory

variable {m mid next last : Machine} {f : Fetched} {fs : List Fetched} {base w : Word}
  {ws : List Word}

/-! ## A list of words in memory -/

/-- The cells of so many words below an address. -/
def Live (base : Word) (depth : Int) (x : Word) : Prop :=
  ∃ j : Nat, (j : Int) < 2 * depth ∧ x = base - BitVec.ofNat 16 (j + 1)

/-- The words stand below `base`, the first of them where the stack pointer is. -/
structure HoldsStack (m : Machine) (base : Word) (words : List Word) : Prop where
  sp_eq : m.registers.sp = base - BitVec.ofNat 16 (2 * words.length)
  readWord_eq : ∀ i w, words[i]? = some w → m.memory.readWord (cell m.registers.sp (2 * i)) = w

namespace HoldsStack

theorem nil (m : Machine) : m.HoldsStack m.registers.sp [] where
  sp_eq := (BitVec.sub_zero m.registers.sp).symm
  readWord_eq i w h := by simp at h

theorem top_eq (h : m.HoldsStack base (w :: ws)) : m.top = w := by
  have hfirst := h.readWord_eq 0 w rfl
  rwa [Nat.mul_zero, cell_zero] at hfirst

theorem put (h : m.HoldsStack base ws) (hroom : ws.length < 32768)
    (hsp : next.registers.sp = m.registers.sp - 2)
    (hmem : next.memory = m.memory.writeWord (m.registers.sp - 2) w) :
    next.HoldsStack base (w :: ws) where
  sp_eq := by
    rw [hsp, h.sp_eq, List.length_cons]
    bv_omega
  readWord_eq i v hv := by
    rw [hsp, hmem]
    cases i with
    | zero =>
      cases hv
      rw [Nat.mul_zero, cell_zero, readWord_writeWord]
    | succ i =>
      rw [List.getElem?_cons_succ] at hv
      have hi : i < ws.length := (List.getElem?_eq_some_iff.1 hv).1
      have hcell : cell (m.registers.sp - 2) (2 * (i + 1)) = cell m.registers.sp (2 * i) := by
        unfold cell
        bv_omega
      rw [readWord_writeWord_of_apart _ _ _ (by omega) (by omega), hcell]
      exact h.readWord_eq i v hv

theorem take (h : m.HoldsStack base (w :: ws)) (hsp : next.registers.sp = m.registers.sp + 2)
    (hmem : next.memory = m.memory) : next.HoldsStack base ws where
  sp_eq := by
    rw [hsp, h.sp_eq, List.length_cons]
    bv_omega
  readWord_eq i v hv := by
    have hcell : cell (m.registers.sp + 2) (2 * i) = cell m.registers.sp (2 * (i + 1)) := by
      unfold cell
      bv_omega
    rw [hsp, hmem, hcell]
    exact h.readWord_eq (i + 1) v hv

theorem replace {v : Word} (h : m.HoldsStack base (v :: ws)) (hroom : ws.length < 32768)
    (hsp : next.registers.sp = m.registers.sp)
    (hmem : next.memory = m.memory.writeWord m.registers.sp w) :
    next.HoldsStack base (w :: ws) where
  sp_eq := by
    rw [hsp, h.sp_eq, List.length_cons, List.length_cons]
  readWord_eq i u hu := by
    rw [hsp, hmem]
    cases i with
    | zero =>
      cases hu
      rw [Nat.mul_zero, cell_zero, readWord_writeWord]
    | succ i =>
      rw [List.getElem?_cons_succ] at hu
      have hi : i < ws.length := (List.getElem?_eq_some_iff.1 hu).1
      rw [readWord_writeWord_of_apart _ _ _ (by omega) (by omega)]
      exact h.readWord_eq (i + 1) u hu

theorem keep (h : m.HoldsStack base ws) (hroom : ws.length ≤ 32768)
    (hsp : next.registers.sp = m.registers.sp)
    (hlive : ∀ x, Live base ws.length x → next.memory.read x = m.memory.read x) :
    next.HoldsStack base ws where
  sp_eq := by
    rw [hsp, h.sp_eq]
  readWord_eq i v hv := by
    have hi : i < ws.length := (List.getElem?_eq_some_iff.1 hv).1
    have low : Live base ws.length (cell m.registers.sp (2 * i)) := by
      refine ⟨2 * ws.length - 2 * i - 1, by omega, ?_⟩
      rw [h.sp_eq, cell]
      bv_omega
    have high : Live base ws.length (cell m.registers.sp (2 * i) + 1) := by
      refine ⟨2 * ws.length - 2 * i - 2, by omega, ?_⟩
      rw [h.sp_eq, cell]
      bv_omega
    rw [hsp, readWord_congr (hlive _ low) (hlive _ high)]
    exact h.readWord_eq i v hv

end HoldsStack

/-! ## The moves of instructions -/

/-- What an instruction does to the stack.  A call puts the address behind itself. -/
def stackMove (m : Machine) (f : Fetched) : StackMove :=
  match f.operation with
  | .push pair => .put (m.registers.pair pair)
  | .call | .rst _ => .put f.next
  | .callIf condition => if m.registers.holds condition then .put f.next else .keep
  | .pop _ | .ret => .take
  | .returnIf condition => if m.registers.holds condition then .take else .keep
  | .xthl => .replace m.registers.hl
  | _ => .keep

/-- The moves of instructions that are carried out one after another. -/
def stackMoves (m : Machine) : List Fetched → List StackMove
  | [] => []
  | f :: fs => m.stackMove f :: (m.execute f).stackMoves fs

/-- The registers after a word was taken from the stack: a pop loads its pair, a
return continues there. -/
def taking (m : Machine) (f : Fetched) (w : Word) : Registers :=
  match f.operation with
  | .pop pair => { m.registers with pc := f.next, sp := m.registers.sp + 2 }.setPair pair w
  | _ => { m.registers with pc := w, sp := m.registers.sp + 2 }

theorem taking_sp (m : Machine) (f : Fetched) (w : Word) :
    (m.taking f w).sp = m.registers.sp + 2 := by
  unfold taking
  cases ho : f.operation with
  | pop pair =>
    cases pair with
    | sp => exact absurd ho f.entry.pop_ne_sp
    | _ => rfl
  | _ => rfl

theorem stackMoves_concat (he : m.Executes fs mid) (f : Fetched) :
    m.stackMoves (fs ++ [f]) = m.stackMoves fs ++ [mid.stackMove f] := by
  induction he with
  | refl m => rfl
  | cons hs _ ih =>
    obtain ⟨-, rfl⟩ := step_eq_ok_iff.1 hs
    rw [List.cons_append, stackMoves, ih, stackMoves, List.cons_append]

/-- How a move shows in the machine that the instruction leaves.  An instruction of
the stack that moves nothing is a conditional one that is not taken. -/
def Shows (m : Machine) (f : Fetched) (next : Machine) : StackMove → Prop
  | .put w =>
    next.registers.sp = m.registers.sp - 2 ∧
      next.memory = m.memory.writeWord (m.registers.sp - 2) w
  | .take => next.registers = m.taking f m.top ∧ next.memory = m.memory
  | .replace w =>
    f.operation = .xthl ∧ next.registers.sp = m.registers.sp ∧
      next.memory = m.memory.writeWord m.registers.sp w
  | .keep =>
    f.operation.isStack = true → next.registers.sp = m.registers.sp ∧ next.memory = m.memory

theorem shows_of_actionIf {condition : Condition} {action : Action} {move : StackMove}
    (htaken : m.Shows f ((action.apply (m.advance f)).counted) move) :
    m.Shows f ((((m.advance f).actionIf condition action).apply (m.advance f)).counted)
      (if m.registers.holds condition then move else .keep) := by
  by_cases hc : m.registers.holds condition = true
  · rw [if_pos hc, show (m.advance f).actionIf condition action = action from if_pos hc]
    exact htaken
  · rw [if_neg hc, show (m.advance f).actionIf condition action = .nop from if_neg hc]
    exact fun _ => ⟨rfl, rfl⟩

theorem shows_execute (m : Machine) (f : Fetched) : m.Shows f (m.execute f) (m.stackMove f) := by
  show m.Shows f ((((m.advance f).action f.toInstruction).apply (m.advance f)).counted) _
  unfold stackMove action
  cases ho : f.operation with
  | push pair => cases pair <;> exact ⟨rfl, rfl⟩
  | call | rst vector => exact ⟨rfl, rfl⟩
  | callIf condition => exact shows_of_actionIf ⟨rfl, rfl⟩
  | pop pair | ret =>
    refine ⟨?_, rfl⟩
    rw [taking, ho]
    rfl
  | returnIf condition =>
    refine shows_of_actionIf ⟨?_, rfl⟩
    rw [taking, ho]
    rfl
  | xthl => exact ⟨ho, rfl, rfl⟩
  | _ =>
    intro hstack
    rw [ho] at hstack
    exact absurd hstack Bool.false_ne_true

/-! ## The run -/

/-- The instructions keep to a stack below the first stack pointer.  The depth stays
between none and all of the address space, the top is exchanged only where there is
one, and no instruction but those of the stack moves the stack pointer or stores into
a live cell. -/
structure KeepsStack (m : Machine) (fs : List Fetched) : Prop where
  depth_nonneg : ∀ p, p <+: fs → 0 ≤ depth (m.stackMoves p)
  depth_le : ∀ p, p <+: fs → depth (m.stackMoves p) ≤ 32768
  depth_pos : ∀ p f, p ++ [f] <+: fs → f.operation = .xthl → 1 ≤ depth (m.stackMoves p)
  sp_kept : ∀ p f mid, p ++ [f] <+: fs → m.Executes p mid → f.operation.isStack = false →
    (mid.execute f).registers.sp = mid.registers.sp
  spares : ∀ p f mid, p ++ [f] <+: fs → m.Executes p mid → f.operation.isStack = false →
    f.operation ≠ .xthl →
    ∀ x ∈ mid.footprint f, ¬Live m.registers.sp (depth (m.stackMoves p)) x

theorem KeepsStack.of_prefix {p : List Fetched} (h : m.KeepsStack fs) (hp : p <+: fs) :
    m.KeepsStack p where
  depth_nonneg q hq := h.depth_nonneg q (hq.trans hp)
  depth_le q hq := h.depth_le q (hq.trans hp)
  depth_pos q f hq := h.depth_pos q f (hq.trans hp)
  sp_kept q f mid hq := h.sp_kept q f mid (hq.trans hp)
  spares q f mid hq := h.spares q f mid (hq.trans hp)

/-- What one instruction makes of the list: its move. -/
theorem HoldsStack.execute (h : mid.HoldsStack base ws) (hf : mid.fetch = .ok f)
    (hfilled : 0 ≤ (ws.length : Int) + (mid.stackMove f).change)
    (hroom : (ws.length : Int) + (mid.stackMove f).change ≤ 32768)
    (htop : f.operation = .xthl → 1 ≤ (ws.length : Int))
    (hsp : f.operation.isStack = false → (mid.execute f).registers.sp = mid.registers.sp)
    (hspares : f.operation.isStack = false → f.operation ≠ .xthl →
      ∀ x ∈ mid.footprint f, ¬Live base ws.length x) :
    (mid.execute f).HoldsStack base ((mid.stackMove f).apply ws) := by
  have hshows := mid.shows_execute f
  cases hmove : mid.stackMove f with
  | keep =>
    rw [hmove] at hshows
    rw [hmove, change, Int.add_zero] at hroom
    cases hstack : f.operation.isStack with
    | true =>
      obtain ⟨hpointer, hmem⟩ := hshows hstack
      exact h.keep (by omega) hpointer fun x _ => by rw [hmem]
    | false =>
      have hexchange : f.operation ≠ .xthl := by
        intro ho
        rw [stackMove, ho] at hmove
        cases hmove
      refine h.keep (by omega) (hsp hstack) fun x hx => ?_
      exact read_execute_of_not_mem_footprint hf fun hmem => hspares hstack hexchange x hmem hx
  | put w =>
    rw [hmove] at hshows
    rw [hmove, change] at hroom
    obtain ⟨hpointer, hmem⟩ := hshows
    exact h.put (by omega) hpointer hmem
  | take =>
    rw [hmove] at hshows
    rw [hmove, change] at hfilled
    obtain ⟨hregisters, hmem⟩ := hshows
    cases ws with
    | nil => simp at hfilled
    | cons v ws =>
      refine h.take ?_ hmem
      rw [hregisters, taking_sp]
  | replace w =>
    rw [hmove] at hshows
    rw [hmove, change, Int.add_zero] at hroom
    obtain ⟨hexchange, hpointer, hmem⟩ := hshows
    cases ws with
    | nil => simpa using htop hexchange
    | cons v ws =>
      rw [List.length_cons] at hroom
      exact h.replace (by omega) hpointer hmem

/-- A run that keeps to its stack leaves there the words of its moves. -/
theorem KeepsStack.holdsStack (hd : m.KeepsStack fs) (he : m.Executes fs mid) :
    Grounded (m.stackMoves fs) ∧ mid.HoldsStack m.registers.sp (words (m.stackMoves fs)) := by
  induction fs using List.reverseRecOn generalizing mid with
  | nil =>
    cases he
    exact ⟨.nil, .nil m⟩
  | append_singleton fs f ih =>
    obtain ⟨before, hfs, hlast⟩ := he.exists_of_append
    cases hlast with
    | cons hs hr =>
      cases hr
      obtain ⟨hf, rfl⟩ := step_eq_ok_iff.1 hs
      have hend := List.prefix_refl (fs ++ [f])
      obtain ⟨hground, hholds⟩ := ih (hd.of_prefix (List.prefix_append fs [f])) hfs
      have hlength := length_words hground
      have hnonneg := hd.depth_nonneg _ hend
      have hle := hd.depth_le _ hend
      have hpos := hd.depth_pos fs f hend
      have hspares := hd.spares fs f before hend hfs
      rw [stackMoves_concat hfs, depth_concat] at hnonneg hle
      rw [stackMoves_concat hfs, words_concat]
      have hexchange : ∀ w, before.stackMove f = .replace w → f.operation = .xthl := by
        intro w hw
        have hshows := before.shows_execute f
        rw [hw] at hshows
        exact hshows.1
      refine ⟨hground.concat hnonneg fun w hw => hpos (hexchange w hw), ?_⟩
      rw [← hlength] at hnonneg hle hpos hspares
      exact hholds.execute hf hnonneg hle hpos (hd.sp_kept fs f before hend hfs) hspares

/-- The stack of a run is a list of words.  After every part of the run it is as high
as the depth says, the stack pointer is two cells a word below where it began, and
each word stands in memory as the latest put or exchange at its level left it.  What
takes a word takes the first of the list. -/
theorem stack_refines_words (he : m.Executes fs last) (hd : m.KeepsStack fs) :
    ∀ p q, fs = p ++ q → ∃ mid, m.Executes p mid ∧ mid.Executes q last ∧
      ((words (m.stackMoves p)).length : Int) = depth (m.stackMoves p) ∧
      mid.registers.sp = m.registers.sp - BitVec.ofInt 16 (2 * depth (m.stackMoves p)) ∧
      (∀ i w, (words (m.stackMoves p))[i]? = some w →
        mid.memory.readWord (cell mid.registers.sp (2 * i)) = w ∧
        LastPut (m.stackMoves p) i w) ∧
      ∀ f rest, q = f :: rest → mid.stackMove f = .take →
        ∃ w, (words (m.stackMoves p)).head? = some w ∧ LastPut (m.stackMoves p) 0 w ∧
          (mid.execute f).registers = mid.taking f w := by
  intro p q hsplit
  subst hsplit
  obtain ⟨mid, hp, hq⟩ := he.exists_of_append
  obtain ⟨hground, hholds⟩ := (hd.of_prefix (List.prefix_append p q)).holdsStack hp
  have hlength := length_words hground
  refine ⟨mid, hp, hq, hlength, ?_, fun i w hw => ?_, ?_⟩
  · rw [hholds.sp_eq, ← hlength]
    exact congrArg (m.registers.sp - ·) (BitVec.ofInt_natCast 16 _).symm
  · exact ⟨hholds.readWord_eq i w hw, lastPut_of_words hw⟩
  · rintro f rest rfl htake
    have hnonneg := hd.depth_nonneg (p ++ [f]) ⟨rest, by simp⟩
    rw [stackMoves_concat hp, depth_concat, htake, change, ← hlength] at hnonneg
    cases hwords : words (m.stackMoves p) with
    | nil => simp [hwords] at hnonneg
    | cons w ws =>
      rw [hwords] at hholds
      have hfirst : (words (m.stackMoves p))[0]? = some w := by rw [hwords]; rfl
      refine ⟨w, rfl, lastPut_of_words hfirst, ?_⟩
      have hshows := mid.shows_execute f
      rw [htake] at hshows
      rw [hshows.1, hholds.top_eq]

/-- A call whose return address stands at `FFFF` and `0000`, and the return. -/
theorem stack_refines_words_wrapped :
    ∃ (m last : Machine) (call ret : Fetched), m.Executes [call, ret] last ∧
      m.KeepsStack [call, ret] ∧ m.registers.sp = 1 ∧ call.operation = .call ∧
      ret.operation = .ret ∧ last.registers.pc = call.next ∧ last.registers.sp = 1 := by
  let call : Fetched :=
    { entry := ⟨0xCD, .call, rfl⟩, data := 0x10, address := 0x20 }
  let ret : Fetched := { entry := ⟨0xC9, .ret, rfl⟩, data := 0, address := 0x10 }
  let m : Machine :=
    { memory := (Memory.zero.load 0x10 ret.bytes).load 0x20 call.bytes
      registers := { pc := 0x20, sp := 1 } }
  have call_fits : call.Fits := show (0x10#16).toNat < 256 ^ 2 by decide
  have ret_fits : ret.Fits := show (0#16).toNat < 256 ^ 0 by decide
  have called : m.fetch = .ok call := fetch_load call_fits _ 0x20
  have returned : (m.execute call).fetch = .ok ret := by
    refine fetch_congr (fetch_load ret_fits Memory.zero 0x10) fun i hi => ?_
    obtain rfl : i = 0 := Nat.lt_one_iff.1 hi
    rw [read_execute_of_not_mem_footprint called (by decide)]
    exact read_load_of_ne (by decide)
  have first : m.step = .ok (call, m.execute call) := step_eq_ok_iff.2 ⟨called, rfl⟩
  have run : m.Executes [call, ret] ((m.execute call).execute ret) :=
    .cons first (.single (step_eq_ok_iff.2 ⟨returned, rfl⟩))
  have of_stack : ∀ p f, p ++ [f] <+: [call, ret] →
      f.operation.isStack = true ∧ f.operation ≠ .xthl := by
    intro p f hp
    have hf : f ∈ [call, ret] := hp.subset (List.mem_append_right p (List.mem_singleton_self f))
    rcases List.mem_cons.1 hf with rfl | hf
    · decide
    · rw [List.mem_singleton.1 hf]
      decide
  have depths : ∀ p, p <+: [call, ret] → depth (m.stackMoves p) = 0 ∨
      depth (m.stackMoves p) = 1 := by
    intro p hp
    have both : p <+: [call] ++ [ret] := hp
    rcases List.prefix_concat_iff.1 both with rfl | one
    · exact .inl rfl
    · have one : p <+: [] ++ [call] := one
      rcases List.prefix_concat_iff.1 one with rfl | none
      · exact .inr rfl
      · rw [List.prefix_nil.1 none]
        exact .inl rfl
  have keeps : m.KeepsStack [call, ret] := by
    constructor
    · intro p hp
      rcases depths p hp with h | h <;> omega
    · intro p hp
      rcases depths p hp with h | h <;> omega
    · exact fun p f hp h => absurd h (of_stack p f hp).2
    · exact fun p f mid hp _ h => absurd ((of_stack p f hp).1.symm.trans h) (by decide)
    · exact fun p f mid hp _ h => absurd ((of_stack p f hp).1.symm.trans h) (by decide)
  obtain ⟨mid, hcall, -, -, -, -, takes⟩ := stack_refines_words run keeps [call] [ret] rfl
  obtain ⟨-, rfl⟩ := hcall.eq_of_length_eq (.single first) rfl
  obtain ⟨w, hw, -, hregisters⟩ := takes ret [] rfl rfl
  cases hw
  exact ⟨m, _, call, ret, run, keeps, rfl, rfl, rfl, congrArg Registers.pc hregisters,
    (congrArg Registers.sp hregisters).trans (by decide)⟩

end Machine
end I8085
