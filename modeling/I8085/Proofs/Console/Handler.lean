import I8085.Console.Interrupt
import Mathlib.Data.List.Induction

/-!
# What becomes of interrupts

The handler runs beside the program.  It looks whether the channel is full, and only then sends;
while it is between the two, interrupts can come and the program can look.  `Moment` has all of
this apart, in any order, and what is proved here is proved of every order.

Nobody but the handler sends, and nobody takes anything out.  So the messages, the handler and the
calls are tied to each other: `Accounts` says how, and every moment keeps it.  A handler that has
decided to send finds the channel as empty as it was when it looked.  Where the handler is called
once for every interrupt, the channel shows how many of them there were.
-/

namespace I8085
namespace Console
namespace Keyboard

variable {C : Type} [Channel C]

/-- What a session finds each time it looks. -/
def found (k : Keyboard C) : List Moment → List Bool
  | [] => []
  | .look :: moments => k.isPending :: found k moments
  | moment :: moments => found (k.next moment) moments

/-- The handler waits for room. -/
def Blocked (k : Keyboard C) : Prop :=
  k.handler = .sending ∧ Channel.send k.channel = none

/-- Each of so many calls has left its message, is under way or has ended the program.  A handler
that sends has found the channel empty. -/
def Accounts (k : Keyboard C) (calls : Nat) : Prop :=
  Channel.capacity k.channel = 1 ∧
  match k.handler with
  | .idle => Channel.len k.channel ≤ 1 ∧ calls = Channel.len k.channel
  | .looking => Channel.len k.channel ≤ 1 ∧ calls = Channel.len k.channel + 1
  | .sending => Channel.len k.channel = 0 ∧ calls = 1
  | .exited code => Channel.len k.channel = 1 ∧ calls = 2 ∧ code = -1

/-- The calls that a moment begins.  A handler that is not back from a call takes no other. -/
def begun (k : Keyboard C) (moment : Moment) : Nat :=
  if moment = .call ∧ k.handler = .idle then 1 else 0

variable {k : Keyboard C} {calls : Nat} {code : Int}

theorem after_concat (k : Keyboard C) (moments : List Moment) (moment : Moment) :
    k.after (moments ++ [moment]) = (k.after moments).next moment := by
  rw [after, List.foldl_append]
  rfl

theorem after_append (k : Keyboard C) (moments later : List Moment) :
    k.after (moments ++ later) = (k.after moments).after later := List.foldl_append

/-- Nothing happens any more when the program has ended. -/
theorem after_of_exited (h : k.handler = .exited code) (moments : List Moment) :
    k.after moments = k := by
  induction moments with
  | nil => rfl
  | cons moment moments ih =>
    have still : k.next moment = k := by
      cases moment with
      | interrupt | look => rfl
      | call => rw [next, called, h]
      | handler => rw [next, handle, h]
    rw [after, List.foldl_cons, still]
    exact ih

/-! ## One moment -/

theorem Accounts.called (h : k.Accounts calls) :
    k.called.Accounts (calls + k.begun .call) := by
  obtain ⟨channel, handler⟩ := k
  cases handler with
  | idle =>
    obtain ⟨hcapacity, hlen, hcalls⟩ := h
    exact ⟨hcapacity, hlen, congrArg (· + 1) hcalls⟩
  | looking | sending | exited code => exact h

theorem Accounts.len_le (h : k.Accounts calls) : Channel.len k.channel ≤ 1 := by
  obtain ⟨channel, handler⟩ := k
  cases handler with
  | idle | looking => exact h.2.1
  | sending => exact Nat.le_trans (Nat.le_of_eq h.2.1) (Nat.zero_le 1)
  | exited code => exact Nat.le_of_eq h.2.1

/-- Nothing is taken out of the channel. -/
theorem Accounts.len_le_next (h : k.Accounts calls) (moment : Moment) :
    Channel.len k.channel ≤ Channel.len (k.next moment).channel := by
  obtain ⟨channel, handler⟩ := k
  cases moment with
  | interrupt | look => exact Nat.le_refl _
  | call => cases handler <;> exact Nat.le_refl _
  | handler =>
    cases handler with
    | idle | looking | exited code => exact Nat.le_refl _
    | sending => exact Nat.le_trans (Nat.le_of_eq h.2.1) (Nat.zero_le _)

section

variable [LawfulChannel C]

theorem accounts_start : (start : Keyboard C).Accounts 0 := by
  have hlen := LawfulChannel.len_bounded (C := C) 1
  refine ⟨LawfulChannel.capacity_bounded 1, ?_, hlen.symm⟩
  exact Nat.le_trans (Nat.le_of_eq hlen) (Nat.zero_le 1)

theorem Accounts.handle (h : k.Accounts calls) : k.handle.Accounts calls := by
  obtain ⟨channel, handler⟩ := k
  have hfull := LawfulChannel.isFull_iff channel
  cases handler with
  | idle | exited code => exact h
  | looking =>
    obtain ⟨hcapacity, hlen, hcalls⟩ := h
    replace hcapacity : Channel.capacity channel = 1 := hcapacity
    replace hlen : Channel.len channel ≤ 1 := hlen
    replace hcalls : calls = Channel.len channel + 1 := hcalls
    rw [hcapacity] at hfull
    rw [Keyboard.handle]
    by_cases full : Channel.len channel = 1
    · rw [if_pos (hfull.2 full)]
      exact ⟨hcapacity, full, hcalls.trans (congrArg (· + 1) full), rfl⟩
    · have empty : Channel.len channel = 0 := by omega
      rw [if_neg (fun isFull => full (hfull.1 isFull))]
      exact ⟨hcapacity, empty, hcalls.trans (congrArg (· + 1) empty)⟩
  | sending =>
    obtain ⟨hcapacity, hlen, hcalls⟩ := h
    replace hcapacity : Channel.capacity channel = 1 := hcapacity
    replace hlen : Channel.len channel = 0 := hlen
    have room : Channel.len channel < Channel.capacity channel := by
      rw [hcapacity, hlen]
      exact Nat.one_pos
    obtain ⟨sent, hsent, hlength, hkept⟩ := LawfulChannel.send_of_room channel room
    rw [hlen] at hlength
    simp only [Keyboard.handle, hsent]
    exact ⟨hkept.trans hcapacity, Nat.le_of_eq hlength, hcalls.trans hlength.symm⟩

theorem Accounts.next (h : k.Accounts calls) (moment : Moment) :
    (k.next moment).Accounts (calls + k.begun moment) := by
  cases moment with
  | interrupt | look => exact h
  | call => exact h.called
  | handler => exact h.handle

theorem Accounts.not_blocked (h : k.Accounts calls) : ¬k.Blocked := by
  rintro ⟨hsending, hnone⟩
  obtain ⟨hcapacity, hrest⟩ := h
  rw [hsending] at hrest
  have room : Channel.len k.channel < Channel.capacity k.channel := by
    rw [hcapacity, hrest.1]
    exact Nat.one_pos
  obtain ⟨sent, hsent, -⟩ := LawfulChannel.send_of_room k.channel room
  rw [hsent] at hnone
  cases hnone

/-! ## Any moments -/

/-- In any order of moments, the calls that begin are accounted for. -/
theorem exists_accounts_after (moments : List Moment) :
    ∃ calls ≤ moments.count .call, (start.after moments : Keyboard C).Accounts calls := by
  induction moments using List.reverseRecOn with
  | nil => exact ⟨0, Nat.le_refl 0, accounts_start⟩
  | append_singleton moments moment ih =>
    obtain ⟨calls, hle, h⟩ := ih
    refine ⟨_, ?_, after_concat (start : Keyboard C) moments moment ▸ h.next moment⟩
    rw [List.count_append, List.count_singleton, begun]
    split
    · next begins =>
      rw [begins.1]
      exact Nat.add_le_add_right hle 1
    · exact Nat.le_trans hle (Nat.le_add_right _ _)

theorem len_after_le (moments : List Moment) :
    Channel.len (start.after moments : Keyboard C).channel ≤ 1 := by
  obtain ⟨calls, -, h⟩ := exists_accounts_after (C := C) moments
  exact h.len_le

theorem not_blocked_after (moments : List Moment) :
    ¬(start.after moments : Keyboard C).Blocked := by
  obtain ⟨calls, -, h⟩ := exists_accounts_after (C := C) moments
  exact h.not_blocked

/-- One call does not end the program. -/
theorem not_exited_after {moments : List Moment} (h : moments.count .call ≤ 1) (code : Int) :
    (start.after moments : Keyboard C).handler ≠ .exited code := by
  intro hexited
  obtain ⟨calls, hle, -, hrest⟩ := exists_accounts_after (C := C) moments
  rw [hexited] at hrest
  obtain ⟨-, htwo, -⟩ := hrest
  omega

theorem isPending_iff (k : Keyboard C) : k.isPending = true ↔ Channel.len k.channel ≠ 0 := by
  rw [isPending, Bool.not_eq_true', ← Bool.not_eq_true, LawfulChannel.isEmpty_iff]

/-- A message that waits is found by every look from then on. -/
theorem found_of_waiting (h : k.Accounts calls) (hwaiting : Channel.len k.channel ≠ 0)
    (moments : List Moment) : ∀ seen ∈ k.found moments, seen = true := by
  induction moments generalizing k calls with
  | nil => exact fun seen hseen => absurd hseen List.not_mem_nil
  | cons moment moments ih =>
    have later : Channel.len (k.next moment).channel ≠ 0 := by
      have := h.len_le_next moment
      omega
    have rest := ih (h.next moment) later
    cases moment with
    | look =>
      intro seen hseen
      rcases List.mem_cons.1 hseen with rfl | hseen
      · exact k.isPending_iff.2 hwaiting
      · exact rest seen hseen
    | interrupt | call | handler => exact rest

end

/-! ## A call for every interrupt -/

/-- Interrupts call the handler, each of them once and one at a time: no call comes before its
interrupt, and none while the handler is at another or after it has ended the program. -/
structure Dispatched (C : Type) [Channel C] (moments : List Moment) : Prop where
  answering : ∀ past, past <+: moments → past.count .call ≤ past.count .interrupt
  apart : ∀ past, past ++ [.call] <+: moments → (start.after past : Keyboard C).handler = .idle

/-- The handler was called for every interrupt and is back, or it has ended the program. -/
def Settled (C : Type) [Channel C] (moments : List Moment) : Prop :=
  let k : Keyboard C := start.after moments
  (∃ code, k.handler = .exited code) ∨
    k.handler = .idle ∧ moments.count .call = moments.count .interrupt

variable [LawfulChannel C] {moments : List Moment}

/-- Where no call comes while the handler is at another, all of them begin. -/
theorem accounts_after
    (apart : ∀ past, past ++ [.call] <+: moments → (start.after past : Keyboard C).handler = .idle) :
    (start.after moments : Keyboard C).Accounts (moments.count .call) := by
  induction moments using List.reverseRecOn with
  | nil => exact accounts_start
  | append_singleton moments moment ih =>
    have before := ih fun past hpast =>
      apart past (hpast.trans (List.prefix_append moments [moment]))
    have count : (moments ++ [moment]).count .call =
        moments.count .call + (start.after moments : Keyboard C).begun moment := by
      rw [List.count_append, List.count_singleton, begun]
      by_cases hcall : moment = .call
      · subst hcall
        rw [if_pos (beq_self_eq_true _), if_pos ⟨rfl, apart moments (List.prefix_refl _)⟩]
      · rw [if_neg (fun h => hcall (beq_iff_eq.1 h)), if_neg (fun h => hcall h.1)]
    rw [count, after_concat]
    exact before.next moment

/-- One interrupt leaves its message. -/
theorem len_of_one_interrupt (h : Dispatched C moments) (hsettled : Settled C moments)
    (hone : moments.count .interrupt = 1) :
    (start.after moments : Keyboard C).handler = .idle ∧
      Channel.len (start.after moments : Keyboard C).channel = 1 := by
  obtain ⟨-, hrest⟩ := accounts_after h.apart
  have answered := h.answering moments (List.prefix_refl _)
  rcases hsettled with ⟨code, hexited⟩ | ⟨hidle, hall⟩
  · rw [hexited] at hrest
    obtain ⟨-, htwo, -⟩ := hrest
    omega
  · rw [hidle] at hrest
    exact ⟨hidle, by omega⟩

/-- Two interrupts or more end the program. -/
theorem exited_of_two_interrupts (h : Dispatched C moments) (hsettled : Settled C moments)
    (htwo : 2 ≤ moments.count .interrupt) :
    (start.after moments : Keyboard C).handler = .exited (-1) := by
  obtain ⟨-, hrest⟩ := accounts_after h.apart
  rcases hsettled with ⟨code, hexited⟩ | ⟨hidle, hall⟩
  · rw [hexited] at hrest
    rw [hexited, hrest.2.2]
  · rw [hidle] at hrest
    obtain ⟨hlen, hcalls⟩ := hrest
    omega

end Keyboard
end Console
end I8085
