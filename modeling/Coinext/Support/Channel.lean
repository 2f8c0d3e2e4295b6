import Mathlib.Data.List.Basic
import Mathlib.Data.List.Infix

/-!
# A bounded channel and a producer that gives up

The producer offers its items in turn with `trySend`, which refuses an item when the channel is
full, and it stops at the first refusal. Meanwhile the consumer takes items as it pleases: before
the `i`-th offer it takes up to `reads i` of them.

What has been delivered, that is received or waiting, is after a `forward` what it was before and an
initial segment of what was offered (`delivered_forward`). It is all of it exactly when every offer
finds room (`delivered_forward_eq_iff`), a matter of numbers only.
-/

namespace Coinext

/-- What the consumer has received, and what waits for it. -/
structure Channel (α : Type) where
  buffer : List α
  received : List α
deriving DecidableEq

namespace Channel

variable {α : Type}

def empty : Channel α := ⟨[], []⟩

/-- Everything that has entered the channel. -/
def delivered (c : Channel α) : List α := c.received ++ c.buffer

/-- The consumer takes up to `n` items. -/
def receive (n : ℕ) (c : Channel α) : Channel α :=
  ⟨c.buffer.drop n, c.received ++ c.buffer.take n⟩

/-- The consumer takes whatever waits. -/
def receiveAll (c : Channel α) : Channel α := c.receive c.buffer.length

/-- Offer an item without waiting for room. -/
def trySend (capacity : ℕ) (x : α) (c : Channel α) : Option (Channel α) :=
  if c.buffer.length < capacity then some { c with buffer := c.buffer ++ [x] } else none

/-- Offer items in turn, up to the first that is refused. -/
def forward (capacity : ℕ) : List α → List ℕ → Channel α → Channel α
  | [], _, c => c
  | x :: xs, reads, c =>
    match (c.receive (reads.headD 0)).trySend capacity x with
    | some c' => forward capacity xs reads.tail c'
    | none => c.receive (reads.headD 0)

/-- With `waiting` items in the channel, each of `offers` items finds room. -/
def HasRoom (capacity : ℕ) : (offers waiting : ℕ) → List ℕ → Prop
  | 0, _, _ => True
  | offers + 1, waiting, reads => waiting - reads.headD 0 < capacity
      ∧ HasRoom capacity offers (waiting - reads.headD 0 + 1) reads.tail

instance (capacity : ℕ) : ∀ offers waiting reads, Decidable (HasRoom capacity offers waiting reads)
  | 0, _, _ => isTrue trivial
  | offers + 1, waiting, reads =>
    have := instDecidableHasRoom capacity offers (waiting - reads.headD 0 + 1) reads.tail
    inferInstanceAs (Decidable (_ ∧ _))

@[simp] theorem delivered_receive (n : ℕ) (c : Channel α) :
    (c.receive n).delivered = c.delivered := by
  simp only [delivered, receive, List.append_assoc, List.take_append_drop]

@[simp] theorem received_receiveAll (c : Channel α) : c.receiveAll.received = c.delivered := by
  simp only [receiveAll, receive, delivered, List.take_length]

theorem length_buffer_receive (n : ℕ) (c : Channel α) :
    (c.receive n).buffer.length = c.buffer.length - n := List.length_drop

/-- An item that is sent is delivered last. -/
theorem delivered_of_trySend {capacity : ℕ} {x : α} {c c' : Channel α}
    (h : c.trySend capacity x = some c') :
    c.buffer.length < capacity ∧ c'.buffer.length = c.buffer.length + 1
      ∧ c'.delivered = c.delivered ++ [x] := by
  unfold trySend at h
  split_ifs at h with hroom
  cases h
  refine ⟨hroom, ?_, ?_⟩
  · rw [List.length_append, List.length_singleton]
  · simp only [delivered, List.append_assoc]

theorem trySend_eq_none_iff {capacity : ℕ} {x : α} {c : Channel α} :
    c.trySend capacity x = none ↔ capacity ≤ c.buffer.length := by
  rw [trySend, ite_eq_right_iff, ← not_lt]
  exact ⟨fun h hroom ↦ Option.some_ne_none _ (h hroom), fun h hroom ↦ absurd hroom h⟩

theorem delivered_forward (capacity : ℕ) (xs : List α) (reads : List ℕ) (c : Channel α) :
    ∃ front, front <+: xs ∧ (c.forward capacity xs reads).delivered = c.delivered ++ front := by
  induction xs generalizing reads c with
  | nil => exact ⟨[], List.prefix_rfl, (List.append_nil _).symm⟩
  | cons x xs ih =>
    rw [forward]
    cases hsend : (c.receive (reads.headD 0)).trySend capacity x with
    | none => exact ⟨[], List.nil_prefix, by rw [delivered_receive, List.append_nil]⟩
    | some c' =>
      obtain ⟨-, -, hdelivered⟩ := delivered_of_trySend hsend
      obtain ⟨front, hfront, heq⟩ := ih reads.tail c'
      refine ⟨x :: front, List.cons_prefix_cons.mpr ⟨rfl, hfront⟩, ?_⟩
      rw [heq, hdelivered, delivered_receive, List.append_assoc, List.singleton_append]

/-- **Nothing is lost exactly when every offer finds room.** -/
theorem delivered_forward_eq_iff (capacity : ℕ) (xs : List α) (reads : List ℕ)
    (c : Channel α) :
    (c.forward capacity xs reads).delivered = c.delivered ++ xs
      ↔ HasRoom capacity xs.length c.buffer.length reads := by
  induction xs generalizing reads c with
  | nil => exact iff_of_true (List.append_nil _).symm trivial
  | cons x xs ih =>
    rw [forward, List.length_cons, HasRoom, ← length_buffer_receive]
    cases hsend : (c.receive (reads.headD 0)).trySend capacity x with
    | none =>
      refine iff_of_false (fun h ↦ ?_) fun h ↦ ?_
      · rw [delivered_receive] at h
        exact List.cons_ne_nil _ _ (List.self_eq_append_right.mp h)
      · exact absurd h.1 (not_lt.mpr (trySend_eq_none_iff.mp hsend))
    | some c' =>
      obtain ⟨hroom, hlength, hdelivered⟩ := delivered_of_trySend hsend
      have hsplit : c.delivered ++ x :: xs = c'.delivered ++ xs := by
        rw [hdelivered, delivered_receive, List.append_assoc, List.singleton_append]
      rw [hsplit, ih, hlength]
      exact (and_iff_right hroom).symm

theorem length_buffer_forward_le {capacity : ℕ} (xs : List α) (reads : List ℕ) {c : Channel α}
    (hc : c.buffer.length ≤ capacity) : (c.forward capacity xs reads).buffer.length ≤ capacity := by
  induction xs generalizing reads c with
  | nil => exact hc
  | cons x xs ih =>
    rw [forward]
    cases hsend : (c.receive (reads.headD 0)).trySend capacity x with
    | none => exact (length_buffer_receive _ c).le.trans ((Nat.sub_le _ _).trans hc)
    | some c' =>
      obtain ⟨hroom, hlength, -⟩ := delivered_of_trySend hsend
      exact ih reads.tail (by omega)

theorem received_forward_nil {capacity : ℕ} (xs : List α) (c : Channel α) :
    (c.forward capacity xs []).received = c.received := by
  induction xs generalizing c with
  | nil => rfl
  | cons x xs ih =>
    rw [forward, List.headD_nil, List.tail_nil]
    have hreceive : (c.receive 0).received = c.received := by
      rw [receive, List.take_zero, List.append_nil]
    cases hsend : (c.receive 0).trySend capacity x with
    | none => exact hreceive
    | some c' =>
      rw [trySend] at hsend
      split_ifs at hsend
      cases hsend
      rw [ih]
      exact hreceive

end Channel

end Coinext
