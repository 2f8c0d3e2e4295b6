import Coinext.Support.DueQueue
import Mathlib.Data.List.Range

/-!
# The history of a due queue

A queue forgets what is popped, and it is not ordered as it was filled. `history popped q` is what
has been pushed so far, in the order in which it was pushed: the entries popped and the entries that
wait, sorted by their numbers. A push appends to it (`history_push`) and popping leaves it alone
(`history_rest`), provided that the numbers are those the queue has given out (`Numbered`).

Entries are popped in another order when their due times are not those of their pushes. While the
due times do not decrease, what is popped is a prefix of the history (`InOrder`).
-/

namespace Coinext

namespace DueQueue

variable {α : Type} {popped : List (Timed α)} {q : DueQueue α}

/-- The order in which entries were pushed. -/
def PushedBefore (a b : Timed α) : Prop := a.seq ≤ b.seq

instance : DecidableRel (PushedBefore (α := α)) := fun _ _ ↦ inferInstanceAs (Decidable (_ ≤ _))

instance : Std.Total (PushedBefore (α := α)) := ⟨fun a b ↦ le_total a.seq b.seq⟩

instance : IsTrans (Timed α) PushedBefore := ⟨fun _ _ _ hab hbc ↦ le_trans hab hbc⟩

/-- Everything that was pushed, in that order. -/
def history (popped : List (Timed α)) (q : DueQueue α) : List (Timed α) :=
  (popped ++ q.entries).insertionSort PushedBefore

/-- The entries popped and waiting have the numbers that were given out, each once. -/
def Numbered (popped : List (Timed α)) (q : DueQueue α) : Prop :=
  ((popped ++ q.entries).map Timed.seq).Perm (List.range' 1 q.seq)

theorem numbered_empty : Numbered [] (empty : DueQueue α) := .refl _

theorem history_perm (popped : List (Timed α)) (q : DueQueue α) :
    (history popped q).Perm (popped ++ q.entries) := List.perm_insertionSort _ _

/-! ## Pushing and popping -/

theorem Numbered.seq_le (h : Numbered popped q) {e : Timed α} (he : e ∈ history popped q) :
    1 ≤ e.seq ∧ e.seq ≤ q.seq := by
  have hmem : e.seq ∈ List.range' 1 q.seq :=
    h.subset (List.mem_map_of_mem ((history_perm popped q).subset he))
  rw [List.mem_range'_1] at hmem
  omega

theorem Numbered.map_seq (h : Numbered popped q) :
    (history popped q).map Timed.seq = List.range' 1 q.seq := by
  have hperm : ((history popped q).map Timed.seq).Perm (List.range' 1 q.seq) :=
    ((history_perm popped q).map _).trans h
  refine hperm.eq_of_pairwise (fun _ _ _ _ hab hba ↦ le_antisymm hab hba) ?_
    (List.pairwise_le_range' _)
  exact List.pairwise_map.mpr (List.pairwise_insertionSort PushedBefore _)

theorem Numbered.strict (h : Numbered popped q) :
    (history popped q).Pairwise fun a b ↦ a.seq < b.seq := by
  rw [← List.pairwise_map (R := (· < ·)), h.map_seq]
  exact List.pairwise_lt_range'

theorem Numbered.eq_history (h : Numbered popped q) {l : List (Timed α)}
    (hperm : l.Perm (popped ++ q.entries)) (hsorted : l.Pairwise fun a b ↦ a.seq < b.seq) :
    l = history popped q := by
  refine (hperm.trans (history_perm popped q).symm).eq_of_pairwise ?_ hsorted h.strict
  exact fun a b _ _ hab hba ↦ absurd (hab.trans hba) (lt_irrefl _)

theorem Numbered.push (h : Numbered popped q) (d : ℕ) (x : α) : Numbered popped (q.push d x) := by
  have hperm : (popped ++ (q.push d x).entries).Perm
      (⟨d, q.seq + 1, x⟩ :: (popped ++ q.entries)) :=
    ((q.entries_push_perm d x).append_left popped).trans List.perm_middle
  refine (hperm.map Timed.seq).trans ?_
  rw [List.map_cons, show (q.push d x).seq = q.seq + 1 from rfl, List.range'_concat, Nat.one_mul,
    Nat.add_comm 1]
  exact ((h.cons _).trans (List.perm_append_singleton _ _).symm)

/-- **A push** appends to the history. -/
theorem Numbered.history_push (h : Numbered popped q) (d : ℕ) (x : α) :
    history popped (q.push d x) = history popped q ++ [⟨d, q.seq + 1, x⟩] := by
  symm
  refine (h.push d x).eq_history ?_ ?_
  · have hperm : (popped ++ (q.push d x).entries).Perm
        (⟨d, q.seq + 1, x⟩ :: (popped ++ q.entries)) :=
      ((q.entries_push_perm d x).append_left popped).trans List.perm_middle
    exact ((List.perm_append_singleton _ _).trans ((history_perm popped q).cons _)).trans hperm.symm
  · refine List.pairwise_append.mpr ⟨h.strict, List.pairwise_singleton _ _, fun e he e' he' ↦ ?_⟩
    rw [List.mem_singleton.mp he']
    exact Nat.lt_succ_of_le (h.seq_le he).2

theorem popped_append_due (popped : List (Timed α)) (q : DueQueue α) (frontier : ℕ) :
    (popped ++ q.due frontier) ++ (q.rest frontier).entries = popped ++ q.entries := by
  rw [List.append_assoc, ← entries_eq_append]

theorem Numbered.rest (h : Numbered popped q) (frontier : ℕ) :
    Numbered (popped ++ q.due frontier) (q.rest frontier) := by
  rw [Numbered, popped_append_due]
  exact h

/-- **Popping** leaves the history alone. -/
theorem history_rest (popped : List (Timed α)) (q : DueQueue α) (frontier : ℕ) :
    history (popped ++ q.due frontier) (q.rest frontier) = history popped q := by
  rw [history, popped_append_due]
  rfl

/-! ## First in, first out -/

/-- What was popped and what waits is in the order in which it was pushed. -/
def InOrder (popped : List (Timed α)) (q : DueQueue α) : Prop :=
  popped ++ q.entries = history popped q

theorem InOrder.prefix (h : InOrder popped q) : popped <+: history popped q := by
  rw [← h]
  exact List.prefix_append _ _

theorem inOrder_empty : InOrder [] (empty : DueQueue α) := rfl

theorem entries_push_of_le {d : ℕ} (x : α) (h : ∀ e ∈ q.entries, e.due ≤ d) :
    (q.push d x).entries = q.entries ++ [⟨d, q.seq + 1, x⟩] := by
  have hnone : (q.rest d).entries = [] := by
    refine List.eq_nil_iff_forall_not_mem.mpr fun e he ↦ ?_
    have hlate := lt_due_of_mem_rest he
    have hearly := h e ((List.dropWhile_sublist _).subset he)
    omega
  have hdue : q.due d = q.entries := by
    have happend := q.entries_eq_append d
    rw [hnone, List.append_nil] at happend
    exact happend.symm
  rw [entries_push, hnone, hdue]

theorem InOrder.push (h : InOrder popped q) (hn : Numbered popped q) {d : ℕ} (x : α)
    (hd : ∀ e ∈ q.entries, e.due ≤ d) : InOrder popped (q.push d x) := by
  rw [InOrder, hn.history_push, entries_push_of_le x hd, ← h, List.append_assoc]

theorem InOrder.rest (h : InOrder popped q) (frontier : ℕ) :
    InOrder (popped ++ q.due frontier) (q.rest frontier) := by
  rw [InOrder, popped_append_due, history_rest]
  exact h

/-- Push several items that are due at one time. -/
def pushAll (d : ℕ) (xs : List α) (q : DueQueue α) : DueQueue α := xs.foldl (fun q x ↦ q.push d x) q

/-- Items that are due no earlier than everything that waits go last, one after the other. -/
theorem InOrder.pushAll (h : InOrder popped q) (hn : Numbered popped q) {d : ℕ}
    (hd : ∀ e ∈ q.entries, e.due ≤ d) (xs : List α) :
    InOrder popped (pushAll d xs q) ∧
      ∀ e ∈ (DueQueue.pushAll d xs q).entries, e ∈ q.entries ∨ e.due = d := by
  induction xs generalizing q with
  | nil => exact ⟨h, fun e he ↦ .inl he⟩
  | cons x xs ih =>
    have hentries := entries_push_of_le x hd
    have hwaiting : ∀ e ∈ (q.push d x).entries, e ∈ q.entries ∨ e.due = d := by
      intro e he
      rw [hentries, List.mem_append, List.mem_singleton] at he
      rcases he with he | rfl
      · exact .inl he
      · exact .inr rfl
    obtain ⟨hinOrder, hafter⟩ := ih (h.push hn x hd) (hn.push d x)
      fun e he ↦ (hwaiting e he).elim (hd e) fun heq ↦ heq.le
    exact ⟨hinOrder, fun e he ↦ (hafter e he).elim (hwaiting e) .inr⟩

end DueQueue

end Coinext
