import Mathlib.Data.List.Sort
import Mathlib.Data.List.TakeWhile
import Mathlib.Order.Basic

/-!
# Queues ordered by due time

A heap of items with a due time, popped earliest first and, among equal due times, in the order of
insertion. Since every insertion takes a fresh sequence number, the pop order is a total order on
the entries, and the heap is represented by the list of its entries in that order.

A new item goes behind everything that is due no later (`entries_push`). So the entries that
satisfy some property keep their order of insertion as long as they are pushed with due times that
do not decrease (`filter_push_of_le`).
-/

namespace Coinext

/-- An item with its due time and its place in the order of insertion. -/
structure Timed (α : Type) where
  due : ℕ
  seq : ℕ
  item : α
deriving DecidableEq

namespace Timed

variable {α : Type}

/-- The order in which entries are popped. -/
def Before (a b : Timed α) : Prop := a.due < b.due ∨ a.due = b.due ∧ a.seq ≤ b.seq

instance : DecidableRel (Before (α := α)) := fun _ _ ↦ inferInstanceAs (Decidable (_ ∨ _))

instance : Std.Total (Before (α := α)) where
  total a b := by
    unfold Before
    omega

instance : IsTrans (Timed α) Before where
  trans a b c hab hbc := by
    unfold Before at *
    omega

end Timed

/-- The entries in the order in which they are popped, and the number of insertions so far. -/
structure DueQueue (α : Type) where
  entries : List (Timed α)
  seq : ℕ
  sorted : entries.Pairwise Timed.Before
  seq_le : ∀ e ∈ entries, e.seq ≤ seq

namespace DueQueue

variable {α : Type}

def empty : DueQueue α := ⟨[], 0, List.Pairwise.nil, fun _ h ↦ absurd h List.not_mem_nil⟩

def push (q : DueQueue α) (due : ℕ) (item : α) : DueQueue α where
  entries := q.entries.orderedInsert Timed.Before ⟨due, q.seq + 1, item⟩
  seq := q.seq + 1
  sorted := q.sorted.orderedInsert _ _
  seq_le e he := by
    rcases (List.mem_orderedInsert _).mp he with rfl | he
    · exact le_rfl
    · exact (q.seq_le e he).trans (Nat.le_succ _)

def peekDue (q : DueQueue α) : Option ℕ := q.entries.head?.map Timed.due

/-- The entries due at or before `frontier`. -/
def due (q : DueQueue α) (frontier : ℕ) : List (Timed α) :=
  q.entries.takeWhile fun e ↦ decide (e.due ≤ frontier)

/-- The queue once the entries due at or before `frontier` have been popped. -/
def rest (q : DueQueue α) (frontier : ℕ) : DueQueue α where
  entries := q.entries.dropWhile fun e ↦ decide (e.due ≤ frontier)
  seq := q.seq
  sorted := q.sorted.sublist (List.dropWhile_sublist _)
  seq_le e he := q.seq_le e ((List.dropWhile_sublist _).subset he)

/-- Pop everything due at or before `frontier`, earliest first. -/
def drainDue (q : DueQueue α) (frontier : ℕ) : List α × DueQueue α :=
  ((q.due frontier).map Timed.item, q.rest frontier)

/-- The items in the order in which they are popped. -/
def items (q : DueQueue α) : List α := q.entries.map Timed.item

theorem drainDue_append (q : DueQueue α) (frontier : ℕ) :
    (q.drainDue frontier).1 ++ (q.drainDue frontier).2.items = q.items := by
  unfold drainDue items
  rw [← List.map_append]
  exact congrArg _ List.takeWhile_append_dropWhile

theorem due_le_of_mem_due {q : DueQueue α} {frontier : ℕ} {e : Timed α} (h : e ∈ q.due frontier) :
    e.due ≤ frontier := by
  have hdue := List.mem_takeWhile_imp h
  simpa using hdue

theorem lt_due_of_mem_rest {q : DueQueue α} {frontier : ℕ} {e : Timed α}
    (h : e ∈ (q.rest frontier).entries) : frontier < e.due := by
  have hsorted := (q.rest frontier).sorted
  cases hl : (q.rest frontier).entries with
  | nil =>
    rw [hl] at h
    cases h
  | cons first l =>
    -- the first entry left is past the frontier, and the others come after it
    have hfirst : frontier < first.due := by
      have hne : q.entries.dropWhile (fun e ↦ decide (e.due ≤ frontier)) ≠ [] := by
        change (q.rest frontier).entries ≠ []
        rw [hl]
        exact List.cons_ne_nil _ _
      have hhead := List.head_dropWhile_not (fun e : Timed α ↦ decide (e.due ≤ frontier)) hne
      have heq : (q.entries.dropWhile (fun e ↦ decide (e.due ≤ frontier))).head hne = first := by
        simp [show q.entries.dropWhile (fun e ↦ decide (e.due ≤ frontier)) = first :: l from hl]
      rw [heq] at hhead
      simpa using hhead
    rw [hl] at h hsorted
    rcases List.mem_cons.mp h with rfl | h
    · exact hfirst
    · have := List.rel_of_pairwise_cons hsorted h
      unfold Timed.Before at this
      omega

theorem le_due_of_peekDue {q : DueQueue α} {n : ℕ} (h : ∀ d, q.peekDue = some d → n ≤ d) :
    ∀ e ∈ q.entries, n ≤ e.due := by
  intro e he
  have hsorted := q.sorted
  cases hentries : q.entries with
  | nil =>
    rw [hentries] at he
    cases he
  | cons first rest =>
    have hfirst : n ≤ first.due := h first.due (by rw [peekDue, hentries]; rfl)
    rw [hentries] at he hsorted
    rcases List.mem_cons.mp he with rfl | he
    · exact hfirst
    · have hbefore := List.rel_of_pairwise_cons hsorted he
      unfold Timed.Before at hbefore
      omega

/-- **Where a new item goes:** behind everything that is due no later. -/
theorem entries_push (q : DueQueue α) (d : ℕ) (x : α) :
    (q.push d x).entries = q.due d ++ ⟨d, q.seq + 1, x⟩ :: (q.rest d).entries := by
  have hcongr : ∀ e ∈ q.entries,
      (decide ¬ Timed.Before ⟨d, q.seq + 1, x⟩ e) = decide (e.due ≤ d) := by
    intro e he
    have := q.seq_le e he
    unfold Timed.Before
    rw [decide_eq_decide]
    simp only
    omega
  have hsplit : ∀ l : List (Timed α), (∀ e ∈ l,
      (decide ¬ Timed.Before ⟨d, q.seq + 1, x⟩ e) = decide (e.due ≤ d)) →
      l.takeWhile (fun e ↦ decide ¬ Timed.Before ⟨d, q.seq + 1, x⟩ e)
        = l.takeWhile (fun e ↦ decide (e.due ≤ d)) ∧
      l.dropWhile (fun e ↦ decide ¬ Timed.Before ⟨d, q.seq + 1, x⟩ e)
        = l.dropWhile (fun e ↦ decide (e.due ≤ d)) := by
    intro l hl
    induction l with
    | nil => exact ⟨rfl, rfl⟩
    | cons e l ih =>
      obtain ⟨ht, hd⟩ := ih fun e' he' ↦ hl e' (List.mem_cons_of_mem _ he')
      rw [List.takeWhile_cons, List.takeWhile_cons, List.dropWhile_cons, List.dropWhile_cons, ht,
        hd, hl e List.mem_cons_self]
      exact ⟨rfl, rfl⟩
  obtain ⟨ht, hd⟩ := hsplit q.entries hcongr
  change q.entries.orderedInsert _ _ = _
  rw [List.orderedInsert_eq_take_drop, ht, hd]
  rfl

theorem entries_eq_append (q : DueQueue α) (d : ℕ) :
    q.entries = q.due d ++ (q.rest d).entries := List.takeWhile_append_dropWhile.symm

theorem items_push_perm (q : DueQueue α) (d : ℕ) (x : α) :
    (q.push d x).items.Perm (x :: q.items) := by
  rw [items, entries_push, items, entries_eq_append q d, List.map_append, List.map_append,
    List.map_cons]
  exact List.perm_middle

theorem filter_push_of_neg (q : DueQueue α) (d : ℕ) {x : α} {p : α → Bool} (hx : p x = false) :
    (q.push d x).entries.filter (fun e ↦ p e.item) = q.entries.filter fun e ↦ p e.item := by
  rw [entries_push, List.filter_append, List.filter_cons_of_neg (by simp [hx]),
    ← List.filter_append, ← entries_eq_append]

/-- Entries of the same kind: those due no later come before the new one. -/
theorem filter_push_of_pos (q : DueQueue α) (d : ℕ) {x : α} {p : α → Bool} (hx : p x = true) :
    (q.push d x).entries.filter (fun e ↦ p e.item)
      = (q.due d).filter (fun e ↦ p e.item)
        ++ ⟨d, q.seq + 1, x⟩ :: (q.rest d).entries.filter fun e ↦ p e.item := by
  rw [entries_push, List.filter_append, List.filter_cons_of_pos (by simp [hx])]

/-- Entries of one kind keep their order of insertion while their due times do not decrease. -/
theorem filter_push_of_le (q : DueQueue α) {d : ℕ} {x : α} {p : α → Bool} (hx : p x = true)
    (hle : ∀ e ∈ q.entries.filter (fun e ↦ p e.item), e.due ≤ d) :
    (q.push d x).entries.filter (fun e ↦ p e.item)
      = q.entries.filter (fun e ↦ p e.item) ++ [⟨d, q.seq + 1, x⟩] := by
  have hnone : (q.rest d).entries.filter (fun e ↦ p e.item) = [] := by
    refine List.eq_nil_iff_forall_not_mem.mpr fun e he ↦ ?_
    have hlate := lt_due_of_mem_rest (List.mem_of_mem_filter he)
    have hearly := hle e (List.mem_filter.mpr
      ⟨(List.dropWhile_sublist _).subset (List.mem_of_mem_filter he), (List.mem_filter.mp he).2⟩)
    omega
  have hall : q.entries.filter (fun e ↦ p e.item) = (q.due d).filter fun e ↦ p e.item := by
    rw [entries_eq_append q d, List.filter_append, hnone, List.append_nil]
  rw [filter_push_of_pos q d hx, hnone, hall]

/-! ## Growing queues -/

/-- The entries of a later queue that were pushed since. -/
def news (q q' : DueQueue α) : List (Timed α) := q'.entries.filter fun e ↦ q.seq < e.seq

/-- The second queue comes from the first by pushes with due times in a range. -/
inductive Extends (lo hi : ℕ) (q : DueQueue α) : DueQueue α → Prop
  | refl : Extends lo hi q q
  | push {q' : DueQueue α} {d : ℕ} (x : α) : Extends lo hi q q' → lo ≤ d → d ≤ hi →
    Extends lo hi q (q'.push d x)

theorem entries_push_perm (q : DueQueue α) (d : ℕ) (x : α) :
    (q.push d x).entries.Perm (⟨d, q.seq + 1, x⟩ :: q.entries) := List.perm_orderedInsert _ _ _

@[simp] theorem news_self (q : DueQueue α) : q.news q = [] := by
  rw [news, List.filter_eq_nil_iff]
  intro e he
  have := q.seq_le e he
  simp [this]

/-- What growing adds: new entries, numbered apart and due in the range. -/
theorem Extends.spec {lo hi : ℕ} {q q' : DueQueue α} (h : Extends lo hi q q') :
    q.seq ≤ q'.seq ∧ q'.entries.Perm (q.entries ++ q.news q')
      ∧ (∀ e ∈ q.news q', lo ≤ e.due ∧ e.due ≤ hi) ∧ ((q.news q').map Timed.seq).Nodup := by
  induction h with
  | refl => simp
  | @push q' d x _ hlo hhi ih =>
    obtain ⟨hseq, hperm, hrange, hnodup⟩ := ih
    have hnews : (q.news (q'.push d x)).Perm (⟨d, q'.seq + 1, x⟩ :: q.news q') := by
      have hfilter := (q'.entries_push_perm d x).filter fun e ↦ decide (q.seq < e.seq)
      rwa [List.filter_cons_of_pos (by simp; omega)] at hfilter
    refine ⟨hseq.trans (Nat.le_succ _), ?_, fun e he ↦ ?_, ?_⟩
    · have hmiddle : (⟨d, q'.seq + 1, x⟩ :: (q.entries ++ q.news q')).Perm
          (q.entries ++ ⟨d, q'.seq + 1, x⟩ :: q.news q') := List.perm_middle.symm
      exact (q'.entries_push_perm d x).trans
        ((hperm.cons _).trans (hmiddle.trans (hnews.symm.append_left _)))
    · rcases List.mem_cons.mp (hnews.subset he) with rfl | he
      · exact ⟨hlo, hhi⟩
      · exact hrange e he
    · rw [(hnews.map Timed.seq).nodup_iff, List.map_cons, List.nodup_cons]
      refine ⟨fun hmem ↦ ?_, hnodup⟩
      -- a fresh number is larger than any in use
      obtain ⟨e, he, heq⟩ := List.mem_map.mp hmem
      have hle := q'.seq_le e (List.mem_of_mem_filter he)
      simp only at heq
      omega

end DueQueue

end Coinext
