import Coinext.Model.Types
import Coinext.Support.DueQueue
import Mathlib.Data.Finset.Insert

/-!
# The historical clock

Time moves with the data frontier and never backwards. Timers wait in a heap ordered by their fire
time and, among equal times, by their id, which is the order in which they were set.
-/

namespace Coinext

/-- Opaque timer handle. -/
structure TimerId where
  value : ℕ
deriving DecidableEq

/-- Delivered to the strategy when a timer fires. -/
structure TimerEvent where
  id : TimerId
  name : String
  tsEvent : UnixNanos
deriving DecidableEq

structure HistoricalClock where
  now : UnixNanos
  heap : DueQueue TimerId
  cancelled : Finset TimerId
  names : Map TimerId String
  nextId : ℕ

namespace HistoricalClock

def new (start : UnixNanos) : HistoricalClock := ⟨start, .empty, ∅, ∅, 1⟩

/-- Advance the clock to `ts`; it never moves backwards. -/
def advanceTo (c : HistoricalClock) (ts : UnixNanos) : HistoricalClock :=
  if ts > c.now then { c with now := ts } else c

/-- Register a timer; it may lie in the past. -/
def setTimer (c : HistoricalClock) (name : String) (ts : UnixNanos) : TimerId × HistoricalClock :=
  (⟨c.nextId⟩, { c with
    nextId := c.nextId + 1
    heap := c.heap.push ts ⟨c.nextId⟩
    names := c.names.insert ⟨c.nextId⟩ name })

def cancelTimer (c : HistoricalClock) (id : TimerId) : HistoricalClock :=
  { c with cancelled := insert id c.cancelled }

/-- The fire time of the next timer that has not been cancelled. -/
def peekNextTimer (c : HistoricalClock) : Option UnixNanos :=
  ((c.heap.entries.filter fun e ↦ e.item ∉ c.cancelled).map Timed.due).min?

/-- Fire one popped timer, unless it has been cancelled. -/
def fire (s : HistoricalClock × List TimerEvent) (e : Timed TimerId) :
    HistoricalClock × List TimerEvent :=
  let (c, out) := s
  let c' := { c with names := c.names.erase e.item, cancelled := c.cancelled.erase e.item }
  if e.item ∈ c.cancelled then (c', out)
  else (c', out ++ [⟨e.item, (c.names.lookup e.item).getD "", e.due⟩])

/-- Pop the timers due at or before `frontier`, in the order of their times. -/
def popDue (c : HistoricalClock) (frontier : UnixNanos) : HistoricalClock × List TimerEvent :=
  (c.heap.due frontier).foldl fire ({ c with heap := c.heap.rest frontier }, [])

theorem now_le_advanceTo (c : HistoricalClock) (ts : UnixNanos) : c.now ≤ (c.advanceTo ts).now := by
  unfold advanceTo
  split_ifs with h
  · exact h.le
  · exact le_rfl

theorem le_now_advanceTo (c : HistoricalClock) (ts : UnixNanos) : ts ≤ (c.advanceTo ts).now := by
  unfold advanceTo
  split_ifs with h
  · exact le_rfl
  · exact not_lt.mp h

@[simp] theorem now_setTimer (c : HistoricalClock) (name : String) (ts : UnixNanos) :
    (c.setTimer name ts).2.now = c.now := rfl

@[simp] theorem now_cancelTimer (c : HistoricalClock) (id : TimerId) :
    (c.cancelTimer id).now = c.now := rfl

/-- What firing the popped timers leaves: time, heap and counter as they were, and the other
cancellations. -/
theorem foldl_fire (l : List (Timed TimerId)) (s : HistoricalClock × List TimerEvent) :
    (l.foldl fire s).1.now = s.1.now ∧ (l.foldl fire s).1.heap = s.1.heap ∧
      (l.foldl fire s).1.nextId = s.1.nextId ∧
      ∀ id ∉ l.map Timed.item, (id ∈ (l.foldl fire s).1.cancelled ↔ id ∈ s.1.cancelled) := by
  induction l generalizing s with
  | nil => exact ⟨rfl, rfl, rfl, fun _ _ ↦ Iff.rfl⟩
  | cons e l ih =>
    obtain ⟨c, out⟩ := s
    have hfire : (fire (c, out) e).1 = { c with
        names := c.names.erase e.item, cancelled := c.cancelled.erase e.item } := by
      simp only [fire]
      split_ifs <;> rfl
    obtain ⟨hnow, hheap, hnext, hcancelled⟩ := ih (fire (c, out) e)
    rw [hfire] at hnow hheap hnext hcancelled
    refine ⟨hnow, hheap, hnext, fun id hid ↦ ?_⟩
    rw [List.map_cons, List.mem_cons, not_or] at hid
    exact (hcancelled id hid.2).trans (Finset.mem_erase.trans (and_iff_right hid.1))

@[simp] theorem now_popDue (c : HistoricalClock) (frontier : UnixNanos) :
    (c.popDue frontier).1.now = c.now := (foldl_fire _ _).1

theorem heap_popDue (c : HistoricalClock) (frontier : UnixNanos) :
    (c.popDue frontier).1.heap = c.heap.rest frontier := (foldl_fire _ _).2.1

theorem nextId_popDue (c : HistoricalClock) (frontier : UnixNanos) :
    (c.popDue frontier).1.nextId = c.nextId := (foldl_fire _ _).2.2.1

theorem mem_cancelled_popDue {c : HistoricalClock} {frontier : UnixNanos} {id : TimerId}
    (hid : id ∉ (c.heap.due frontier).map Timed.item) :
    id ∈ (c.popDue frontier).1.cancelled ↔ id ∈ c.cancelled := (foldl_fire _ _).2.2.2 id hid

theorem of_mem_popDue {c : HistoricalClock} {frontier : UnixNanos} {t : TimerEvent}
    (hnodup : c.heap.items.Nodup) (ht : t ∈ (c.popDue frontier).2) :
    t.id ∈ c.heap.items ∧ t.id ∉ c.cancelled := by
  have hfold (l : List (Timed TimerId)) (s : HistoricalClock × List TimerEvent)
      (hl : (l.map Timed.item).Nodup) (ht : t ∈ (l.foldl fire s).2) :
      t ∈ s.2 ∨ t.id ∈ l.map Timed.item ∧ t.id ∉ s.1.cancelled := by
    induction l generalizing s with
    | nil => exact .inl ht
    | cons e l ih =>
      obtain ⟨c, out⟩ := s
      obtain ⟨hne, hl⟩ := List.nodup_cons.mp hl
      rcases ih (fire (c, out) e) hl ht with hout | ⟨hid, hcancelled⟩
      · by_cases he : e.item ∈ c.cancelled
        · simp only [fire, if_pos he] at hout
          exact .inl hout
        · simp only [fire, if_neg he, List.mem_append, List.mem_singleton] at hout
          rcases hout with hout | rfl
          · exact .inl hout
          · exact .inr ⟨List.mem_cons_self, he⟩
      · -- the timers before it have other ids
        have hother : t.id ≠ e.item := fun heq ↦ hne (heq ▸ hid)
        refine .inr ⟨List.mem_cons_of_mem _ hid, fun hmem ↦ hcancelled ?_⟩
        have hkept : t.id ∈ c.cancelled.erase e.item := Finset.mem_erase.mpr ⟨hother, hmem⟩
        simp only [fire]
        split_ifs <;> exact hkept
  have hsub : ((c.heap.due frontier).map Timed.item).Sublist c.heap.items :=
    (List.takeWhile_sublist _).map _
  rcases hfold _ _ (hnodup.sublist hsub) ht with hnil | ⟨hid, hcancelled⟩
  · cases hnil
  · exact ⟨hsub.subset hid, hcancelled⟩

end HistoricalClock

end Coinext
