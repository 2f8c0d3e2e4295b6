import Coinext.Model.Order
import Mathlib.Data.List.Sort

/-!
# The durable order log and the sequence cursor

`coinext-persistence` keeps two tables. `order_events` is an append-only log keyed by the client
order id and a sequence number that the store assigns: one past the largest of the order, or zero.
`seq_cursor` holds the last sequence number issued to a strategy, from which client order ids are
minted.

The table is a list in the order of its insertions. That a later row of an order has a larger
sequence number is a field of `SqliteEventStore`, so that reading an order's rows in the order of
their numbers is reading them in the order they were appended. What the rest of the development
uses is `replay_append`.
-/

namespace Coinext

/-- A row of `order_events`. The event is stored as text that reads back to it. -/
structure EventRow where
  strategyId : StrategyId
  clientOrderId : ClientOrderId
  seq : ℕ
  ts : UnixNanos
  event : OrderEvent

/-- The table of order events. -/
structure SqliteEventStore where
  rows : List EventRow
  numbered : rows.Pairwise fun a b ↦ a.clientOrderId = b.clientOrderId → a.seq < b.seq

namespace SqliteEventStore

/-- A table as it is created. -/
def empty : SqliteEventStore := ⟨[], .nil⟩

/-- The rows of one order. -/
def rowsOf (s : SqliteEventStore) (coid : ClientOrderId) : List EventRow :=
  s.rows.filter (·.clientOrderId = coid)

/-- `COALESCE(MAX(seq) + 1, 0)` over the rows of an order. -/
def nextSeq (s : SqliteEventStore) (coid : ClientOrderId) : ℕ :=
  ((s.rowsOf coid).map (·.seq + 1)).foldr max 0

theorem seq_lt_nextSeq {s : SqliteEventStore} {coid : ClientOrderId} {r : EventRow}
    (hr : r ∈ s.rows) (hid : r.clientOrderId = coid) : r.seq < s.nextSeq coid := by
  have hmem : r.seq + 1 ∈ (s.rowsOf coid).map (·.seq + 1) :=
    List.mem_map.mpr ⟨r, List.mem_filter.mpr ⟨hr, by simpa using hid⟩, rfl⟩
  exact Nat.lt_of_succ_le (List.le_max_of_le hmem le_rfl)

/-- Append an event to the stream of an order, under the next number of the order. -/
def append (s : SqliteEventStore) (strategyId : StrategyId) (coid : ClientOrderId)
    (event : OrderEvent) (ts : UnixNanos) : SqliteEventStore where
  rows := s.rows ++ [⟨strategyId, coid, s.nextSeq coid, ts, event⟩]
  numbered := by
    rw [List.pairwise_append]
    refine ⟨s.numbered, List.pairwise_singleton _ _, ?_⟩
    intro a ha b hb hid
    obtain rfl := List.mem_singleton.mp hb
    exact seq_lt_nextSeq ha hid

/-- The events of an order, by sequence number. -/
def replay (s : SqliteEventStore) (coid : ClientOrderId) : List OrderEvent :=
  ((s.rowsOf coid).mergeSort fun a b ↦ a.seq ≤ b.seq).map (·.event)

/-- The pairs of strategy and order the table knows, each once, in order. -/
def listOrders (s : SqliteEventStore) : List (StrategyId × ClientOrderId) :=
  ((s.rows.map fun r ↦ (r.strategyId, r.clientOrderId)).dedup).mergeSort fun a b ↦
    a.1.text < b.1.text ∨ a.1.text = b.1.text ∧ a.2.text ≤ b.2.text

/-- The order of the rows of a strategy: by client order id, then by number. -/
def before (a b : EventRow) : Bool :=
  a.clientOrderId.text < b.clientOrderId.text
    ∨ a.clientOrderId.text = b.clientOrderId.text ∧ a.seq ≤ b.seq

/-- The events that are stored under a strategy, each with its order. -/
def allForStrategy (s : SqliteEventStore) (sid : StrategyId) : List (ClientOrderId × OrderEvent) :=
  ((s.rows.filter (·.strategyId = sid)).mergeSort before).map fun r ↦ (r.clientOrderId, r.event)

theorem replay_eq (s : SqliteEventStore) (coid : ClientOrderId) :
    s.replay coid = (s.rowsOf coid).map (·.event) := by
  have hsorted : (s.rowsOf coid).Pairwise fun a b ↦ a.seq ≤ b.seq := by
    refine (s.numbered.filter _).imp_of_mem ?_
    intro a b ha hb hlt
    have hida : a.clientOrderId = coid := by simpa using (List.mem_filter.mp ha).2
    have hidb : b.clientOrderId = coid := by simpa using (List.mem_filter.mp hb).2
    exact (hlt (hida.trans hidb.symm)).le
  rw [replay, List.mergeSort_of_pairwise (hsorted.imp decide_eq_true)]

@[simp] theorem replay_empty (coid : ClientOrderId) : empty.replay coid = [] := replay_eq _ _

/-- **What an append does.** It extends the stream of its own order and no other. -/
theorem replay_append (s : SqliteEventStore) (strategyId : StrategyId) (coid : ClientOrderId)
    (event : OrderEvent) (ts : UnixNanos) (id : ClientOrderId) :
    (s.append strategyId coid event ts).replay id
      = if id = coid then s.replay id ++ [event] else s.replay id := by
  simp only [replay_eq, rowsOf, append, List.filter_append, List.map_append]
  by_cases hid : id = coid
  · subst hid
    simp
  · have hne : coid ≠ id := fun h ↦ hid h.symm
    simp [hid, hne]

theorem before_trans (a b c : EventRow) (hab : before a b = true) (hbc : before b c = true) :
    before a c = true := by
  simp only [before, decide_eq_true_eq] at *
  rcases hab with hab | ⟨hab, hseq⟩
  · rcases hbc with hbc | ⟨hbc, -⟩
    · exact .inl (String.lt_trans hab hbc)
    · exact .inl (hbc ▸ hab)
  · rw [hab]
    exact hbc.imp_right fun ⟨hbc, hseq'⟩ ↦ ⟨hbc, hseq.trans hseq'⟩

theorem before_total (a b : EventRow) : (before a b || before b a) = true := by
  simp only [before, Bool.or_eq_true, decide_eq_true_eq]
  by_cases hlt : a.clientOrderId.text < b.clientOrderId.text
  · exact .inl (.inl hlt)
  by_cases hgt : b.clientOrderId.text < a.clientOrderId.text
  · exact .inr (.inl hgt)
  have heq := String.le_antisymm (String.not_lt.mp hgt) (String.not_lt.mp hlt)
  rcases le_total a.seq b.seq with hle | hle
  · exact .inl (.inr ⟨heq, hle⟩)
  · exact .inr (.inr ⟨heq.symm, hle⟩)

/-- What a strategy gets back of one order: the rows of the order that are stored under the
strategy, in the order they were appended. -/
theorem events_allForStrategy (s : SqliteEventStore) (sid : StrategyId) (coid : ClientOrderId) :
    ((s.allForStrategy sid).filter (·.1 = coid)).map Prod.snd
      = ((s.rowsOf coid).filter (·.strategyId = sid)).map (·.event) := by
  set l := s.rows.filter (·.strategyId = sid) with hl
  set own := l.filter (·.clientOrderId = coid) with hown
  -- the order's own rows are sorted, so sorting leaves them where they are
  have hsorted : own.Pairwise fun a b ↦ before a b = true := by
    refine ((s.numbered.filter _).filter _).imp_of_mem fun {a b} ha hb hlt ↦ ?_
    have hida : a.clientOrderId = coid := by simpa using (List.mem_filter.mp ha).2
    have hidb : b.clientOrderId = coid := by simpa using (List.mem_filter.mp hb).2
    simp only [before, decide_eq_true_eq]
    exact .inr ⟨by rw [hida, hidb], (hlt (hida.trans hidb.symm)).le⟩
  have hsub : own.Sublist ((l.mergeSort before).filter (·.clientOrderId = coid)) := by
    have hin := List.sublist_mergeSort before_trans before_total hsorted List.filter_sublist
    have hfilter := hin.filter (·.clientOrderId = coid)
    rwa [hown, List.filter_filter, funext fun r ↦ Bool.and_self _] at hfilter
  have hrows : (l.mergeSort before).filter (·.clientOrderId = coid) = own :=
    (hsub.eq_of_length ((List.mergeSort_perm l before).filter _).length_eq.symm).symm
  have hcomm : own = (s.rowsOf coid).filter (·.strategyId = sid) := by
    rw [hown, hl, rowsOf, List.filter_filter, List.filter_filter]
    exact List.filter_congr fun r _ ↦ Bool.and_comm _ _
  rw [allForStrategy, List.filter_map, List.map_map, ← hcomm, ← hrows]
  rfl

/-- A strategy gets back all of an order exactly when every row of the order is stored under it. -/
theorem events_allForStrategy_eq_replay_iff (s : SqliteEventStore) (sid : StrategyId)
    (coid : ClientOrderId) :
    ((s.allForStrategy sid).filter (·.1 = coid)).map Prod.snd = s.replay coid
      ↔ ∀ r ∈ s.rows, r.clientOrderId = coid → r.strategyId = sid := by
  rw [events_allForStrategy, replay_eq]
  have hall : (∀ r ∈ s.rows, r.clientOrderId = coid → r.strategyId = sid)
      ↔ ∀ r ∈ s.rowsOf coid, r.strategyId = sid := by
    simp [rowsOf]
  rw [hall]
  constructor
  · intro h r hr
    have hlength : ((s.rowsOf coid).filter (·.strategyId = sid)).length
        = (s.rowsOf coid).length := by
      simpa using congrArg List.length h
    simpa using List.length_filter_eq_length_iff.mp hlength r hr
  · intro h
    rw [List.filter_eq_self.mpr fun r hr ↦ decide_eq_true (h r hr)]

theorem exists_mem_listOrders {s : SqliteEventStore} {coid : ClientOrderId} :
    (∃ sid, (sid, coid) ∈ s.listOrders) ↔ s.replay coid ≠ [] := by
  simp only [listOrders, List.mem_mergeSort, List.mem_dedup, List.mem_map, replay_eq, rowsOf, ne_eq,
    List.map_eq_nil_iff, List.filter_eq_nil_iff, decide_eq_true_eq, not_forall, not_not]
  constructor
  · rintro ⟨sid, r, hr, heq⟩
    exact ⟨r, hr, congrArg Prod.snd heq⟩
  · rintro ⟨r, hr, rfl⟩
    exact ⟨_, r, hr, rfl⟩

end SqliteEventStore

/-! ## The sequence cursor -/

/-- The last number issued to each strategy; a strategy without a row has been issued none. -/
structure SeqCursor where
  counters : Map String ℕ

namespace SeqCursor

def empty : SeqCursor := ⟨∅⟩

def current (c : SeqCursor) (ns : String) : ℕ := (c.counters.lookup ns).getD 0

/-- Reserve the next number of a strategy. A statement of the transaction may fail, and then the
transaction is rolled back. -/
def next (c : SeqCursor) (ns : String) (fails : Bool) : Option ℕ × SeqCursor :=
  if fails then (none, c)
  else
    let seq := c.current ns + 1
    (some seq, ⟨c.counters.insert ns seq⟩)

theorem current_next (c : SeqCursor) (ns : String) (fails : Bool) (other : String) :
    (c.next ns fails).2.current other
      = if other = ns ∧ fails = false then c.current other + 1 else c.current other := by
  unfold next current
  by_cases hfails : fails = true
  · simp [hfails]
  · by_cases hns : other = ns
    · subst hns
      simp [hfails, AList.lookup_insert]
    · simp [hfails, hns, AList.lookup_insert_ne hns]

end SeqCursor

end Coinext
