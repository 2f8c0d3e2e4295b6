import Coinext.Model.MarketData

/-!
# The level book as a fold

What a book holds is decided by the deltas accepted since the last `Clear`, its epoch: at every
price the last of them that wrote there, and nothing where that one deleted the level. Which deltas
belong to the epoch is decided by the epoch itself, because a delta is refused when its sequence is
below one that was accepted, so the two are followed together along a run.

The `Clear` that starts an epoch counts with its sequence, which may be lower than what came before.
-/

namespace Coinext

/-! ## The best levels -/

namespace OrderBook

/-- The price of a level. -/
def price (book : OrderBook) (raw : ℤ) : Price :=
  match Price.fromRaw raw book.precision with
  | .ok p => p
  | .error _ => Price.zero book.precision

/-- The level of one side that `pick` chooses among the stored prices. -/
def best (book : OrderBook) (side : OrderSide) (pick : List ℤ → Option ℤ) :
    Option (Price × Quantity) := do
  let raw ← pick (book.side side).keys
  let q ← (book.side side).lookup raw
  some (book.price raw, q)

/-- The highest bid. -/
def bestBid (book : OrderBook) : Option (Price × Quantity) := book.best .buy List.max?

/-- The lowest ask. -/
def bestAsk (book : OrderBook) : Option (Price × Quantity) := book.best .sell List.min?

/-- The chosen level, for a choice that is extreme in some order. -/
theorem best_eq_some_iff (book : OrderBook) (side : OrderSide) {pick : List ℤ → Option ℤ}
    {le : ℤ → ℤ → Prop} (hpick : ∀ l x, pick l = some x ↔ x ∈ l ∧ ∀ y ∈ l, le y x) {px : Price}
    {q : Quantity} :
    book.best side pick = some (px, q) ↔
      ∃ raw, book.level (side, raw) = some q ∧ book.price raw = px ∧
        ∀ raw' q', book.level (side, raw') = some q' → le raw' raw := by
  have hkeys : ∀ raw, raw ∈ (book.side side).keys ↔ ∃ q', book.level (side, raw) = some q' :=
    fun raw ↦ by rw [AList.mem_keys.symm, ← AList.lookup_isSome, Option.isSome_iff_exists]; rfl
  simp only [best, Option.bind_eq_bind, Option.bind_eq_some_iff, hpick, hkeys, Option.some.injEq,
    Prod.mk.injEq]
  constructor
  · rintro ⟨raw, ⟨-, hextreme⟩, q', hq', rfl, rfl⟩
    exact ⟨raw, hq', rfl, fun raw' q' h ↦ hextreme raw' ⟨q', h⟩⟩
  · rintro ⟨raw, hq, rfl, hextreme⟩
    exact ⟨raw, ⟨⟨q, hq⟩, fun raw' ⟨q', h⟩ ↦ hextreme raw' q' h⟩, q, hq, rfl, rfl⟩

end OrderBook

/-! ## Epochs -/

/-- The last `Clear`, if there has been one, and the deltas accepted since. -/
structure Epoch where
  clear : Option OrderBookDelta
  deltas : List OrderBookDelta

namespace Epoch

/-- Before any delta. -/
def start : Epoch := ⟨none, []⟩

/-- The sequences accepted since the last `Clear`, its own first. -/
def sequences (e : Epoch) : List ℕ := (e.clear.toList ++ e.deltas).map OrderBookDelta.sequence

/-- A delta is refused when it is no `Clear` and some accepted sequence is above its own. -/
def Refuses (e : Epoch) (d : OrderBookDelta) : Prop :=
  d.action ≠ .clear ∧ ∃ s ∈ e.sequences, d.sequence < s

instance (e : Epoch) (d : OrderBookDelta) : Decidable (e.Refuses d) :=
  inferInstanceAs (Decidable (_ ∧ _))

/-- The epoch after one more delta. -/
def next (e : Epoch) (d : OrderBookDelta) : Epoch :=
  if d.action = .clear then ⟨some d, []⟩
  else if e.Refuses d then e
  else ⟨e.clear, e.deltas ++ [d]⟩

/-- The epoch after a sequence of deltas. -/
def of (deltas : List OrderBookDelta) : Epoch := deltas.foldl next start

end Epoch

/-- **The book is the fold of its epoch**: its levels, the deltas it refuses, its best prices. -/
structure LastWriterWins (pricePrecision : ℕ) (book : OrderBook) (e : Epoch) : Prop where
  level_iff : ∀ side px q, book.level (side, px) = some q ↔
    ∃ front d back, e.deltas = front ++ d :: back ∧ (d.action = .add ∨ d.action = .update) ∧
      d.side = side ∧ d.price.raw = px ∧ d.size = q ∧ q.raw ≠ 0 ∧
      ∀ b ∈ back, ¬(b.side = side ∧ b.price.raw = px)
  size_ne_zero : ∀ side px q, book.level (side, px) = some q → q.raw ≠ 0
  refused_iff : ∀ d, (book.apply d).2 = false ↔ e.Refuses d
  refused : ∀ d, (book.apply d).2 = false → (book.apply d).1 = book
  bestBid_iff : ∀ px q, book.bestBid = some (px, q) ↔ px.precision = pricePrecision ∧
    book.level (.buy, px.raw) = some q ∧
    ∀ px' q', book.level (.buy, px') = some q' → px' ≤ px.raw
  bestAsk_iff : ∀ px q, book.bestAsk = some (px, q) ↔ px.precision = pricePrecision ∧
    book.level (.sell, px.raw) = some q ∧
    ∀ px' q', book.level (.sell, px') = some q' → px.raw ≤ px'

/-! ## Books and epochs along a run -/

namespace OrderBook

/-- What the deltas of an epoch write. -/
def written (e : Epoch) : List ((OrderSide × ℤ) × Option Quantity) :=
  e.deltas.filterMap fun d ↦ some d.entry

/-- What a run keeps: the book has the levels, the highest sequence and the price precision of the
epoch. -/
structure Follows (pricePrecision : ℕ) (book : OrderBook) (e : Epoch) : Prop where
  level : book.level = patched (fun _ ↦ none) (written e)
  action : ∀ d ∈ e.deltas, d.action ≠ .clear
  made : ∀ d ∈ e.deltas, Price.fromRaw d.price.raw pricePrecision = .ok d.price
  seqSet : book.seqSet = true ↔ e.sequences ≠ []
  le_last : ∀ s ∈ e.sequences, s ≤ book.lastSequence
  last_mem : book.seqSet = true → book.lastSequence ∈ e.sequences
  last_zero : book.seqSet = false → book.lastSequence = 0
  precision : book.precision = pricePrecision ∨ book.precision = 0 ∧ e.deltas = []

variable {pricePrecision : ℕ} {book : OrderBook} {e : Epoch} {d : OrderBookDelta}

theorem follows_new (instrumentId : InstrumentId) (pricePrecision : ℕ) :
    Follows pricePrecision (OrderBook.new instrumentId) Epoch.start where
  level := by
    funext ⟨side, px⟩
    cases side <;> rfl
  action := fun _ hd ↦ absurd hd List.not_mem_nil
  made := fun _ hd ↦ absurd hd List.not_mem_nil
  seqSet := ⟨fun h ↦ (by cases h), fun h ↦ absurd rfl h⟩
  le_last := fun _ hs ↦ absurd hs List.not_mem_nil
  last_mem := fun h ↦ (by cases h)
  last_zero := fun _ ↦ rfl
  precision := .inr ⟨rfl, rfl⟩

theorem Follows.stale_iff (h : Follows pricePrecision book e) (d : OrderBookDelta) :
    (d.action ≠ .clear ∧ book.seqSet = true ∧ d.sequence < book.lastSequence) ↔ e.Refuses d := by
  refine and_congr_right fun _ ↦ ?_
  constructor
  · rintro ⟨hset, hlt⟩
    exact ⟨_, h.last_mem hset, hlt⟩
  · rintro ⟨s, hs, hlt⟩
    exact ⟨h.seqSet.mpr (List.ne_nil_of_mem hs), hlt.trans_le (h.le_last s hs)⟩

theorem Follows.apply_of_refuses (h : Follows pricePrecision book e) (hrefuses : e.Refuses d) :
    book.apply d = (book, false) := by
  rw [apply, if_pos ((h.stale_iff d).mpr hrefuses)]

theorem Follows.accepts (h : Follows pricePrecision book e) (hnot : ¬e.Refuses d) :
    (book.apply d).2 = true := by
  rw [apply, if_neg (mt (h.stale_iff d).mp hnot)]

theorem Follows.fresh (h : Follows pricePrecision book e) (hclear : d.action ≠ .clear)
    (hnot : ¬e.Refuses d) : book.lastSequence ≤ d.sequence := by
  cases hset : book.seqSet with
  | false =>
    rw [h.last_zero hset]
    exact Nat.zero_le _
  | true =>
    by_contra hlt
    exact hnot ⟨hclear, _, h.last_mem hset, not_le.mp hlt⟩

theorem Follows.precision_apply (h : Follows pricePrecision book e) (hnot : ¬e.Refuses d)
    (hmade : Price.fromRaw d.price.raw pricePrecision = .ok d.price) :
    (book.apply d).1.precision = pricePrecision := by
  have hd : d.price.precision = pricePrecision := by
    obtain ⟨-, -, hpx⟩ := Price.fromRaw_eq_ok_iff.mp hmade
    rw [hpx]
  have hprecision : (book.apply d).1.precision
      = if book.precision = 0 then d.price.precision else book.precision := by
    rw [apply, if_neg (mt (h.stale_iff d).mp hnot)]
    unfold applyLevels setSide
    cases d.action <;> cases d.side <;> rfl
  rw [hprecision, hd]
  split_ifs with h0
  · rfl
  · exact h.precision.resolve_right fun hzero ↦ h0 hzero.1

/-- **One delta.** The book follows its epoch. -/
theorem Follows.apply (h : Follows pricePrecision book e)
    (hmade : Price.fromRaw d.price.raw pricePrecision = .ok d.price) :
    Follows pricePrecision (book.apply d).1 (e.next d) := by
  by_cases hclear : d.action = .clear
  · have hnot : ¬e.Refuses d := fun hrefuses ↦ hrefuses.1 hclear
    obtain ⟨hlevel, hlast, hset⟩ := apply_of_clear book hclear
    rw [Epoch.next, if_pos hclear]
    refine ⟨hlevel, fun _ hd ↦ absurd hd List.not_mem_nil, fun _ hd ↦ absurd hd List.not_mem_nil,
      iff_of_true hset (List.cons_ne_nil _ _), ?_, fun _ ↦ ?_, fun hfalse ↦ ?_,
      .inl (h.precision_apply hnot hmade)⟩
    · intro s hs
      rw [hlast]
      exact (List.mem_singleton.mp hs).le
    · rw [hlast]
      exact List.mem_singleton_self _
    · rw [hset] at hfalse
      cases hfalse
  · by_cases hrefuses : e.Refuses d
    · rw [h.apply_of_refuses hrefuses, Epoch.next, if_neg hclear, if_pos hrefuses]
      exact h
    · have hfresh := h.fresh hclear hrefuses
      obtain ⟨hlevel, hlast, hset⟩ := level_apply hclear hfresh
      have hsequences : (e.next d).sequences = e.sequences ++ [d.sequence] := by
        rw [Epoch.next, if_neg hclear, if_neg hrefuses]
        simp [Epoch.sequences]
      rw [Epoch.next, if_neg hclear, if_neg hrefuses] at hsequences ⊢
      refine ⟨?_, ?_, ?_, iff_of_true hset (by simp [hsequences]), ?_, fun _ ↦ ?_, fun hfalse ↦ ?_,
        .inl (h.precision_apply hrefuses hmade)⟩
      · rw [hlevel, h.level, written, written, List.filterMap_append, patched_append]
        rfl
      · intro b hb
        rcases List.mem_append.mp hb with hb | hb
        · exact h.action b hb
        · rwa [List.mem_singleton.mp hb]
      · intro b hb
        rcases List.mem_append.mp hb with hb | hb
        · exact h.made b hb
        · rwa [List.mem_singleton.mp hb]
      · intro s hs
        rw [hlast]
        rw [hsequences, List.mem_append, List.mem_singleton] at hs
        rcases hs with hs | rfl
        · exact (h.le_last s hs).trans hfresh
        · exact le_rfl
      · rw [hlast, hsequences]
        exact List.mem_append_right _ (List.mem_singleton_self _)
      · rw [hset] at hfalse
        cases hfalse

theorem Follows.applyAll {deltas : List OrderBookDelta} (h : Follows pricePrecision book e)
    (hmade : ∀ d ∈ deltas, Price.fromRaw d.price.raw pricePrecision = .ok d.price) :
    Follows pricePrecision (book.applyAll deltas) (deltas.foldl Epoch.next e) := by
  induction deltas generalizing book e with
  | nil => exact h
  | cons d deltas ih =>
    refine ih (h.apply (hmade d List.mem_cons_self)) ?_
    exact fun b hb ↦ hmade b (List.mem_cons_of_mem d hb)

/-- The levels of a book that follows its epoch: the last writer wins. -/
theorem Follows.level_iff (h : Follows pricePrecision book e) (side : OrderSide) (px : ℤ)
    (q : Quantity) : book.level (side, px) = some q ↔
      ∃ front d back, e.deltas = front ++ d :: back ∧ (d.action = .add ∨ d.action = .update) ∧
        d.side = side ∧ d.price.raw = px ∧ d.size = q ∧ q.raw ≠ 0 ∧
        ∀ b ∈ back, ¬(b.side = side ∧ b.price.raw = px) := by
  rw [h.level, written, patched_filterMap_eq_some_iff]
  refine exists_congr fun front ↦ exists_congr fun d ↦ exists_congr fun back ↦ ?_
  refine and_congr_right fun hsplit ↦ ?_
  have hclear : d.action ≠ .clear := h.action d (by simp [hsplit])
  have hwrites : some d.entry = some ((side, px), some q) ↔
      (d.action = .add ∨ d.action = .update) ∧ d.side = side ∧ d.price.raw = px ∧ d.size = q ∧
        q.raw ≠ 0 := by
    have haction : (d.action = .add ∨ d.action = .update) ↔ d.action ≠ .delete := by
      cases haction : d.action with
      | clear => exact absurd haction hclear
      | add | update | delete => simp
    rw [haction, OrderBookDelta.entry, Option.some.injEq, Prod.mk.injEq, Prod.mk.injEq, and_assoc]
    by_cases hnone : d.action = .delete ∨ d.size.raw = 0
    · rw [if_pos hnone]
      refine iff_of_false (fun heq ↦ nomatch heq.2.2) ?_
      rintro ⟨hdelete, -, -, rfl, hsize⟩
      exact hnone.elim hdelete hsize
    · rw [if_neg hnone, Option.some.injEq]
      obtain ⟨hdelete, hsize⟩ := not_or.mp hnone
      refine ⟨fun ⟨hside, hpx, hq⟩ ↦ ⟨hdelete, hside, hpx, hq, hq ▸ hsize⟩, ?_⟩
      exact fun ⟨_, hside, hpx, hq, _⟩ ↦ ⟨hside, hpx, hq⟩
  rw [hwrites]
  simp only [Option.mem_some_iff, forall_eq', OrderBookDelta.entry, ne_eq, Prod.mk.injEq,
    and_assoc]

theorem Follows.price_of_level (h : Follows pricePrecision book e) {side : OrderSide} {raw : ℤ}
    {q : Quantity} (hlevel : book.level (side, raw) = some q) :
    book.price raw = ⟨raw, pricePrecision⟩ := by
  obtain ⟨front, d, back, hsplit, -, -, rfl, -⟩ := (h.level_iff side raw q).mp hlevel
  have hmade := h.made d (by simp [hsplit])
  have hprecision : book.precision = pricePrecision :=
    h.precision.resolve_right fun hzero ↦ by simp [hzero.2] at hsplit
  rw [price, hprecision, hmade]
  obtain ⟨-, -, hpx⟩ := Price.fromRaw_eq_ok_iff.mp hmade
  exact hpx

/-- The best level of a side is the extreme one of those stored. -/
theorem Follows.best_iff (h : Follows pricePrecision book e) (side : OrderSide)
    {pick : List ℤ → Option ℤ} {le : ℤ → ℤ → Prop}
    (hpick : ∀ l x, pick l = some x ↔ x ∈ l ∧ ∀ y ∈ l, le y x) (px : Price) (q : Quantity) :
    book.best side pick = some (px, q) ↔ px.precision = pricePrecision ∧
      book.level (side, px.raw) = some q ∧
      ∀ px' q', book.level (side, px') = some q' → le px' px.raw := by
  rw [best_eq_some_iff book side hpick]
  constructor
  · rintro ⟨raw, hlevel, hpx, hextreme⟩
    rw [h.price_of_level hlevel] at hpx
    rw [← hpx]
    exact ⟨rfl, hlevel, hextreme⟩
  · rintro ⟨hprecision, hlevel, hextreme⟩
    refine ⟨px.raw, hlevel, ?_, hextreme⟩
    rw [h.price_of_level hlevel, ← hprecision]

theorem Follows.lastWriterWins (h : Follows pricePrecision book e) :
    LastWriterWins pricePrecision book e where
  level_iff := h.level_iff
  size_ne_zero side px q hlevel := by
    obtain ⟨-, -, -, -, -, -, -, -, hsize, -⟩ := (h.level_iff side px q).mp hlevel
    exact hsize
  refused_iff d := by
    by_cases hrefuses : e.Refuses d
    · exact iff_of_true (congrArg Prod.snd (h.apply_of_refuses hrefuses)) hrefuses
    · exact iff_of_false (by simp [h.accepts hrefuses]) hrefuses
  refused d hfalse := by
    by_cases hrefuses : e.Refuses d
    · rw [h.apply_of_refuses hrefuses]
    · rw [h.accepts hrefuses] at hfalse
      cases hfalse
  bestBid_iff := h.best_iff .buy fun _ _ ↦ List.max?_eq_some_iff
  bestAsk_iff := h.best_iff .sell fun _ _ ↦ List.min?_eq_some_iff

/-- **The book is a last-writer-wins fold.** After any deltas, with prices that are made at one
precision, the book holds what its epoch has written. -/
theorem lastWriterWins_applyAll (instrumentId : InstrumentId) {pricePrecision : ℕ}
    {deltas : List OrderBookDelta}
    (hmade : ∀ d ∈ deltas, Price.fromRaw d.price.raw pricePrecision = .ok d.price) :
    LastWriterWins pricePrecision ((OrderBook.new instrumentId).applyAll deltas)
      (Epoch.of deltas) :=
  ((follows_new instrumentId pricePrecision).applyAll hmade).lastWriterWins

section Instances

/-- A delta of one instrument, with its price and size in raw units. -/
def bookDelta (action : BookAction) (side : OrderSide) (px : ℤ) (size sequence : ℕ) :
    OrderBookDelta where
  instrumentId := ⟨⟨"BTCUSDT"⟩, ⟨"BINANCE"⟩⟩
  action := action
  side := side
  price := ⟨px, 2⟩
  size := ⟨size, 3⟩
  sequence := sequence
  tsEvent := sequence
  tsInit := sequence

/-- Two bids, one stale update, a snapshot at a lower sequence and an ask. -/
def bookDeltas : List OrderBookDelta :=
  [bookDelta .add .buy 10000 5 50, bookDelta .update .buy 9900 7 51,
    bookDelta .update .buy 10000 9 49, bookDelta .clear .buy 0 0 40,
    bookDelta .add .sell 10010 7 41]

theorem lastWriterWins_bookDeltas :
    LastWriterWins 2 ((OrderBook.new ⟨⟨"BTCUSDT"⟩, ⟨"BINANCE"⟩⟩).applyAll bookDeltas)
      (Epoch.of bookDeltas) :=
  lastWriterWins_applyAll _ (by decide)

end Instances

end OrderBook

end Coinext
