import Coinext.Model.Types
import Coinext.Support.Replica

/-!
# Market data and the consumer's order book

The normalized events every adapter emits, and the level book that consumers fold order-book deltas
into. A side of the book maps a raw price to a size.
-/

namespace Coinext

/-! ## Events -/

def saturateI64 (n : ℤ) : ℤ := max i64Min (min n i64Max)

structure QuoteTick where
  instrumentId : InstrumentId
  bid : Price
  ask : Price
  bidSize : Quantity
  askSize : Quantity
  tsEvent : UnixNanos
  tsInit : UnixNanos
deriving DecidableEq

/-- Mid price at bid precision; the bid when the mid is not a price. -/
def QuoteTick.mid (q : QuoteTick) : Price :=
  match Price.fromRaw ((saturateI64 (q.bid.raw + q.ask.raw)).tdiv 2) q.bid.precision with
  | .ok p => p
  | .error _ => q.bid

structure TradeTick where
  instrumentId : InstrumentId
  price : Price
  size : Quantity
  aggressor : OrderSide
  tradeId : TradeId
  tsEvent : UnixNanos
  tsInit : UnixNanos
deriving DecidableEq

inductive BookAction where
  | add | update | delete
  /-- Snapshot boundary: discard every level. -/
  | clear
deriving DecidableEq

structure OrderBookDelta where
  instrumentId : InstrumentId
  action : BookAction
  side : OrderSide
  price : Price
  size : Quantity
  sequence : ℕ
  tsEvent : UnixNanos
  tsInit : UnixNanos
deriving DecidableEq

inductive PriceType where
  | bid | ask | mid | last
deriving DecidableEq

inductive BarAggregation where
  | tick | second | minute | hour | day
deriving DecidableEq

inductive AggregationSource where
  | internal | external
deriving DecidableEq

structure BarSpec where
  step : ℕ
  aggregation : BarAggregation
  priceType : PriceType
deriving DecidableEq

structure BarType where
  instrumentId : InstrumentId
  spec : BarSpec
  source : AggregationSource
deriving DecidableEq

structure Bar where
  barType : BarType
  open_ : Price
  high : Price
  low : Price
  close : Price
  volume : Quantity
  /-- The close time of the bar. -/
  tsEvent : UnixNanos
  tsInit : UnixNanos
deriving DecidableEq

/-- The unified market-data event. -/
inductive MarketEvent where
  | quote (q : QuoteTick)
  | trade (t : TradeTick)
  | delta (d : OrderBookDelta)
  | bar (b : Bar)
deriving DecidableEq

namespace MarketEvent

/-- The venue timestamp, which orders the feed. -/
def tsEvent : MarketEvent → UnixNanos
  | quote q => q.tsEvent
  | trade t => t.tsEvent
  | delta d => d.tsEvent
  | bar b => b.tsEvent

def instrumentId : MarketEvent → InstrumentId
  | quote q => q.instrumentId
  | trade t => t.instrumentId
  | delta d => d.instrumentId
  | bar b => b.barType.instrumentId

end MarketEvent

/-! ## The level book -/

structure OrderBook where
  instrumentId : InstrumentId
  bids : Map ℤ Quantity
  asks : Map ℤ Quantity
  /-- Price precision of the first applied delta. -/
  precision : ℕ
  lastSequence : ℕ
  seqSet : Bool
  tsLast : UnixNanos
deriving DecidableEq

namespace OrderBook

def new (instrumentId : InstrumentId) : OrderBook := ⟨instrumentId, ∅, ∅, 0, 0, false, 0⟩

def side (book : OrderBook) : OrderSide → Map ℤ Quantity
  | .buy => book.bids
  | .sell => book.asks

/-- Replace one side of the book. -/
def setSide (book : OrderBook) (s : OrderSide) (levels : Map ℤ Quantity) : OrderBook :=
  match s with
  | .buy => { book with bids := levels }
  | .sell => { book with asks := levels }

/-- What a delta does to the levels. -/
def applyLevels (book : OrderBook) (delta : OrderBookDelta) : OrderBook :=
  match delta.action with
  | .clear => { book with bids := ∅, asks := ∅ }
  | .add | .update =>
    let levels := book.side delta.side
    book.setSide delta.side
      (if delta.size.raw = 0 then levels.erase delta.price.raw
        else levels.insert delta.price.raw delta.size)
  | .delete => book.setSide delta.side ((book.side delta.side).erase delta.price.raw)

/-- Fold one delta into the book; `false` when it is stale and skipped. -/
def apply (book : OrderBook) (delta : OrderBookDelta) : OrderBook × Bool :=
  if delta.action ≠ .clear ∧ book.seqSet = true ∧ delta.sequence < book.lastSequence then
    (book, false)
  else
    let book' := { book with
      precision := if book.precision = 0 then delta.price.precision else book.precision }
    ({ book'.applyLevels delta with
        lastSequence :=
          if delta.action = .clear then delta.sequence else max book.lastSequence delta.sequence
        seqSet := true
        tsLast := delta.tsEvent }, true)

/-! ## Folding deltas -/

/-- The size at a price of one side. -/
def level (book : OrderBook) (key : OrderSide × ℤ) : Option Quantity :=
  (book.side key.1).lookup key.2

def applyAll (book : OrderBook) (deltas : List OrderBookDelta) : OrderBook :=
  deltas.foldl (fun book delta ↦ (book.apply delta).1) book

end OrderBook

/-- The level a delta writes. -/
def OrderBookDelta.entry (delta : OrderBookDelta) : (OrderSide × ℤ) × Option Quantity :=
  ((delta.side, delta.price.raw),
    if delta.action = .delete ∨ delta.size.raw = 0 then none else some delta.size)

namespace OrderBook

variable {book : OrderBook} {delta : OrderBookDelta}

theorem applyAll_append (book : OrderBook) (l l' : List OrderBookDelta) :
    book.applyAll (l ++ l') = (book.applyAll l).applyAll l' := List.foldl_append

theorem level_setSide (book : OrderBook) (s : OrderSide) (levels : Map ℤ Quantity)
    (key : OrderSide × ℤ) :
    (book.setSide s levels).level key
      = if key.1 = s then levels.lookup key.2 else book.level key := by
  obtain ⟨s', px⟩ := key
  cases s <;> cases s' <;> rfl

/-- A delta other than `Clear` replaces one side by levels that differ at its price only. -/
theorem applyLevels_eq (book : OrderBook) (hclear : delta.action ≠ .clear) :
    ∃ levels, book.applyLevels delta = book.setSide delta.side levels ∧
      ∀ px, levels.lookup px
        = if px = delta.price.raw then delta.entry.2 else (book.side delta.side).lookup px := by
  have herase : ∀ px, ((book.side delta.side).erase delta.price.raw).lookup px
      = if px = delta.price.raw then none else (book.side delta.side).lookup px := fun px ↦ by
    split_ifs with hpx
    · rw [hpx, AList.lookup_erase]
    · exact AList.lookup_erase_ne hpx
  have hinsert : ∀ px, ((book.side delta.side).insert delta.price.raw delta.size).lookup px
      = if px = delta.price.raw then some delta.size else (book.side delta.side).lookup px :=
    fun px ↦ by
      split_ifs with hpx
      · rw [hpx, AList.lookup_insert]
      · exact AList.lookup_insert_ne hpx
  unfold applyLevels OrderBookDelta.entry
  cases haction : delta.action with
  | clear => exact absurd haction hclear
  | delete => exact ⟨_, rfl, by simpa using herase⟩
  | add | update =>
    refine ⟨_, rfl, ?_⟩
    by_cases hzero : delta.size.raw = 0
    · simpa [hzero] using herase
    · simpa [hzero] using hinsert

theorem level_applyLevels (book : OrderBook) (hclear : delta.action ≠ .clear) :
    (book.applyLevels delta).level = Function.update book.level delta.entry.1 delta.entry.2 := by
  obtain ⟨levels, heq, hlookup⟩ := applyLevels_eq book hclear
  funext ⟨s, px⟩
  rw [heq, level_setSide, hlookup, Function.update_apply]
  by_cases hs : s = delta.side
  · by_cases hpx : px = delta.price.raw
    · rw [if_pos hs, if_pos hpx, if_pos (Prod.ext hs hpx)]
    · rw [if_pos hs, if_neg hpx, if_neg fun h ↦ hpx (congrArg Prod.snd h), ← hs]
      rfl
  · rw [if_neg hs, if_neg fun h ↦ hs (congrArg Prod.fst h)]

theorem level_apply (hclear : delta.action ≠ .clear) (hfresh : book.lastSequence ≤ delta.sequence) :
    (book.apply delta).1.level = Function.update book.level delta.entry.1 delta.entry.2 ∧
      (book.apply delta).1.lastSequence = delta.sequence ∧ (book.apply delta).1.seqSet = true := by
  have hnot : ¬ (delta.action ≠ .clear ∧ book.seqSet = true ∧
      delta.sequence < book.lastSequence) := fun h ↦ absurd h.2.2 hfresh.not_gt
  rw [apply, if_neg hnot]
  exact ⟨level_applyLevels _ hclear, by rw [if_neg hclear, max_eq_right hfresh], rfl⟩

theorem apply_of_stale (hclear : delta.action ≠ .clear) (hset : book.seqSet = true)
    (hstale : delta.sequence < book.lastSequence) : (book.apply delta).1 = book := by
  rw [apply, if_pos ⟨hclear, hset, hstale⟩]

/-- Deltas of one sequence number that is not stale write their levels. -/
theorem applyAll_of_fresh (book : OrderBook) {deltas : List OrderBookDelta} {sequence : ℕ}
    (hdeltas : ∀ d ∈ deltas, d.action ≠ .clear ∧ d.sequence = sequence)
    (hfresh : book.lastSequence ≤ sequence) :
    (book.applyAll deltas).level = patched book.level (deltas.map OrderBookDelta.entry) ∧
      (deltas ≠ [] → (book.applyAll deltas).lastSequence = sequence ∧
        (book.applyAll deltas).seqSet = true) := by
  induction deltas generalizing book with
  | nil => exact ⟨rfl, fun h ↦ absurd rfl h⟩
  | cons d l ih =>
    obtain ⟨hclear, hseq⟩ := hdeltas d List.mem_cons_self
    have hfirst : book.lastSequence ≤ d.sequence := by rw [hseq]; exact hfresh
    obtain ⟨hlevel, hlast, hset⟩ := level_apply hclear hfirst
    obtain ⟨hrest, hne⟩ := ih (book.apply d).1
      (fun d' hd' ↦ hdeltas d' (List.mem_cons_of_mem d hd')) (by rw [hlast, hseq])
    refine ⟨?_, fun _ ↦ ?_⟩
    · rw [List.map_cons, patched_cons, ← hlevel]
      exact hrest
    · by_cases hl : l = []
      · subst hl
        exact ⟨hlast.trans hseq, hset⟩
      · exact hne hl

/-- Stale deltas are skipped. -/
theorem applyAll_of_stale {deltas : List OrderBookDelta} {sequence : ℕ}
    (hdeltas : ∀ d ∈ deltas, d.action ≠ .clear ∧ d.sequence = sequence)
    (hset : book.seqSet = true) (hstale : sequence < book.lastSequence) :
    book.applyAll deltas = book := by
  induction deltas with
  | nil => rfl
  | cons d l ih =>
    obtain ⟨hclear, hseq⟩ := hdeltas d List.mem_cons_self
    have hskip := apply_of_stale hclear hset (hseq ▸ hstale)
    change applyAll (book.apply d).1 l = book
    rw [hskip]
    exact ih fun d' hd' ↦ hdeltas d' (List.mem_cons_of_mem d hd')

theorem apply_of_clear (book : OrderBook) (hclear : delta.action = .clear) :
    (book.apply delta).1.level = (fun _ ↦ none) ∧
      (book.apply delta).1.lastSequence = delta.sequence ∧ (book.apply delta).1.seqSet = true := by
  rw [apply, if_neg fun h ↦ h.1 hclear]
  refine ⟨?_, if_pos hclear, rfl⟩
  funext ⟨s, px⟩
  simp only [applyLevels, hclear]
  cases s <;> rfl

end OrderBook

end Coinext
