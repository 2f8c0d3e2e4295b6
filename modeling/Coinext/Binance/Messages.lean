import Coinext.Binance.Depth
import Coinext.Support.Replica

/-!
# What the venue sends

The venue has a book with an update id that grows with every change. Its depth frames carry the
levels that change at the ids they span, and its snapshots all levels at one id. The adapter reads
both as what they are (`IsDiff.normalizeDepth_eq`, `IsSnapshot.normalizeDepthSnapshot_eq`), and a
consumer that folds the deltas of the right messages in the right order follows the venue
(`Follows`).
-/

namespace Coinext.Binance

/-! ## The venue -/

/-- The level map keeps no level of size zero. -/
def levelOf (size : ℕ) : Option Quantity := if size = 0 then none else some ⟨size, wirePrecision⟩

/-- The book of the venue at each update id. Prices and sizes count units of the wire precision. -/
structure VenueBook where
  size : ℕ → OrderSide × ℤ → ℕ

def VenueBook.level (v : VenueBook) (id : ℕ) (key : OrderSide × ℤ) : Option Quantity :=
  levelOf (v.size id key)

/-- Price and size of a level as the wire writes them. -/
abbrev WireLevel := ℕ × ℕ

def WireLevel.entry (side : OrderSide) (x : WireLevel) : (OrderSide × ℤ) × Option Quantity :=
  ((side, (x.1 : ℤ)), levelOf x.2)

/-- What the levels of a message write into a book. -/
def wireEntries (bids asks : List WireLevel) : List ((OrderSide × ℤ) × Option Quantity) :=
  bids.map (WireLevel.entry .buy) ++ asks.map (WireLevel.entry .sell)

section Messages

variable [DecimalText] [DecimalWidth]

/-- The string is a decimal of `n` units of the wire precision, and small enough for the types. -/
structure IsWireText (s : String) (n : ℕ) : Prop where
  reads : DecimalText.fromStr s = .ok (n * ulp wirePrecision)
  le_max : (n : ℤ) ≤ i64Max
  fits : DecimalWidth.fits n = true

/-- The JSON row of a level. Elements after the second are not read. -/
def WritesLevel (row : Json) (x : WireLevel) : Prop :=
  ∃ p q more, row = .arr (.str p :: .str q :: more) ∧ IsWireText p x.1 ∧ IsWireText q x.2

def WritesLevels (data : Json) (key : String) (levels : List WireLevel) : Prop :=
  ∃ rows, data.getArray key = some rows ∧ List.Forall₂ WritesLevel rows levels

/-- A depth frame of the venue: the levels that change at the ids `first` to `last`, with their
sizes at `last`. -/
structure IsDiff (v : VenueBook) (symbol : String) (update : DepthUpdate) (data : Json)
    (bids asks : List WireLevel) : Prop where
  symbol_eq : data.getStr "s" = some symbol
  first_eq : data.getU64 "U" = some update.firstUpdateId
  last_eq : data.getU64 "u" = some update.lastUpdateId
  prev_eq : data.getU64 "pu" = update.prevUpdateId
  time : ∃ ms, data.getU64 "E" = some ms
  writes_bids : WritesLevels data "b" bids
  writes_asks : WritesLevels data "a" asks
  contiguous : ∃ pu, update.prevUpdateId = some pu ∧ update.firstUpdateId = pu + 1 ∧
    Patch v.level pu update.lastUpdateId (wireEntries bids asks)

/-- A snapshot of the venue: all its levels at `id`. -/
structure IsSnapshot (v : VenueBook) (id : ℕ) (body : Json) (bids asks : List WireLevel) :
    Prop where
  last_eq : body.getU64 "lastUpdateId" = some id
  writes_bids : WritesLevels body "bids" bids
  writes_asks : WritesLevels body "asks" asks
  current : ∀ e ∈ wireEntries bids asks, e.2 = v.level id e.1
  complete : ∀ key, (∀ e ∈ wireEntries bids asks, e.1 ≠ key) → v.level id key = none

/-- The depth data of a message, if it has any. -/
def Incoming.depth? (input : Incoming) : Option Json := do
  let frame ← input.frame
  let stream ← frame.getStr "stream"
  let data ← frame.get "data"
  if containsText stream "@depth" then some data else none

/-- The depth frames come from the venue, and so do the snapshots fetched for them. Frames may be
missing, repeated or out of order, snapshots may be of any id, and requests may fail. -/
def Genuine (venues : String → VenueBook) : WsMessage → Prop
  | .reconnected => True
  | .text input => ∀ data ∈ input.depth?, ∃ symbol update bids asks,
      IsDiff (venues symbol) symbol update data bids asks ∧
        ∀ body, some body ∈ input.responses →
          ∃ id bids asks, IsSnapshot (venues symbol) id body bids asks

end Messages

/-! ## Reading genuine messages -/

section Reading

variable [DecimalText] [DecimalWidth]

theorem parsePrice_of_isWireText {s : String} {n : ℕ} (h : IsWireText s n) :
    parsePrice s = .ok ⟨n, wirePrecision⟩ := by
  rw [parsePrice, Except.bind_eq_ok_iff]
  refine ⟨_, parseDecimal_eq_ok_iff.mpr h.reads, orModelError_eq_ok_iff.mpr ?_⟩
  have hm : mantissa ((n : ℚ) * ulp wirePrecision) wirePrecision = n := mantissa_mul_ulp n _
  refine Price.fromDecimal_eq_ok_iff.mpr ⟨by decide, ?_⟩
  rw [hm]
  exact ⟨h.fits, Int.natCast_nonneg n, h.le_max, rfl⟩

theorem parseQty_of_isWireText {s : String} {n : ℕ} (h : IsWireText s n) :
    parseQty s = .ok ⟨n, wirePrecision⟩ := by
  rw [parseQty, Except.bind_eq_ok_iff]
  refine ⟨_, parseDecimal_eq_ok_iff.mpr h.reads, orModelError_eq_ok_iff.mpr ?_⟩
  have hm : mantissa ((n : ℚ) * ulp wirePrecision) wirePrecision = n := mantissa_mul_ulp n _
  refine Quantity.fromDecimal_eq_ok_iff.mpr ⟨?_, by decide, ?_⟩
  · exact mul_nonneg (Nat.cast_nonneg n) (ulp_pos _).le
  · rw [hm]
    exact ⟨h.fits, h.le_max, rfl⟩

/-- The level a row is read as. -/
def WireLevel.read (x : WireLevel) : Price × Quantity :=
  (⟨x.1, wirePrecision⟩, ⟨x.2, wirePrecision⟩)

theorem readLevel_of_writesLevel {what : String} {row : Json} {x : WireLevel}
    (h : WritesLevel row x) : readLevel what row = .ok x.read := by
  obtain ⟨p, q, more, rfl, hp, hq⟩ := h
  simp only [readLevel, Json.asArray, orError, List.head?_cons, Option.bind_some, Json.asStr,
    List.getElem?_cons_succ, List.getElem?_cons_zero, bind, Except.bind,
    parsePrice_of_isWireText hp, parseQty_of_isWireText hq]
  rfl

theorem readLevels_of_writesLevels {what : String} {data : Json} {key : String}
    {levels : List WireLevel} (h : WritesLevels data key levels) :
    readLevels what data key = .ok (levels.map WireLevel.read) := by
  obtain ⟨rows, hrows, hall⟩ := h
  rw [readLevels, Except.bind_eq_ok_iff]
  refine ⟨rows, orError_eq_ok_iff.mpr hrows, ?_⟩
  clear hrows
  induction hall with
  | nil => rfl
  | cons hrow _ ih =>
    rw [List.mapM_cons, readLevel_of_writesLevel hrow, List.map_cons]
    change (List.mapM (readLevel what) _ >>= _) = _
    rw [ih]
    rfl

omit [DecimalText] [DecimalWidth] in
/-- Deltas that write what the levels say, and what holds of each of them. -/
theorem levelDeltas_spec (make : OrderSide → Price × Quantity → OrderBookDelta)
    {P : OrderBookDelta → Prop} (hentry : ∀ side x, (make side (WireLevel.read x)).entry
      = x.entry side) (hall : ∀ side x, P (make side x)) (bids asks : List WireLevel) :
    ((bids.map WireLevel.read).map (make .buy) ++ (asks.map WireLevel.read).map (make .sell)).map
        OrderBookDelta.entry = wireEntries bids asks ∧
      ∀ d ∈ (bids.map WireLevel.read).map (make .buy) ++ (asks.map WireLevel.read).map (make .sell),
        P d := by
  refine ⟨?_, fun d hd ↦ ?_⟩
  · simp only [wireEntries, List.map_append, List.map_map]
    exact congrArg₂ _ (List.map_congr_left fun x _ ↦ hentry .buy x)
      (List.map_congr_left fun x _ ↦ hentry .sell x)
  · rcases List.mem_append.mp hd with hd | hd
    · obtain ⟨x, -, rfl⟩ := List.mem_map.mp hd
      exact hall _ _
    · obtain ⟨x, -, rfl⟩ := List.mem_map.mp hd
      exact hall _ _

variable {v : VenueBook} {symbol : String} {update : DepthUpdate} {data body : Json} {id : ℕ}
  {bids asks : List WireLevel}

/-- A genuine frame is read as its ids and one delta for each level. -/
theorem IsDiff.normalizeDepth_eq (h : IsDiff v symbol update data bids asks) (tsInit : UnixNanos) :
    ∃ deltas, normalizeDepth data tsInit = .ok (update, deltas) ∧
      deltas.map OrderBookDelta.entry = wireEntries bids asks ∧
      ∀ d ∈ deltas, d.instrumentId = instrumentId symbol ∧ d.action ≠ .clear ∧
        d.sequence = update.lastUpdateId := by
  obtain ⟨ms, htime⟩ := h.time
  set make := diffDelta (instrumentId symbol) update.lastUpdateId (msToNanos ms) tsInit with hmake
  refine ⟨_, ?_, levelDeltas_spec make (fun side x ↦ ?_) (fun side x ↦ ?_) bids asks⟩
  · simp only [normalizeDepth, strField, numField, h.symbol_eq, h.first_eq, h.last_eq, htime,
      orError, readLevels_of_writesLevels h.writes_bids, readLevels_of_writesLevels h.writes_asks,
      h.prev_eq, bind, Except.bind, pure, Except.pure]
    rfl
  · simp only [OrderBookDelta.entry, hmake, diffDelta, WireLevel.read, WireLevel.entry, levelOf,
      Quantity.isZero, beq_iff_eq]
    split_ifs <;> simp_all
  · refine ⟨rfl, ?_, rfl⟩
    change (if x.2.isZero then BookAction.delete else .update) ≠ .clear
    split_ifs <;> decide

/-- A genuine snapshot is read as its id, a `Clear`, and one delta for each level. -/
theorem IsSnapshot.normalizeDepthSnapshot_eq (h : IsSnapshot v id body bids asks)
    (tsEvent tsInit : UnixNanos) :
    ∃ clear deltas, normalizeDepthSnapshot symbol body tsEvent tsInit = .ok (id, clear :: deltas) ∧
      (clear.instrumentId = instrumentId symbol ∧ clear.action = .clear ∧ clear.sequence = id) ∧
      deltas.map OrderBookDelta.entry = wireEntries bids asks ∧
      ∀ d ∈ deltas, d.instrumentId = instrumentId symbol ∧ d.action ≠ .clear ∧ d.sequence = id := by
  set make := snapshotDelta (instrumentId symbol) id tsEvent tsInit with hmake
  refine ⟨clearDelta (instrumentId symbol) id tsEvent tsInit, _, ?_, ⟨rfl, rfl, rfl⟩,
    levelDeltas_spec make (fun side x ↦ ?_) (fun side x ↦ ?_) bids asks⟩
  · simp only [normalizeDepthSnapshot, h.last_eq, orError,
      readLevels_of_writesLevels h.writes_bids, readLevels_of_writesLevels h.writes_asks, bind,
      Except.bind, pure, Except.pure]
    rfl
  · simp [OrderBookDelta.entry, hmake, snapshotDelta, WireLevel.read, WireLevel.entry, levelOf]
  · exact ⟨rfl, fun hclear ↦ (by cases hclear), rfl⟩

end Reading

/-! ## Books that follow the venue -/

/-- The book is the venue's at `last`, and nothing has changed at the venue since the last delta
that was applied. -/
structure Follows (h : ℕ → OrderSide × ℤ → Option Quantity) (book : OrderBook) (last : ℕ) :
    Prop where
  level_eq : book.level = h last
  seqSet : book.seqSet = true
  sequence_le : book.lastSequence ≤ last
  still : ∀ j, book.lastSequence ≤ j → j ≤ last → h j = h last

namespace Follows

variable {h : ℕ → OrderSide × ℤ → Option Quantity} {book : OrderBook} {a c u : ℕ}
  {deltas : List OrderBookDelta}

theorem patch (hf : Follows h book c) (hp : Patch h a u (deltas.map OrderBookDelta.entry))
    (hdeltas : ∀ d ∈ deltas, d.action ≠ .clear ∧ d.sequence = u) (hac : a ≤ c) (hcu : c ≤ u) :
    Follows h (book.applyAll deltas) u := by
  obtain ⟨hlevel, hne⟩ := book.applyAll_of_fresh hdeltas (hf.sequence_le.trans hcu)
  rw [hf.level_eq, hp.apply hac hcu] at hlevel
  by_cases hnil : deltas = []
  · -- nothing is written, so the venue has not changed either
    subst hnil
    have hsame : h c = h u := hp.eq_of_nil hac hcu
    refine ⟨hlevel, hf.seqSet, hf.sequence_le.trans hcu, fun j hj hju ↦ ?_⟩
    by_cases hjc : j ≤ c
    · rw [hf.still j hj hjc, hsame]
    · exact hp.eq_of_nil (hac.trans (not_le.mp hjc).le) hju
  · obtain ⟨hseq, hset⟩ := hne hnil
    refine ⟨hlevel, hset, hseq.le, fun j hj hju ↦ ?_⟩
    rw [hseq] at hj
    rw [le_antisymm hju hj]

/-- The deltas of an old frame do nothing. -/
theorem stale (hf : Follows h book c)
    (hcurrent : ∀ e ∈ deltas.map OrderBookDelta.entry, e.2 = h u e.1)
    (hdeltas : ∀ d ∈ deltas, d.action ≠ .clear ∧ d.sequence = u) (huc : u ≤ c) :
    Follows h (book.applyAll deltas) c := by
  by_cases hold : u < book.lastSequence
  · rw [OrderBook.applyAll_of_stale hdeltas hf.seqSet hold]
    exact hf
  · have hfresh := not_lt.mp hold
    have hsame : h u = h c := hf.still u hfresh huc
    obtain ⟨hlevel, hne⟩ := book.applyAll_of_fresh hdeltas hfresh
    rw [hf.level_eq, patched_eq_self fun e he ↦ (hcurrent e he).trans (congrFun hsame e.1)]
      at hlevel
    by_cases hnil : deltas = []
    · subst hnil
      exact hf
    · obtain ⟨hseq, hset⟩ := hne hnil
      refine ⟨hlevel, hset, hseq.le.trans huc, fun j hj hjc ↦ ?_⟩
      rw [hseq] at hj
      exact hf.still j (hfresh.trans hj) hjc

/-- The deltas of a snapshot put any book at its id. -/
theorem snapshot {clear : OrderBookDelta} (hclear : clear.action = .clear ∧ clear.sequence = c)
    (hcurrent : ∀ e ∈ deltas.map OrderBookDelta.entry, e.2 = h c e.1)
    (hcomplete : ∀ key, (∀ e ∈ deltas.map OrderBookDelta.entry, e.1 ≠ key) → h c key = none)
    (hdeltas : ∀ d ∈ deltas, d.action ≠ .clear ∧ d.sequence = c) (book : OrderBook) :
    Follows h (book.applyAll (clear :: deltas)) c := by
  obtain ⟨hempty, hseq, hset⟩ := book.apply_of_clear hclear.1
  rw [hclear.2] at hseq
  change Follows h ((book.apply clear).1.applyAll deltas) c
  obtain ⟨hlevel, hne⟩ := (book.apply clear).1.applyAll_of_fresh hdeltas hseq.le
  rw [hempty, patched_eq hcurrent fun key hkey ↦ (hcomplete key hkey).symm] at hlevel
  have hlast : ((book.apply clear).1.applyAll deltas).lastSequence = c ∧
      ((book.apply clear).1.applyAll deltas).seqSet = true := by
    by_cases hnil : deltas = []
    · subst hnil
      exact ⟨hseq, hset⟩
    · exact hne hnil
  refine ⟨hlevel, hlast.2, hlast.1.le, fun j hj hjc ↦ ?_⟩
  rw [hlast.1] at hj
  rw [le_antisymm hjc hj]

end Follows

end Coinext.Binance
