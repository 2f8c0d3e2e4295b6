import Coinext.Analytics.Trades
import Coinext.Engine.Ledger
import Coinext.Kernel.FillConservation
import Coinext.Kernel.PyPortfolio

/-!
# The fill log of a run

The result of a run logs every fill the strategy is told of, in the order in which it is told: a
report that is folded, and a synthetic fill that settles or liquidates a position. So the log is the
image of the fills under `logRow` (`Reached.logs`).

A row keeps the symbol of its instrument and not the venue. The analytics, which has only the rows,
matches the fills of a symbol against each other; that is matching per instrument as long as no two
of the instruments that were filled share a symbol (`tradesPerInstrument`). Two instruments that do
share one have fills that are matched across them (`forall_tradesPerInstrument_iff`).
-/

namespace Coinext

/-- The fill a callback tells of. -/
def Callback.fill? : Callback → Option Fill
  | .orderFilled f => some f
  | _ => none

/-- The fills a strategy was told of. -/
def toldFills (journal : List Callback) : List Fill := journal.filterMap Callback.fill?

/-- The row that logs a fill. -/
def logRow (f : Fill) : Analytics.LogRow :=
  (f.tsEvent, f.instrumentId.symbol, f.side.sign, f.lastQty.asDecimal, f.lastPx.asDecimal)

theorem toldFills_concat (journal : List Callback) (cb : Callback) :
    toldFills (journal ++ [cb]) = toldFills journal ++ cb.fill?.toList := by
  rw [toldFills, List.filterMap_append]
  cases cb <;> rfl

/-! ## The events of an operation -/

section Events

variable [DecimalWidth] (model : BrokerageModel) {c : Core} {ev : OrderEvent}

theorem fill?_of_mem_submit {risk : RiskEngine} {portfolio : Portfolio} {order : Order}
    {now : UnixNanos} (h : ev ∈ (c.exec model (.submit risk portfolio order now)).1) :
    ev.fill? = none := by
  change ev ∈ (ExecutionEngine.submit risk portfolio model c.clock.now order now c.oms).1 at h
  rcases ExecutionEngine.submit_cases risk portfolio model c.clock.now order now c.oms with
    heq | ⟨ev', s', heq, -, -, -, -, hev⟩
  · rw [heq] at h
    cases h
  · rw [heq, List.mem_singleton] at h
    subst h
    rcases hev with ⟨reason, rfl, -⟩ | ⟨rfl, -⟩ <;> rfl

theorem fill?_of_mem_cancel {id : ClientOrderId} {now : UnixNanos}
    (h : ev ∈ (c.exec model (.cancel id now)).1) : ev.fill? = none := by
  change ev ∈ (ExecutionEngine.applyToOrder id (.pendingCancel now) c.oms).1 at h
  rcases ExecutionEngine.applyToOrder_cases id (.pendingCancel now) c.oms with
    ⟨-, heq⟩ | ⟨o, o', -, -, heq⟩ | ⟨o, -, -, heq⟩
  · rw [heq] at h
    cases h
  · rw [heq, List.mem_singleton] at h
    rw [h]
    rfl
  · rw [heq] at h
    cases h

/-- A synthetic fill is made at the time at which it is logged. -/
theorem tsEvent_of_mem_closeAt {iid : InstrumentId} {px : Price} {now : UnixNanos}
    {tagSuffix : String} (h : ev ∈ (c.exec model (.closeAt iid px now tagSuffix)).1) :
    ∃ f, ev = .filled f ∧ f.tsEvent = now := by
  simp only [Core.exec] at h
  split at h
  · cases h
  · rename_i inst pos fill hclosing
    refine ⟨fill, List.mem_singleton.mp h, ?_⟩
    simp only [Oms.closing, Option.bind_eq_bind, Option.bind_eq_some_iff] at hclosing
    obtain ⟨inst', -, pos', -, fill', hfill, heq⟩ := hclosing
    cases heq
    simp only [closingFill, Option.map_eq_some_iff] at hfill
    obtain ⟨side, -, rfl⟩ := hfill
    rfl

end Events

namespace BacktestKernel

variable {σ : Type} [DecimalWidth] {setup : Setup σ} {k k' : BacktestKernel σ}

/-! ## Every callback is logged when it tells of a fill -/

/-- The log has a row for each fill the strategy was told of, in the order in which it was told. -/
def Logs (k : BacktestKernel σ) : Prop :=
  k.result.fillsLog = (toldFills k.journal).map logRow

omit [DecimalWidth] in
theorem Logs.frame (h : Logs k) (hjournal : k'.journal = k.journal)
    (hlog : k'.result.fillsLog = k.result.fillsLog) : Logs k' := by
  rw [Logs, hjournal, hlog]
  exact h

theorem journal_runProgram {α : Type} (p : Program α) (k : BacktestKernel σ) :
    (runProgram setup p k).2.journal = k.journal := by
  induction p generalizing k with
  | done a => rfl
  | nowNs cont ih | setTimer name ts cont ih | position id cont ih | quote id cont ih
  | mark id cont ih | orderBook id cont ih | instrument id cont ih | order spec cont ih
  | seq cont ih => exact ih _ _
  | cancelTimer id next ih | restoreSeq seq next ih | emit cmd next ih => exact ih _

theorem result_runProgram {α : Type} (p : Program α) (k : BacktestKernel σ) :
    (runProgram setup p k).2.result = k.result := by
  induction p generalizing k with
  | done a => rfl
  | nowNs cont ih | setTimer name ts cont ih | position id cont ih | quote id cont ih
  | mark id cont ih | orderBook id cont ih | instrument id cont ih | order spec cont ih
  | seq cont ih => exact ih _ _
  | cancelTimer id next ih | restoreSeq seq next ih | emit cmd next ih => exact ih _

theorem journal_call (cb : Callback) (k : BacktestKernel σ) :
    (call setup cb k).journal = k.journal ++ [cb] :=
  journal_runProgram _ _

theorem result_call (cb : Callback) (k : BacktestKernel σ) :
    (call setup cb k).result = k.result :=
  result_runProgram _ _

theorem Logs.call (h : Logs k) {cb : Callback} (hcb : cb.fill? = none) :
    Logs (call setup cb k) := by
  rw [Logs, journal_call, result_call, toldFills_concat, hcb, Option.toList_none, List.append_nil]
  exact h

theorem notifyEvent_spec (setup : Setup σ) (ev : OrderEvent) (k : BacktestKernel σ) :
    (notifyEvent setup ev k).result = k.result ∧
      toldFills (notifyEvent setup ev k).journal = toldFills k.journal ++ ev.fill?.toList := by
  unfold notifyEvent
  split
  · rename_i f hfill
    rw [result_call, result_call, journal_call, journal_call, toldFills_concat, toldFills_concat,
      hfill]
    exact ⟨rfl, List.append_nil _⟩
  · rename_i hfill
    rw [result_call, journal_call, toldFills_concat, hfill]
    exact ⟨rfl, rfl⟩

theorem Logs.notifyEvent (h : Logs k) {ev : OrderEvent} (hev : ev.fill? = none) :
    Logs (notifyEvent setup ev k) := by
  obtain ⟨hresult, htold⟩ := notifyEvent_spec setup ev k
  rw [Logs, hresult, htold, hev, Option.toList_none, List.append_nil]
  exact h

/-- A fill is logged, then told of. -/
theorem Logs.logged (h : Logs k) {ev : OrderEvent} (ts : Fill → UnixNanos)
    (hts : ∀ f, ev.fill? = some f → f.tsEvent = ts f) :
    Logs (BacktestKernel.notifyEvent setup ev (match ev.fill? with
      | some f => logFill (ts f) f k
      | none => k)) := by
  cases hfill : ev.fill? with
  | none => exact h.notifyEvent hfill
  | some f =>
    obtain ⟨hresult, htold⟩ := notifyEvent_spec setup ev (logFill (ts f) f k)
    rw [Logs, hresult, htold, hfill, Option.toList_some, List.map_append, ← hts f hfill]
    change k.result.fillsLog ++ [_] = (toldFills k.journal).map logRow ++ [logRow f]
    rw [h]
    rfl

/-! ## Every part of an iteration keeps the log -/

theorem Logs.performThen (h : Logs k) {op : CoreOp}
    {handle : OrderEvent → BacktestKernel σ → BacktestKernel σ}
    (hhandle : ∀ k', Logs k' → ∀ ev ∈ (perform setup op k).1, Logs (handle ev k')) :
    Logs (performThen setup op handle k) :=
  List.foldlRecOn _ _ (h.frame rfl rfl) hhandle

omit [DecimalWidth] in
theorem Logs.foldl {α : Type} {f : BacktestKernel σ → α → BacktestKernel σ} (h : Logs k)
    (hf : ∀ k a, Logs k → Logs (f k a)) (l : List α) : Logs (l.foldl f k) :=
  foldl_induction hf h l

theorem Logs.cancel (h : Logs k) (id : ClientOrderId) (now : UnixNanos) :
    Logs (BacktestKernel.performThen setup (.cancel id now) (BacktestKernel.notifyEvent setup) k) :=
  h.performThen fun _ hk' _ hev ↦
    hk'.notifyEvent (fill?_of_mem_cancel setup.config.brokerage hev)

theorem Logs.route (h : Logs k) (now : UnixNanos) (cmd : StrategyCommand) :
    Logs (route setup now k cmd) := by
  cases cmd with
  | submit order =>
    have hcounted : Logs { k with
        result := { k.result with ordersSubmitted := k.result.ordersSubmitted + 1 } } :=
      h.frame rfl rfl
    refine hcounted.performThen fun k' hk' ev hev ↦ ?_
    have hdenied : Logs { k' with result := { k'.result with
        ordersDenied := k'.result.ordersDenied + if isDenied ev then 1 else 0 } } :=
      hk'.frame rfl rfl
    exact hdenied.notifyEvent (fill?_of_mem_submit _ hev)
  | cancel id => exact h.cancel id now
  | modify id quantity price => exact h

theorem Logs.processOutbox (h : Logs k) : Logs (processOutbox setup k) := by
  have hemptied : Logs { k with outbox := [] } := h.frame rfl rfl
  exact hemptied.foldl (fun _ cmd hk ↦ hk.route _ cmd) _

theorem Logs.drainReports (h : Logs k) (frontier : UnixNanos) :
    Logs (drainReports setup frontier k) := by
  have hdrained : Logs (perform setup (.drain frontier) k).2 := h.frame rfl rfl
  refine Logs.processOutbox (hdrained.foldl (fun k _ hk ↦ ?_) _)
  exact hk.performThen fun k' hk' ev _ ↦ hk'.logged Fill.tsEvent fun _ _ ↦ rfl

theorem Logs.fireTimers (h : Logs k) (frontier : UnixNanos) :
    Logs (fireTimers setup frontier k) := by
  have hpopped : Logs (perform setup (.popDue frontier) k).2 := h.frame rfl rfl
  refine hpopped.foldl (fun k t hk ↦ ?_) _
  have hcalled : Logs (BacktestKernel.call setup (.timer t) k) := hk.call rfl
  exact hcalled.processOutbox

theorem Logs.dispatchMarket (h : Logs k) (ev : MarketEvent) :
    Logs (dispatchMarket setup ev k) := by
  unfold BacktestKernel.dispatchMarket
  split
  · exact h.call rfl
  · exact h.call rfl
  · exact h.call rfl
  · split
    · exact h.call rfl
    · exact h

theorem Logs.marketEvent (h : Logs k) (frontier : UnixNanos) (ev : MarketEvent) :
    Logs (marketEvent setup frontier ev k) := by
  have hmatched : Logs (perform setup (.onMarket ev) (perform setup (.process ev) k).2).2 :=
    h.frame rfl rfl
  have htold : Logs (BacktestKernel.dispatchMarket setup ev _) := hmatched.dispatchMarket ev
  have hrouted : Logs (BacktestKernel.processOutbox setup _) := htold.processOutbox
  change Logs (sampleEquity setup frontier ev _)
  unfold sampleEquity
  split
  · exact hrouted.frame rfl rfl
  · exact hrouted

theorem Logs.closePositionAt (h : Logs k) (iid : InstrumentId) (px : Price) (now : UnixNanos)
    (tagSuffix : String) : Logs (closePositionAt setup iid px now tagSuffix k) := by
  refine h.performThen fun k' hk' ev hev ↦ ?_
  obtain ⟨f, rfl, hts⟩ := tsEvent_of_mem_closeAt _ hev
  have hlogged : Logs (BacktestKernel.notifyEvent setup (.filled f) (logFill now f k')) :=
    hk'.logged (fun _ ↦ now) fun f' hf' ↦ by rw [← Option.some.inj hf', hts]
  exact hlogged.processOutbox

theorem Logs.settleContract (h : Logs k) (now : UnixNanos) (iid : InstrumentId) :
    Logs (settleContract setup now k iid) := by
  unfold BacktestKernel.settleContract
  split
  · exact h
  · refine Logs.foldl ?_ (fun k id hk ↦ ?_) _
    · split
      · exact h.closePositionAt _ _ _ _
      · exact h
    · exact hk.cancel id now

theorem Logs.settleExpiries (h : Logs k) (frontier : UnixNanos) :
    Logs (settleExpiries setup frontier k) := by
  have hdropped : Logs { k with expiries := k.expiries.dropWhile fun e ↦ e.1 ≤ frontier } :=
    h.frame rfl rfl
  exact hdropped.foldl (fun _ e hk ↦ hk.settleContract frontier e.2) _

theorem Logs.checkLiquidation (h : Logs k) (now : UnixNanos) :
    Logs (checkLiquidation setup now k) := by
  unfold BacktestKernel.checkLiquidation
  split
  · exact h
  · simp only
    split_ifs
    · exact h
    · refine h.foldl (fun k iid hk ↦ ?_) _
      split
      · exact hk.closePositionAt _ _ _ _
      · exact hk

theorem Logs.takeMarket (h : Logs k) (frontier : UnixNanos) (feed : List MarketEvent) :
    Logs (takeMarket setup frontier feed k).2 := by
  cases feed with
  | nil => exact h
  | cons ev rest =>
    simp only [BacktestKernel.takeMarket]
    split_ifs
    · exact h.marketEvent frontier ev
    · exact h

theorem Logs.iterate (h : Logs k) (frontier : UnixNanos) (feed : List MarketEvent) :
    Logs (iterate setup frontier feed k).2 := by
  have hadvanced : Logs (perform setup (.advance frontier) k).2 := h.frame rfl rfl
  have hdrained : Logs (BacktestKernel.drainReports setup frontier _) :=
    hadvanced.drainReports frontier
  have hfired : Logs (BacktestKernel.fireTimers setup frontier _) := hdrained.fireTimers frontier
  have htaken : Logs (BacktestKernel.takeMarket setup frontier feed _).2 :=
    hfired.takeMarket frontier feed
  exact (htaken.settleExpiries frontier).checkLiquidation frontier

theorem Logs.finish (h : Logs k) : Logs (finish setup k) := by
  have hstopped : Logs (BacktestKernel.processOutbox setup (BacktestKernel.call setup .stop k)) :=
    (h.call rfl).processOutbox
  exact hstopped.frame rfl rfl

/-! ## Whole runs -/

variable {events feed : List MarketEvent}

theorem Looped.logs (h : Looped setup events feed k) : Logs k := by
  induction h with
  | start => exact Logs.processOutbox (Logs.call (k := build setup) rfl rfl)
  | iterate _ _ ih => exact ih.iterate _ _

/-- **The fill log of a run** is the image of the fills the strategy was told of. -/
theorem Reached.logs (h : Reached setup events k) : Logs k := by
  cases h with
  | start =>
    have hlooped : Looped setup events (sortedEvents events) (BacktestKernel.start setup) := .start
    exact hlooped.logs
  | iterate hmem =>
    obtain ⟨feed, hlooped⟩ := Looped.start.exists_of_mem_trace _ hmem
    exact hlooped.logs
  | finish hrun =>
    obtain ⟨feed, k₀, hlooped, -, rfl⟩ := Looped.start.exists_of_run hrun
    exact hlooped.logs.finish

end BacktestKernel

/-! ## Matching per instrument -/

section PerInstrument

variable (feeRate : Decimal)

/-- A fill without what the log does not keep. -/
def analyticsFill (f : Fill) : Analytics.Fill :=
  ⟨f.tsEvent, f.side.sign, f.lastQty.asDecimal, f.lastPx.asDecimal⟩

/-- The round trips of one instrument: its fills alone, first in, first out. -/
def instrumentTrades (fills : List Fill) (iid : InstrumentId) : List Analytics.Trade :=
  Analytics.reconstructTrades feeRate
    ((fills.filter fun f ↦ f.instrumentId = iid).map analyticsFill)

/-- The closed trades of a log are those of the instruments that were filled, taken one by one. -/
def TradesPerInstrument (fillsLog : List Analytics.LogRow) (fills : List Fill) : Prop :=
  (Analytics.closedTrades feeRate fillsLog).Perm
    ((fills.map Fill.instrumentId).dedup.flatMap (instrumentTrades feeRate fills))

variable {feeRate}

/-- The trades of a log, symbol by symbol. -/
theorem closedTrades_perm (fills : List Fill) :
    (Analytics.closedTrades feeRate (fills.map logRow)).Perm
      ((fills.map fun f ↦ f.instrumentId.symbol).dedup.flatMap fun s ↦
        Analytics.reconstructTrades feeRate
          ((fills.filter fun f ↦ f.instrumentId.symbol = s).map analyticsFill)) := by
  refine (flatMap_groups_perm _ _).trans (.of_eq ?_)
  rw [List.map_map]
  refine List.flatMap_congr fun s _ ↦ congrArg _ ?_
  rw [List.filter_map, List.map_map]
  rfl

theorem tradesPerInstrument_of_injOn {fills : List Fill}
    (hsymbol : Set.InjOn InstrumentId.symbol {iid | iid ∈ fills.map Fill.instrumentId}) :
    TradesPerInstrument feeRate (fills.map logRow) fills :=
  (closedTrades_perm fills).trans
    (flatMap_filter_perm (fun fs ↦ Analytics.reconstructTrades feeRate (fs.map analyticsFill))
      hsymbol)

/-- **Per instrument.** In a run in which no two instruments that are filled share a symbol, the
closed trades of the result are those of the instruments, one by one. -/
theorem tradesPerInstrument {σ : Type} [DecimalWidth] (setup : Setup σ) (events : List MarketEvent)
    (k : BacktestKernel σ) (h : BacktestKernel.Reached setup events k)
    (hsymbol : Set.InjOn InstrumentId.symbol
      {iid | iid ∈ (toldFills k.journal).map Fill.instrumentId}) (feeRate : Decimal) :
    TradesPerInstrument feeRate k.result.fillsLog (toldFills k.journal) := by
  rw [h.logs]
  exact tradesPerInstrument_of_injOn hsymbol

/-- A fill of one unit, at a price of `raw`. -/
def unitFill (iid : InstrumentId) (side : OrderSide) (raw : ℤ) : Fill where
  tradeId := ⟨""⟩
  clientOrderId := ⟨""⟩
  venueOrderId := ⟨""⟩
  instrumentId := iid
  side := side
  lastPx := ⟨raw, 0⟩
  lastQty := ⟨1, 0⟩
  fee := ⟨0, ⟨"", 0, by decide⟩⟩
  liquidity := .taker
  tsEvent := 0
  tsInit := 0

/-- A unit is bought on one instrument and sold on the other. -/
def crossed (a b : InstrumentId) : List Fill := [unitFill a .buy 1, unitFill b .sell 2]

theorem instrumentTrades_crossed {a b : InstrumentId} (hne : a ≠ b) (iid : InstrumentId) :
    instrumentTrades feeRate (crossed a b) iid = [] := by
  by_cases ha : a = iid
  · have hb : ¬ b = iid := fun h ↦ hne (ha.trans h.symm)
    simp [crossed, unitFill, instrumentTrades, ha, hb, analyticsFill, Analytics.reconstructTrades,
      Analytics.coalescePartialFills, Analytics.matchFill, Analytics.closeLots]
  · by_cases hb : b = iid <;>
      simp [crossed, unitFill, instrumentTrades, ha, hb, analyticsFill, Analytics.reconstructTrades,
        Analytics.coalescePartialFills, Analytics.matchFill, Analytics.closeLots]

theorem closedTrades_crossed (feeRate : Decimal) {a b : InstrumentId}
    (hab : a.symbol = b.symbol) :
    (Analytics.closedTrades feeRate ((crossed a b).map logRow)).length = 1 := by
  have hbought : Analytics.qtyEps < 1 := by norm_num [Analytics.qtyEps]
  have hclosed : 0 ≤ Analytics.qtyEps := by norm_num [Analytics.qtyEps]
  simp [crossed, unitFill, logRow, hab, Analytics.closedTrades, groups, pushGroup, OrderSide.sign,
    Analytics.reconstructTrades, Analytics.coalescePartialFills, Analytics.matchFill,
    Analytics.closeLots, Price.asDecimal, Quantity.asDecimal, ulp, hbought, hclosed]

/-- **Where the venue is missed.** The instruments of a set are told apart, whatever their fills
are, exactly when no two of them share a symbol. -/
theorem forall_tradesPerInstrument_iff (S : Set InstrumentId) :
    (∀ fills : List Fill, (∀ f ∈ fills, f.instrumentId ∈ S) →
      TradesPerInstrument feeRate (fills.map logRow) fills) ↔
    Set.InjOn InstrumentId.symbol S := by
  constructor
  · intro h a ha b hb hab
    by_contra hne
    have hmem : ∀ f ∈ crossed a b, f.instrumentId ∈ S := by
      simp [crossed, unitFill, ha, hb]
    have hperm := h (crossed a b) hmem
    have hnone : ((crossed a b).map Fill.instrumentId).dedup.flatMap
        (instrumentTrades feeRate (crossed a b)) = [] :=
      List.flatMap_eq_nil_iff.mpr fun iid _ ↦ instrumentTrades_crossed hne iid
    rw [TradesPerInstrument, hnone, List.perm_nil] at hperm
    have hlength := closedTrades_crossed feeRate hab
    rw [hperm] at hlength
    cases hlength
  · intro h fills hfills
    refine tradesPerInstrument_of_injOn (h.mono ?_)
    rintro iid hiid
    obtain ⟨f, hf, rfl⟩ := List.mem_map.mp hiid
    exact hfills f hf

end PerInstrument

/-! ## Instances -/

section Instances

open scoped RustDecimal

/-- The run of `endOf 40` fills one instrument. -/
theorem tradesPerInstrument_forty :
    TradesPerInstrument (1 / 1000) (endOf 40).result.fillsLog (toldFills (endOf 40).journal) :=
  tradesPerInstrument (buyUntil 40) [barAt 1, barAt 20] (endOf 40)
    (reached_endOf (by decide +kernel))
    (by
      have hone : (toldFills (endOf 40).journal).map Fill.instrumentId
          = [(Position.perp false).id] := by decide +kernel
      rw [hone]
      intro a ha b hb _
      rw [List.mem_singleton.mp ha, List.mem_singleton.mp hb]) _

/-- The strategy buys on one venue and sells on the other. -/
def acrossVenues : Setup Unit where
  config := ⟨[perpAt "A", perpAt "B"], ⟨"USDT", 2, two_le_maxPrecision⟩,
    ⟨100000, ⟨"USDT", 2, two_le_maxPrecision⟩⟩,
    .unlimited, ({ latencyNs := 10 } : DefaultBrokerageModel).brokerage, 0⟩
  strategyId := ⟨"S"⟩
  strategy := ⟨fun _ cb ↦ match cb with
    | .start => .submitMarket (perpAt "A").id .buy ⟨1, 0⟩ fun _ ↦
        .submitMarket (perpAt "B").id .sell ⟨1, 0⟩ fun _ ↦ .done ()
    | _ => .done ()⟩
  initial := ()
  killed := false
  hash := .lastInserted

/-- A bar of the perpetual at a venue. -/
def barOn (venue : String) (ts : UnixNanos) : MarketEvent :=
  .bar { barType := ⟨(perpAt venue).id, ⟨1, .minute, .last⟩, .external⟩, open_ := ⟨100, 1⟩,
         high := ⟨100, 1⟩, low := ⟨100, 1⟩, close := ⟨100, 1⟩, volume := ⟨100, 0⟩, tsEvent := ts,
         tsInit := ts }

def endAcross? : Option (BacktestKernel Unit) :=
  BacktestKernel.run acrossVenues 9 (BacktestKernel.sortedEvents [barOn "A" 20, barOn "B" 30])
    (BacktestKernel.start acrossVenues)

theorem isSome_endAcross? : endAcross?.isSome = true := by decide +kernel

/-- **Positions are merged** when a symbol is traded on two venues: nothing was closed on either,
and the analytics finds a round trip. -/
theorem not_tradesPerInstrument_across :
    ¬ ∀ (setup : Setup Unit) (events : List MarketEvent) (k : BacktestKernel Unit),
      BacktestKernel.Reached setup events k → ∀ feeRate : Decimal,
      TradesPerInstrument feeRate k.result.fillsLog (toldFills k.journal) := by
  intro h
  have hreached : BacktestKernel.Reached acrossVenues [barOn "A" 20, barOn "B" 30]
      (endAcross?.get isSome_endAcross?) := .finish (Option.some_get isSome_endAcross?).symm
  have hlength := (h acrossVenues _ _ hreached 0).length_eq
  exact absurd hlength (by decide +kernel)

end Instances

end Coinext
