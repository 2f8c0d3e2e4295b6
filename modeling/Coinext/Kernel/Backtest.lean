import Coinext.Kernel.Context
import Coinext.Kernel.Core

/-!
# The backtest kernel

The deterministic main loop. Each iteration moves to the frontier, the earliest of the next market
event, delayed report, timer and expiry; folds the reports that are due, fires the timers, processes
the market event at the frontier, settles what expires and checks the maintenance margin. Strategy
commands wait in the outbox until the next `processOutbox`.

The loop reads the market events through `feed`, the events that are not processed yet, which is
kept apart from the rest of the state. The state also carries two records that nothing reads: the
operations performed on the core, and the callbacks made to the strategy.

Equity and the fill log hold the decimals of which the source stores binary floats, and the bus,
whose subscribers are not part of the kernel, is left out.
-/

namespace Coinext

/-- Iteration orders of the cache's hash maps: any order of their values, determined by what has
been done to the maps so far. -/
structure HashOrder where
  orders : List CoreOp → Cache → List Order
  positions : List CoreOp → Cache → List Position
  orders_perm : ∀ ops c, (orders ops c).Perm (c.orders.entries.map Sigma.snd)
  positions_perm : ∀ ops c, (positions ops c).Perm (c.positions.entries.map Sigma.snd)

/-- The order of last insertion. -/
def HashOrder.lastInserted : HashOrder where
  orders _ c := c.orders.entries.map Sigma.snd
  positions _ c := c.positions.entries.map Sigma.snd
  orders_perm _ _ := .refl _
  positions_perm _ _ := .refl _

structure BacktestConfig where
  instruments : List Instrument
  settle : Currency
  startingBalance : Money
  risk : RiskLimits
  brokerage : BrokerageModel
  startNs : UnixNanos

/-- What a run is given besides the events. -/
structure Setup (σ : Type) where
  config : BacktestConfig
  strategyId : StrategyId
  strategy : Strategy σ
  initial : σ
  /-- Whether the kill switch is engaged. -/
  killed : Bool
  hash : HashOrder

structure RunResult where
  equityCurve : List (UnixNanos × Decimal)
  fills : ℕ
  fillsLog : List (UnixNanos × Symbol × ℤ × Decimal × Decimal)
  ordersSubmitted : ℕ
  ordersDenied : ℕ
  finalEquity : Decimal
  realizedPnl : Decimal
deriving DecidableEq

/-- The kernel, its unread events excepted. -/
structure BacktestKernel (σ : Type) where
  core : Core
  strategy : σ
  factory : OrderFactory
  outbox : List StrategyCommand
  /-- Dated contracts that are not settled yet, earliest first. -/
  expiries : List (UnixNanos × InstrumentId)
  result : RunResult
  /-- The operations performed on the core so far. -/
  ops : List CoreOp
  /-- The callbacks made so far. -/
  journal : List Callback

namespace BacktestKernel

variable {σ : Type}

/-! ## Building -/

/-- The expiry schedule of the configured instruments. -/
def expirySchedule (config : BacktestConfig) : List (UnixNanos × InstrumentId) :=
  (config.instruments.filterMap fun i ↦ i.expiryNs.map fun e ↦ (e, i.id)).insertionSort
    fun a b ↦ a.1 ≤ b.1

/-- The core before anything has happened. -/
def initialCore (config : BacktestConfig) : Core where
  clock := .new config.startNs
  oms :=
    { cache := (config.instruments.foldl Cache.addInstrument Cache.new).setAccount
        ((∅ : Map Currency Money).insert config.startingBalance.currency config.startingBalance)
      ledger := .new
      sim := .new }
  pending := []
  issued := []
  closes := []

def build (setup : Setup σ) : BacktestKernel σ where
  core := initialCore setup.config
  strategy := setup.initial
  factory := .new setup.strategyId
  outbox := []
  expiries := expirySchedule setup.config
  result := ⟨[], 0, [], 0, 0, setup.config.startingBalance.amount, 0⟩
  ops := []
  journal := []

/-- The events in the order in which they are processed: by time, stably. -/
def sortedEvents (events : List MarketEvent) : List MarketEvent :=
  events.insertionSort fun a b ↦ a.tsEvent ≤ b.tsEvent

variable [DecimalWidth] (setup : Setup σ)

/-- Carry out an operation on the core. -/
def perform (op : CoreOp) (k : BacktestKernel σ) : List OrderEvent × BacktestKernel σ :=
  let out := k.core.exec setup.config.brokerage op
  (out.1, { k with core := out.2, ops := k.ops ++ [op] })

/-- Carry out an operation, then handle the order events it applied, in order. -/
def performThen (op : CoreOp) (handle : OrderEvent → BacktestKernel σ → BacktestKernel σ)
    (k : BacktestKernel σ) : BacktestKernel σ :=
  (perform setup op k).1.foldl (fun k ev ↦ handle ev k) (perform setup op k).2

/-! ## Calling the strategy -/

/-- Run a handler against the context. -/
def runProgram {α : Type} : Program α → BacktestKernel σ → α × BacktestKernel σ
  | .done a, k => (a, k)
  | .nowNs cont, k => runProgram (cont k.core.clock.now) k
  | .setTimer name ts cont, k =>
    runProgram (cont (k.core.clock.setTimer name ts).1) (perform setup (.setTimer name ts) k).2
  | .cancelTimer id next, k => runProgram next (perform setup (.cancelTimer id) k).2
  | .position id cont, k => runProgram (cont (k.core.oms.cache.position id)) k
  | .quote id cont, k => runProgram (cont (k.core.oms.cache.quote id)) k
  | .mark id cont, k => runProgram (cont (k.core.oms.cache.mark id)) k
  | .orderBook id cont, k => runProgram (cont (k.core.oms.cache.orderBook id)) k
  | .instrument id cont, k => runProgram (cont (k.core.oms.cache.instrument id)) k
  | .order spec cont, k =>
    runProgram (cont (k.factory.make spec).1) { k with factory := (k.factory.make spec).2 }
  | .seq cont, k => runProgram (cont k.factory.seq) k
  | .restoreSeq seq next, k => runProgram next { k with factory := { k.factory with seq := seq } }
  | .emit cmd next, k => runProgram next { k with outbox := k.outbox ++ [cmd] }

/-- Make a callback. -/
def call (cb : Callback) (k : BacktestKernel σ) : BacktestKernel σ :=
  let out := runProgram setup (setup.strategy.handle k.strategy cb)
    { k with journal := k.journal ++ [cb] }
  { out.2 with strategy := out.1 }

def notifyEvent (ev : OrderEvent) (k : BacktestKernel σ) : BacktestKernel σ :=
  match ev.fill? with
  | some f => call setup (.orderEvent ev) (call setup (.orderFilled f) k)
  | none => call setup (.orderEvent ev) k

def dispatchMarket (ev : MarketEvent) (k : BacktestKernel σ) : BacktestKernel σ :=
  match ev with
  | .quote q => call setup (.quote q) k
  | .trade t => call setup (.trade t) k
  | .bar b => call setup (.bar b) k
  | .delta d => match k.core.oms.cache.orderBook d.instrumentId with
    | some book => call setup (.book book) k
    | none => k

/-! ## Routing commands -/

def isDenied : OrderEvent → Bool
  | .denied .. => true
  | _ => false

/-- Count a denied order and tell the strategy. -/
def notifySubmitted (ev : OrderEvent) (k : BacktestKernel σ) : BacktestKernel σ :=
  let denied := k.result.ordersDenied + if isDenied ev then 1 else 0
  notifyEvent setup ev { k with result := { k.result with ordersDenied := denied } }

/-- Route one command of the outbox. Amendments are not modelled by the venue. -/
def route (now : UnixNanos) (k : BacktestKernel σ) : StrategyCommand → BacktestKernel σ
  | .submit order =>
    let k := { k with result := { k.result with ordersSubmitted := k.result.ordersSubmitted + 1 } }
    let risk := RiskGate.riskEngine k.core.oms.cache setup.config.risk setup.killed
    let portfolio := PortfolioState.portfolio k.core.oms.cache setup.config.settle
    performThen setup (.submit risk portfolio order now) (notifySubmitted setup) k
  | .cancel id => performThen setup (.cancel id now) (notifyEvent setup) k
  | .modify .. => k

/-- Route the commands that wait in the outbox. Commands that their callbacks leave wait for the
next time. -/
def processOutbox (k : BacktestKernel σ) : BacktestKernel σ :=
  k.outbox.foldl (route setup k.core.clock.now) { k with outbox := [] }

/-! ## Reports and timers -/

/-- Count a fill and log it. -/
def logFill (ts : UnixNanos) (f : Fill) (k : BacktestKernel σ) : BacktestKernel σ :=
  { k with result := { k.result with
    fills := k.result.fills + 1
    fillsLog := k.result.fillsLog ++
      [(ts, f.instrumentId.symbol, f.side.sign, f.lastQty.asDecimal, f.lastPx.asDecimal)] } }

/-- Log the fill an event carries and tell the strategy. -/
def notifyFolded (ev : OrderEvent) (k : BacktestKernel σ) : BacktestKernel σ :=
  notifyEvent setup ev (match ev.fill? with
    | some f => logFill f.tsEvent f k
    | none => k)

/-- Fold the next drained report and tell the strategy. -/
def foldNext (k : BacktestKernel σ) : BacktestKernel σ :=
  performThen setup .applyNext (notifyFolded setup) k

/-- Drain the reports due at the frontier and fold them in order. -/
def drainReports (frontier : UnixNanos) (k : BacktestKernel σ) : BacktestKernel σ :=
  let k := (perform setup (.drain frontier) k).2
  processOutbox setup (k.core.pending.foldl (fun k _ ↦ foldNext setup k) k)

def fireTimers (frontier : UnixNanos) (k : BacktestKernel σ) : BacktestKernel σ :=
  let timers := (k.core.clock.popDue frontier).2
  let k := (perform setup (.popDue frontier) k).2
  timers.foldl (fun k t ↦ processOutbox setup (call setup (.timer t) k)) k

/-! ## Market events -/

/-- Starting balance, realized and unrealized profit. -/
def equity (k : BacktestKernel σ) : Decimal :=
  let c := k.core.oms.cache
  let unrealized (pos : Position) : Decimal :=
    match c.instrument pos.instrumentId, c.mark pos.instrumentId with
    | some inst, some mark => (pos.unrealizedPnl mark inst).amount
    | _, _ => 0
  setup.config.startingBalance.amount
    + ((PortfolioState.positions c).map fun pos ↦ pos.realizedPnl.amount).sum
    + ((PortfolioState.positions c).map unrealized).sum

omit [DecimalWidth] in
def realizedTotal (k : BacktestKernel σ) : Decimal :=
  ((PortfolioState.positions k.core.oms.cache).map fun pos ↦ pos.realizedPnl.amount).sum

/-- Sample the equity curve, at bars only. -/
def sampleEquity (frontier : UnixNanos) (ev : MarketEvent) (k : BacktestKernel σ) :
    BacktestKernel σ :=
  match ev with
  | .bar _ => { k with result := { k.result with
      equityCurve := k.result.equityCurve ++ [(frontier, equity setup k)] } }
  | _ => k

/-- Process the market event at the frontier. -/
def marketEvent (frontier : UnixNanos) (ev : MarketEvent) (k : BacktestKernel σ) :
    BacktestKernel σ :=
  let k := (perform setup (.process ev) k).2
  let k := (perform setup (.onMarket ev) k).2
  sampleEquity setup frontier ev (processOutbox setup (dispatchMarket setup ev k))

/-! ## Expiry and liquidation -/

/-- Log a synthetic fill, tell the strategy and route its commands. -/
def notifyClosed (now : UnixNanos) (ev : OrderEvent) (k : BacktestKernel σ) : BacktestKernel σ :=
  processOutbox setup (notifyEvent setup ev (match ev.fill? with
    | some f => logFill now f k
    | none => k))

/-- Close the position of `iid` at `px` with a synthetic fill, if it is open. -/
def closePositionAt (iid : InstrumentId) (px : Price) (now : UnixNanos) (tagSuffix : String)
    (k : BacktestKernel σ) : BacktestKernel σ :=
  performThen setup (.closeAt iid px now tagSuffix) (notifyClosed setup now) k

/-- What an expiring contract settles at: an option at its intrinsic value when the spot of its
underlying is known, everything else at its last mark. -/
def settlementPrice (c : Cache) (inst : Instrument) (iid : InstrumentId) : Option Price :=
  match inst.assetClass with
  | .option =>
    match inst.strike, inst.optionRight,
        (inst.underlying.filter fun u ↦ u ≠ iid).bind c.mark with
    | some strike, some right, some spot =>
      match Price.fromDecimal (right.intrinsic spot.asDecimal strike.asDecimal)
          inst.pricePrecision with
      | .ok px => some px
      | .error _ => none
    | _, _, _ => c.mark iid
  | _ => c.mark iid

/-- The working orders of an instrument. -/
def openOrders (iid : InstrumentId) (k : BacktestKernel σ) : List ClientOrderId :=
  ((setup.hash.orders k.ops k.core.oms.cache).filter fun o ↦
    o.instrumentId = iid ∧ o.status.isTerminal = false).map Order.clientOrderId

/-- Settle one expiring contract and cancel the orders on it. -/
def settleContract (now : UnixNanos) (k : BacktestKernel σ) (iid : InstrumentId) :
    BacktestKernel σ :=
  match k.core.oms.cache.instrument iid with
  | none => k
  | some inst =>
    let k := match settlementPrice k.core.oms.cache inst iid with
      | some px => closePositionAt setup iid px now "SETTLE" k
      | none => k
    (openOrders setup iid k).foldl
      (fun k id ↦ performThen setup (.cancel id now) (notifyEvent setup) k) k

/-- Settle every contract that expires at or before the frontier. -/
def settleExpiries (frontier : UnixNanos) (k : BacktestKernel σ) : BacktestKernel σ :=
  (k.expiries.takeWhile fun e ↦ e.1 ≤ frontier).foldl
    (fun k e ↦ settleContract setup frontier k e.2)
    { k with expiries := k.expiries.dropWhile fun e ↦ e.1 ≤ frontier }

/-- Close every open position at its mark when equity is below the maintenance requirement. -/
def checkLiquidation (now : UnixNanos) (k : BacktestKernel σ) : BacktestKernel σ :=
  match setup.config.risk.maintenanceMarginRate with
  | none => k
  | some rate =>
    let c := k.core.oms.cache
    let equity := (PortfolioState.equity c setup.config.settle).amount
    let gross := (PortfolioState.grossExposure c setup.config.settle).amount
    if gross ≤ 0 ∨ equity ≥ gross * rate then k
    else
      let iids := ((setup.hash.positions k.ops c).filter fun p ↦ p.side ≠ .flat).map
        Position.instrumentId
      iids.foldl (fun k iid ↦ match k.core.oms.cache.mark iid with
        | some mark => closePositionAt setup iid mark now "LIQ" k
        | none => k) k

/-! ## The main loop -/

omit [DecimalWidth] in
/-- The earliest thing that is to happen. -/
def frontier (feed : List MarketEvent) (k : BacktestKernel σ) : Option UnixNanos :=
  [feed.head?.map MarketEvent.tsEvent, k.core.oms.sim.queue.peekDue, k.core.clock.peekNextTimer,
    k.expiries.head?.map Prod.fst].filterMap id |>.min?

/-- Process the next market event if it is at the frontier. -/
def takeMarket (frontier : UnixNanos) (feed : List MarketEvent) (k : BacktestKernel σ) :
    List MarketEvent × BacktestKernel σ :=
  match feed with
  | [] => ([], k)
  | ev :: rest => if ev.tsEvent = frontier then (rest, marketEvent setup frontier ev k)
    else (feed, k)

/-- One iteration of the loop at a given frontier. -/
def iterate (frontier : UnixNanos) (feed : List MarketEvent) (k : BacktestKernel σ) :
    List MarketEvent × BacktestKernel σ :=
  let k := (perform setup (.advance frontier) k).2
  let next := takeMarket setup frontier feed
    (fireTimers setup frontier (drainReports setup frontier k))
  (next.1, checkLiquidation setup frontier (settleExpiries setup frontier next.2))

/-- The state in which the loop starts. -/
def start : BacktestKernel σ := processOutbox setup (call setup .start (build setup))

/-- The first `n` iterations: for each its frontier and the kernel after it. The list is shorter
when the loop ends before. -/
def trace : ℕ → List MarketEvent → BacktestKernel σ → List (UnixNanos × BacktestKernel σ)
  | 0, _, _ => []
  | n + 1, feed, k => match frontier feed k with
    | none => []
    | some ts =>
      let next := iterate setup ts feed k
      (ts, next.2) :: trace n next.1 next.2

/-- What is left to do after the loop. -/
def finish (k : BacktestKernel σ) : BacktestKernel σ :=
  let k := processOutbox setup (call setup .stop k)
  { k with result := { k.result with
    finalEquity := equity setup k
    realizedPnl := realizedTotal k } }

/-- Run for at most `fuel` iterations; `none` if the loop has not ended by then. -/
def run (fuel : ℕ) (feed : List MarketEvent) (k : BacktestKernel σ) : Option (BacktestKernel σ) :=
  match frontier feed k, fuel with
  | none, _ => some (finish setup k)
  | some _, 0 => none
  | some ts, fuel + 1 =>
    let next := iterate setup ts feed k
    run fuel next.1 next.2

end BacktestKernel

end Coinext
