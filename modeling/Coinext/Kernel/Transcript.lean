import Coinext.Kernel.Replay

/-!
# The transcript of a run

The record of a kernel lists its operations and its callbacks apart, and says nothing about the
outbox. The transcript of a run lists, in the order in which they happen, the callbacks, the
commands that handlers leave in the outbox, the engine calls that commands are routed to, and the
operations that no command asked for.

Every move of the kernel has its entries, written beside it in the same order. A relation between
states and entries that composes and holds of the smallest moves holds of a whole run (`Narrates`,
`NarratesLoop`). That the entries are those of the record is the first such relation
(`records_transcript`).
-/

namespace Coinext

/-- The callback of a timer. -/
def Callback.isTimer : Callback → Bool
  | .timer _ => true
  | _ => false

/-- The popping of the timers that are due. -/
def CoreOp.isPop : CoreOp → Bool
  | .popDue _ => true
  | _ => false

inductive Entry where
  /-- A callback is made. -/
  | callback (cb : Callback)
  /-- A handler leaves a command in the outbox. -/
  | queued (cmd : StrategyCommand)
  /-- A command of the outbox is passed to the engine. -/
  | routed (op : CoreOp)
  /-- An operation that no command asked for. -/
  | other (op : CoreOp)

namespace Entry

def callback? : Entry → Option Callback
  | callback cb => some cb
  | _ => none

def queued? : Entry → Option StrategyCommand
  | queued cmd => some cmd
  | _ => none

def op? : Entry → Option CoreOp
  | routed op | other op => some op
  | _ => none

end Entry

namespace BacktestKernel

variable {σ : Type} [DecimalWidth] (setup : Setup σ)

/-! ## The entries of a handler -/

def programEntries {α : Type} : Program α → BacktestKernel σ → List Entry
  | .done _, _ => []
  | .nowNs cont, k => programEntries (cont k.core.clock.now) k
  | .setTimer name ts cont, k => .other (.setTimer name ts) ::
    programEntries (cont (k.core.clock.setTimer name ts).1) (perform setup (.setTimer name ts) k).2
  | .cancelTimer id next, k =>
    .other (.cancelTimer id) :: programEntries next (perform setup (.cancelTimer id) k).2
  | .position id cont, k => programEntries (cont (k.core.oms.cache.position id)) k
  | .quote id cont, k => programEntries (cont (k.core.oms.cache.quote id)) k
  | .mark id cont, k => programEntries (cont (k.core.oms.cache.mark id)) k
  | .orderBook id cont, k => programEntries (cont (k.core.oms.cache.orderBook id)) k
  | .instrument id cont, k => programEntries (cont (k.core.oms.cache.instrument id)) k
  | .order spec cont, k =>
    programEntries (cont (k.factory.make spec).1) { k with factory := (k.factory.make spec).2 }
  | .seq cont, k => programEntries (cont k.factory.seq) k
  | .restoreSeq seq next, k =>
    programEntries next { k with factory := { k.factory with seq := seq } }
  | .emit cmd next, k => .queued cmd :: programEntries next { k with outbox := k.outbox ++ [cmd] }

def callEntries (cb : Callback) (k : BacktestKernel σ) : List Entry :=
  .callback cb :: programEntries setup (setup.strategy.handle k.strategy cb)
    { k with journal := k.journal ++ [cb] }

/-- The entries of a fold of moves. -/
def foldEntries {α : Type} (move : BacktestKernel σ → α → BacktestKernel σ)
    (entries : BacktestKernel σ → α → List Entry) : List α → BacktestKernel σ → List Entry
  | [], _ => []
  | a :: l, k => entries k a ++ foldEntries move entries l (move k a)

def notifyEntries (ev : OrderEvent) (k : BacktestKernel σ) : List Entry :=
  match ev.fill? with
  | some f => callEntries setup (.orderFilled f) k ++
    callEntries setup (.orderEvent ev) (call setup (.orderFilled f) k)
  | none => callEntries setup (.orderEvent ev) k

/-- An operation that counts as `entry`, and what handling its order events adds. -/
def performThenEntries (entry : CoreOp → Entry) (op : CoreOp)
    (handle : OrderEvent → BacktestKernel σ → BacktestKernel σ)
    (entries : OrderEvent → BacktestKernel σ → List Entry) (k : BacktestKernel σ) : List Entry :=
  entry op :: foldEntries (fun k ev ↦ handle ev k) (fun k ev ↦ entries ev k)
    (perform setup op k).1 (perform setup op k).2

def dispatchEntries (ev : MarketEvent) (k : BacktestKernel σ) : List Entry :=
  match ev with
  | .quote q => callEntries setup (.quote q) k
  | .trade t => callEntries setup (.trade t) k
  | .bar b => callEntries setup (.bar b) k
  | .delta d => match k.core.oms.cache.orderBook d.instrumentId with
    | some book => callEntries setup (.book book) k
    | none => []

/-! ## The entries of the outbox -/

def notifySubmittedEntries (ev : OrderEvent) (k : BacktestKernel σ) : List Entry :=
  let denied := k.result.ordersDenied + if isDenied ev then 1 else 0
  notifyEntries setup ev { k with result := { k.result with ordersDenied := denied } }

def routeEntries (now : UnixNanos) (k : BacktestKernel σ) : StrategyCommand → List Entry
  | .submit order =>
    let k := { k with result := { k.result with ordersSubmitted := k.result.ordersSubmitted + 1 } }
    let risk := RiskGate.riskEngine k.core.oms.cache setup.config.risk setup.killed
    let portfolio := PortfolioState.portfolio k.core.oms.cache setup.config.settle
    performThenEntries setup .routed (.submit risk portfolio order now) (notifySubmitted setup)
      (notifySubmittedEntries setup) k
  | .cancel id =>
    performThenEntries setup .routed (.cancel id now) (notifyEvent setup) (notifyEntries setup) k
  | .modify .. => []

def processOutboxEntries (k : BacktestKernel σ) : List Entry :=
  foldEntries (route setup k.core.clock.now) (routeEntries setup k.core.clock.now) k.outbox
    { k with outbox := [] }

/-! ## The entries of an iteration -/

def notifyFoldedEntries (ev : OrderEvent) (k : BacktestKernel σ) : List Entry :=
  notifyEntries setup ev (match ev.fill? with
    | some f => logFill f.tsEvent f k
    | none => k)

def foldNextEntries (k : BacktestKernel σ) : List Entry :=
  performThenEntries setup .other .applyNext (notifyFolded setup) (notifyFoldedEntries setup) k

def drainReportsEntries (frontier : UnixNanos) (k : BacktestKernel σ) : List Entry :=
  let k := (perform setup (.drain frontier) k).2
  .other (.drain frontier) ::
    (foldEntries (fun k _ ↦ foldNext setup k) (fun k _ ↦ foldNextEntries setup k) k.core.pending k
      ++ processOutboxEntries setup (k.core.pending.foldl (fun k _ ↦ foldNext setup k) k))

/-- The handler of one timer, and the commands it leaves. -/
def timerEntries (k : BacktestKernel σ) (t : TimerEvent) : List Entry :=
  callEntries setup (.timer t) k ++ processOutboxEntries setup (call setup (.timer t) k)

def fireTimersEntries (frontier : UnixNanos) (k : BacktestKernel σ) : List Entry :=
  .other (.popDue frontier) ::
    foldEntries (fun k t ↦ processOutbox setup (call setup (.timer t) k)) (timerEntries setup)
      (k.core.clock.popDue frontier).2 (perform setup (.popDue frontier) k).2

def marketEntries (ev : MarketEvent) (k : BacktestKernel σ) : List Entry :=
  let k := (perform setup (.process ev) k).2
  let k := (perform setup (.onMarket ev) k).2
  .other (.process ev) :: .other (.onMarket ev) ::
    (dispatchEntries setup ev k ++ processOutboxEntries setup (dispatchMarket setup ev k))

def notifyClosedEntries (now : UnixNanos) (ev : OrderEvent) (k : BacktestKernel σ) : List Entry :=
  let k := match ev.fill? with
    | some f => logFill now f k
    | none => k
  notifyEntries setup ev k ++ processOutboxEntries setup (notifyEvent setup ev k)

def closeEntries (iid : InstrumentId) (px : Price) (now : UnixNanos) (tagSuffix : String)
    (k : BacktestKernel σ) : List Entry :=
  performThenEntries setup .other (.closeAt iid px now tagSuffix) (notifyClosed setup now)
    (notifyClosedEntries setup now) k

/-- The cancels of a settlement are the kernel's own. -/
def settleContractEntries (now : UnixNanos) (k : BacktestKernel σ) (iid : InstrumentId) :
    List Entry :=
  match k.core.oms.cache.instrument iid with
  | none => []
  | some inst =>
    let price := settlementPrice k.core.oms.cache inst iid
    let closing := match price with
      | some px => closeEntries setup iid px now "SETTLE" k
      | none => []
    let k := match price with
      | some px => closePositionAt setup iid px now "SETTLE" k
      | none => k
    closing ++ foldEntries
      (fun k id ↦ performThen setup (.cancel id now) (notifyEvent setup) k)
      (fun k id ↦ performThenEntries setup .other (.cancel id now) (notifyEvent setup)
        (notifyEntries setup) k) (openOrders setup iid k) k

def settleExpiriesEntries (frontier : UnixNanos) (k : BacktestKernel σ) : List Entry :=
  foldEntries (fun k e ↦ settleContract setup frontier k e.2)
    (fun k e ↦ settleContractEntries setup frontier k e.2)
    (k.expiries.takeWhile fun e ↦ e.1 ≤ frontier)
    { k with expiries := k.expiries.dropWhile fun e ↦ e.1 ≤ frontier }

def liquidationEntries (now : UnixNanos) (k : BacktestKernel σ) : List Entry :=
  match setup.config.risk.maintenanceMarginRate with
  | none => []
  | some rate =>
    let c := k.core.oms.cache
    let equity := (PortfolioState.equity c setup.config.settle).amount
    let gross := (PortfolioState.grossExposure c setup.config.settle).amount
    if gross ≤ 0 ∨ equity ≥ gross * rate then []
    else
      let iids := ((setup.hash.positions k.ops c).filter fun p ↦ p.side ≠ .flat).map
        Position.instrumentId
      foldEntries (fun k iid ↦ match k.core.oms.cache.mark iid with
        | some mark => closePositionAt setup iid mark now "LIQ" k
        | none => k) (fun k iid ↦ match k.core.oms.cache.mark iid with
        | some mark => closeEntries setup iid mark now "LIQ" k
        | none => []) iids k

/-! ## The entries of a run -/

def takeMarketEntries (frontier : UnixNanos) (feed : List MarketEvent) (k : BacktestKernel σ) :
    List Entry :=
  match feed with
  | [] => []
  | ev :: _ => if ev.tsEvent = frontier then marketEntries setup ev k else []

def iterateEntries (frontier : UnixNanos) (feed : List MarketEvent) (k : BacktestKernel σ) :
    List Entry :=
  let k := (perform setup (.advance frontier) k).2
  let drained := drainReports setup frontier k
  let fired := fireTimers setup frontier drained
  let taken := (takeMarket setup frontier feed fired).2
  .other (.advance frontier) :: (drainReportsEntries setup frontier k
    ++ fireTimersEntries setup frontier drained ++ takeMarketEntries setup frontier feed fired
    ++ settleExpiriesEntries setup frontier taken
    ++ liquidationEntries setup frontier (settleExpiries setup frontier taken))

def startEntries : List Entry :=
  callEntries setup .start (build setup)
    ++ processOutboxEntries setup (call setup .start (build setup))

def finishEntries (k : BacktestKernel σ) : List Entry :=
  callEntries setup .stop k ++ processOutboxEntries setup (call setup .stop k)

/-- The state after at most `fuel` iterations, with the events that are left. -/
def loop : ℕ → List MarketEvent → BacktestKernel σ → List MarketEvent × BacktestKernel σ
  | 0, feed, k => (feed, k)
  | fuel + 1, feed, k => match frontier feed k with
    | none => (feed, k)
    | some ts =>
      let next := iterate setup ts feed k
      loop fuel next.1 next.2

def loopEntries : ℕ → List MarketEvent → BacktestKernel σ → List Entry
  | 0, _, _ => []
  | fuel + 1, feed, k => match frontier feed k with
    | none => []
    | some ts =>
      let next := iterate setup ts feed k
      iterateEntries setup ts feed k ++ loopEntries fuel next.1 next.2

/-- The state in which a run has made at most `fuel` iterations. -/
def loopOf (fuel : ℕ) (events : List MarketEvent) : List MarketEvent × BacktestKernel σ :=
  loop setup fuel (sortedEvents events) (start setup)

/-- The state a run has reached by then, its end if the loop has ended. -/
def stateOf (fuel : ℕ) (events : List MarketEvent) : BacktestKernel σ :=
  match frontier (loopOf setup fuel events).1 (loopOf setup fuel events).2 with
  | none => finish setup (loopOf setup fuel events).2
  | some _ => (loopOf setup fuel events).2

/-- The entries of a run up to then, its end included if the loop has ended. -/
def transcript (fuel : ℕ) (events : List MarketEvent) : List Entry :=
  startEntries setup ++ loopEntries setup fuel (sortedEvents events) (start setup) ++
    match frontier (loopOf setup fuel events).1 (loopOf setup fuel events).2 with
    | none => finishEntries setup (loopOf setup fuel events).2
    | some _ => []

/-! ## Rules -/

/-- A relation between states and the entries that lead from one to the other, which composes and
holds of the smallest moves of a handler and of the loop. The callback of a timer and the popping of
timers are left to `NarratesLoop`, and so is the routing of commands. -/
structure Narrates (R : BacktestKernel σ → List Entry → BacktestKernel σ → Prop) : Prop where
  refl : ∀ k, R k [] k
  trans : ∀ {k k' k'' es es'}, R k es k' → R k' es' k'' → R k (es ++ es') k''
  /-- What touches neither the core nor the records nor the outbox. -/
  frame : ∀ {k k'}, k'.core = k.core → k'.ops = k.ops → k'.journal = k.journal →
    k'.outbox = k.outbox → R k [] k'
  callback : ∀ k cb, cb.isTimer = false →
    R k [.callback cb] { k with journal := k.journal ++ [cb] }
  queued : ∀ k cmd, R k [.queued cmd] { k with outbox := k.outbox ++ [cmd] }
  other : ∀ k op, op.isPop = false → R k [.other op] (perform setup op k).2

/-- A relation that also holds of the outbox and of the timers, and so of a whole run. -/
structure NarratesLoop (R : BacktestKernel σ → List Entry → BacktestKernel σ → Prop) : Prop
    extends Narrates setup R where
  processOutbox : ∀ k, R k (processOutboxEntries setup k) (processOutbox setup k)
  fireTimers : ∀ k ts, R k (fireTimersEntries setup ts k) (fireTimers setup ts k)

variable {setup} {k k' k'' : BacktestKernel σ}
  {R : BacktestKernel σ → List Entry → BacktestKernel σ → Prop}

namespace Narrates

theorem cons {e : Entry} {es : List Entry} (hR : Narrates setup R) (h : R k [e] k')
    (h' : R k' es k'') : R k (e :: es) k'' := hR.trans h h'

theorem silently {es : List Entry} (hR : Narrates setup R) (h : R k es k') (h' : R k' [] k'') :
    R k es k'' := by
  have hboth := hR.trans h h'
  rwa [List.append_nil] at hboth

theorem foldl {α : Type} {move : BacktestKernel σ → α → BacktestKernel σ}
    {entries : BacktestKernel σ → α → List Entry} (hR : Narrates setup R)
    (hmove : ∀ k a, R k (entries k a) (move k a)) (l : List α) :
    R k (foldEntries move entries l k) (l.foldl move k) := by
  induction l generalizing k with
  | nil => exact hR.refl k
  | cons a l ih => exact hR.trans (hmove k a) ih

theorem performThen {entry : CoreOp → Entry} {op : CoreOp}
    {handle : OrderEvent → BacktestKernel σ → BacktestKernel σ}
    {entries : OrderEvent → BacktestKernel σ → List Entry} (hR : Narrates setup R)
    (hop : R k [entry op] (perform setup op k).2)
    (hhandle : ∀ k ev, R k (entries ev k) (handle ev k)) :
    R k (performThenEntries setup entry op handle entries k) (performThen setup op handle k) :=
  hR.cons hop (hR.foldl hhandle _)

/-! ### The strategy -/

theorem program {α : Type} (hR : Narrates setup R) (p : Program α) :
    R k (programEntries setup p k) (runProgram setup p k).2 := by
  induction p generalizing k with
  | done a => exact hR.refl k
  | setTimer name ts cont ih => exact hR.cons (hR.other k _ rfl) (ih _)
  | cancelTimer id next ih => exact hR.cons (hR.other k _ rfl) ih
  | emit cmd next ih => exact hR.cons (hR.queued k cmd) ih
  | nowNs cont ih | position id cont ih | quote id cont ih | mark id cont ih
  | orderBook id cont ih | instrument id cont ih | seq cont ih => exact ih _
  | order spec cont ih =>
    have hframe : R k [] { k with factory := (k.factory.make spec).2 } := hR.frame rfl rfl rfl rfl
    exact hR.trans hframe (ih _)
  | restoreSeq seq next ih =>
    have hframe : R k [] { k with factory := { k.factory with seq := seq } } :=
      hR.frame rfl rfl rfl rfl
    exact hR.trans hframe ih

theorem handler (hR : Narrates setup R) (cb : Callback) :
    R { k with journal := k.journal ++ [cb] }
      (programEntries setup (setup.strategy.handle k.strategy cb)
        { k with journal := k.journal ++ [cb] }) (call setup cb k) := by
  exact hR.silently (hR.program _) (hR.frame rfl rfl rfl rfl)

theorem call (hR : Narrates setup R) {cb : Callback} (hcb : cb.isTimer = false) :
    R k (callEntries setup cb k) (call setup cb k) :=
  hR.cons (hR.callback k cb hcb) (hR.handler cb)

theorem notifyEvent (hR : Narrates setup R) (ev : OrderEvent) :
    R k (notifyEntries setup ev k) (notifyEvent setup ev k) := by
  cases hfill : ev.fill? with
  | some f =>
    simp only [notifyEntries, BacktestKernel.notifyEvent, hfill]
    exact hR.trans (hR.call rfl) (hR.call rfl)
  | none =>
    simp only [notifyEntries, BacktestKernel.notifyEvent, hfill]
    exact hR.call rfl

theorem dispatchMarket (hR : Narrates setup R) (ev : MarketEvent) :
    R k (dispatchEntries setup ev k) (dispatchMarket setup ev k) := by
  cases ev with
  | quote q => exact hR.call rfl
  | trade t => exact hR.call rfl
  | bar b => exact hR.call rfl
  | delta d =>
    cases hbook : k.core.oms.cache.orderBook d.instrumentId with
    | some book =>
      simp only [dispatchEntries, BacktestKernel.dispatchMarket, hbook]
      exact hR.call rfl
    | none =>
      simp only [dispatchEntries, BacktestKernel.dispatchMarket, hbook]
      exact hR.refl k

/-! ### Reports -/

theorem logFill? (hR : Narrates setup R) (ts : Fill → UnixNanos) (fill? : Option Fill) :
    R k [] (match fill? with
      | some f => logFill (ts f) f k
      | none => k) := by
  split
  · exact hR.frame rfl rfl rfl rfl
  · exact hR.refl k

theorem notifySubmitted (hR : Narrates setup R) (ev : OrderEvent) :
    R k (notifySubmittedEntries setup ev k) (notifySubmitted setup ev k) := by
  have hframe (denied : ℕ) : R k [] { k with result := { k.result with ordersDenied := denied } } :=
    hR.frame rfl rfl rfl rfl
  exact hR.trans (hframe _) (hR.notifyEvent ev)

theorem notifyFolded (hR : Narrates setup R) (ev : OrderEvent) :
    R k (notifyFoldedEntries setup ev k) (notifyFolded setup ev k) :=
  hR.trans (hR.logFill? Fill.tsEvent ev.fill?) (hR.notifyEvent ev)

theorem foldNext (hR : Narrates setup R) : R k (foldNextEntries setup k) (foldNext setup k) :=
  hR.performThen (hR.other k _ rfl) fun _ ev ↦ hR.notifyFolded ev

/-- A relation for which it does not matter whether a command asked for an operation, and which does
not look at the outbox, holds of the outbox. -/
theorem outbox (hR : Narrates setup R)
    (hrouted : ∀ k op, op.isPop = false → R k [.routed op] (perform setup op k).2)
    (hdrained : ∀ k, R k [] { k with outbox := [] }) :
    R k (processOutboxEntries setup k) (processOutbox setup k) := by
  refine hR.trans (hdrained k) (hR.foldl (fun k' cmd ↦ ?_) _)
  cases cmd with
  | submit order =>
    have hcounted : R k' [] { k' with
        result := { k'.result with ordersSubmitted := k'.result.ordersSubmitted + 1 } } :=
      hR.frame rfl rfl rfl rfl
    exact hR.trans hcounted (hR.performThen (hrouted _ _ rfl)
      fun _ ev ↦ hR.notifySubmitted ev)
  | cancel id => exact hR.performThen (hrouted _ _ rfl) fun _ ev ↦ hR.notifyEvent ev
  | modify id quantity price => exact hR.refl k'

/-- A relation for which timers are nothing special holds of them. -/
theorem timers (hR : Narrates setup R)
    (houtbox : ∀ k, R k (processOutboxEntries setup k) (processOutbox setup k))
    (hpop : ∀ k ts, R k [.other (.popDue ts)] (perform setup (.popDue ts) k).2)
    (hcall : ∀ k t, R k [.callback (.timer t)] { k with journal := k.journal ++ [.timer t] })
    (ts : UnixNanos) : R k (fireTimersEntries setup ts k) (fireTimers setup ts k) := by
  refine hR.cons (hpop k ts) (hR.foldl (fun k t ↦ ?_) _)
  exact hR.trans (hR.cons (hcall k t) (hR.handler (.timer t))) (houtbox _)

end Narrates

namespace NarratesLoop

variable (hR : NarratesLoop setup R)
include hR

theorem drainReports (frontier : UnixNanos) :
    R k (drainReportsEntries setup frontier k) (drainReports setup frontier k) :=
  hR.cons (hR.other k _ rfl)
    (hR.trans (hR.foldl (fun _ _ ↦ hR.foldNext) _) (hR.processOutbox _))

theorem marketEvent (frontier : UnixNanos) (ev : MarketEvent) :
    R k (marketEntries setup ev k) (marketEvent setup frontier ev k) := by
  have hdispatched : R k (marketEntries setup ev k) (BacktestKernel.processOutbox setup
      (BacktestKernel.dispatchMarket setup ev (perform setup (.onMarket ev)
        (perform setup (.process ev) k).2).2)) :=
    hR.cons (hR.other k _ rfl) (hR.cons (hR.other _ _ rfl)
      (hR.trans (hR.dispatchMarket ev) (hR.processOutbox _)))
  have hsampled (k : BacktestKernel σ) : R k [] (sampleEquity setup frontier ev k) := by
    unfold sampleEquity
    split
    · exact hR.frame rfl rfl rfl rfl
    · exact hR.refl k
  exact hR.silently hdispatched (hsampled _)

/-! ### Closing and settling -/

theorem notifyClosed (now : UnixNanos) (ev : OrderEvent) :
    R k (notifyClosedEntries setup now ev k) (notifyClosed setup now ev k) :=
  hR.trans (hR.trans (hR.logFill? (fun _ ↦ now) ev.fill?) (hR.notifyEvent ev)) (hR.processOutbox _)

theorem closePositionAt (iid : InstrumentId) (px : Price) (now : UnixNanos) (tagSuffix : String) :
    R k (closeEntries setup iid px now tagSuffix k)
      (closePositionAt setup iid px now tagSuffix k) :=
  hR.performThen (hR.other k _ rfl) fun _ ev ↦ hR.notifyClosed now ev

theorem settleContract (now : UnixNanos) (iid : InstrumentId) :
    R k (settleContractEntries setup now k iid) (settleContract setup now k iid) := by
  cases hinst : k.core.oms.cache.instrument iid with
  | none =>
    simp only [settleContractEntries, BacktestKernel.settleContract, hinst]
    exact hR.refl k
  | some inst =>
    have hcancels (k : BacktestKernel σ) (ids : List ClientOrderId) := hR.foldl (k := k)
      (fun k id ↦ hR.performThen (hR.other k (.cancel id now) rfl) fun _ ev ↦ hR.notifyEvent ev) ids
    cases hprice : settlementPrice k.core.oms.cache inst iid with
    | some px =>
      simp only [settleContractEntries, BacktestKernel.settleContract, hinst, hprice]
      exact hR.trans (hR.closePositionAt _ _ _ _) (hcancels _ _)
    | none =>
      simp only [settleContractEntries, BacktestKernel.settleContract, hinst, hprice]
      exact hR.trans (hR.refl k) (hcancels _ _)

theorem settleExpiries (frontier : UnixNanos) :
    R k (settleExpiriesEntries setup frontier k) (settleExpiries setup frontier k) := by
  have hframe : R k [] { k with expiries := k.expiries.dropWhile fun e ↦ e.1 ≤ frontier } :=
    hR.frame rfl rfl rfl rfl
  exact hR.trans hframe (hR.foldl (fun _ e ↦ hR.settleContract frontier (Prod.snd e)) _)

theorem checkLiquidation (now : UnixNanos) :
    R k (liquidationEntries setup now k) (checkLiquidation setup now k) := by
  cases hrate : setup.config.risk.maintenanceMarginRate with
  | none =>
    simp only [liquidationEntries, BacktestKernel.checkLiquidation, hrate]
    exact hR.refl k
  | some rate =>
    simp only [liquidationEntries, BacktestKernel.checkLiquidation, hrate]
    split_ifs
    · exact hR.refl k
    · refine hR.foldl (fun k iid ↦ ?_) _
      cases k.core.oms.cache.mark iid with
      | some mark => exact hR.closePositionAt _ _ _ _
      | none => exact hR.refl k

/-! ### The run -/

theorem takeMarket (frontier : UnixNanos) (feed : List MarketEvent) :
    R k (takeMarketEntries setup frontier feed k) (takeMarket setup frontier feed k).2 := by
  cases feed with
  | nil => exact hR.refl k
  | cons ev rest =>
    simp only [takeMarketEntries, BacktestKernel.takeMarket]
    split_ifs
    · exact hR.marketEvent frontier ev
    · exact hR.refl k

theorem iterate (frontier : UnixNanos) (feed : List MarketEvent) :
    R k (iterateEntries setup frontier feed k) (iterate setup frontier feed k).2 :=
  hR.cons (hR.other k _ rfl) (hR.trans (hR.trans (hR.trans (hR.trans
    (hR.drainReports frontier) (hR.fireTimers _ frontier)) (hR.takeMarket frontier feed))
    (hR.settleExpiries frontier)) (hR.checkLiquidation frontier))

theorem start : R (build setup) (startEntries setup) (start setup) :=
  hR.trans (hR.call rfl) (hR.processOutbox _)

theorem finish : R k (finishEntries setup k) (finish setup k) := by
  have hstop : R k (callEntries setup .stop k) (BacktestKernel.call setup .stop k) := hR.call rfl
  exact hR.silently (hR.trans hstop (hR.processOutbox _)) (hR.frame rfl rfl rfl rfl)

/-- **Run rule.** What holds of the moves holds of every run, as far as it has come. -/
theorem loop (fuel : ℕ) (feed : List MarketEvent) :
    R k (loopEntries setup fuel feed k) (loop setup fuel feed k).2 := by
  induction fuel generalizing feed k with
  | zero => exact hR.refl k
  | succ fuel ih =>
    simp only [loopEntries, BacktestKernel.loop]
    cases frontier feed k with
    | none => exact hR.refl k
    | some ts => exact hR.trans (hR.iterate ts feed) (ih _)

theorem loopOf (fuel : ℕ) (events : List MarketEvent) :
    R (build setup)
      (startEntries setup
        ++ loopEntries setup fuel (sortedEvents events) (BacktestKernel.start setup))
      (loopOf setup fuel events).2 := hR.trans hR.start (hR.loop fuel _)

theorem transcript (fuel : ℕ) (events : List MarketEvent) :
    R (build setup) (transcript setup fuel events) (stateOf setup fuel events) := by
  unfold BacktestKernel.transcript stateOf
  cases frontier (BacktestKernel.loopOf setup fuel events).1
      (BacktestKernel.loopOf setup fuel events).2 with
  | none => exact hR.trans (hR.loopOf fuel events) hR.finish
  | some ts => exact hR.trans (hR.loopOf fuel events) (hR.refl _)

end NarratesLoop

/-- A run that ends, ends when nothing is left to do after the loop. -/
theorem run_eq_some_iff {fuel : ℕ} {feed : List MarketEvent} :
    run setup fuel feed k = some k' ↔
      frontier (loop setup fuel feed k).1 (loop setup fuel feed k).2 = none ∧
        k' = finish setup (loop setup fuel feed k).2 := by
  induction fuel generalizing feed k with
  | zero =>
    cases hfrontier : frontier feed k with
    | none => simp [run, loop, hfrontier, eq_comm]
    | some ts => simp [run, loop, hfrontier]
  | succ fuel ih =>
    cases hfrontier : frontier feed k with
    | none => simp [run, loop, hfrontier, eq_comm]
    | some ts =>
      have hrun : run setup (fuel + 1) feed k
          = run setup fuel (iterate setup ts feed k).1 (iterate setup ts feed k).2 := by
        conv_lhs => unfold run
        simp only [hfrontier]
      simp only [hrun, loop, hfrontier]
      exact ih

theorem stateOf_of_run {fuel : ℕ} {events : List MarketEvent}
    (hrun : run setup fuel (sortedEvents events) (start setup) = some k) :
    stateOf setup fuel events = k := by
  obtain ⟨hfrontier, rfl⟩ := run_eq_some_iff.mp hrun
  rw [stateOf, loopOf, hfrontier]

/-! ## The record -/

/-- The entries are what the record has gained. -/
structure Records (k : BacktestKernel σ) (es : List Entry) (k' : BacktestKernel σ) : Prop where
  ops : k'.ops = k.ops ++ es.filterMap Entry.op?
  journal : k'.journal = k.journal ++ es.filterMap Entry.callback?

omit [DecimalWidth] in
theorem Records.trans {es es' : List Entry} (h : Records k es k') (h' : Records k' es' k'') :
    Records k (es ++ es') k'' := by
  constructor
  · rw [h'.ops, h.ops, List.filterMap_append, List.append_assoc]
  · rw [h'.journal, h.journal, List.filterMap_append, List.append_assoc]

theorem records_narrates : Narrates setup (Records (σ := σ)) where
  refl _ := ⟨(List.append_nil _).symm, (List.append_nil _).symm⟩
  trans := .trans
  frame _ hops hjournal _ :=
    ⟨hops.trans (List.append_nil _).symm, hjournal.trans (List.append_nil _).symm⟩
  callback _ _ _ := ⟨(List.append_nil _).symm, rfl⟩
  queued _ _ := ⟨(List.append_nil _).symm, (List.append_nil _).symm⟩
  other _ _ _ := ⟨rfl, (List.append_nil _).symm⟩

theorem records_narratesLoop : NarratesLoop setup (Records (σ := σ)) := by
  have houtbox (k : BacktestKernel σ) :
      Records k (processOutboxEntries setup k) (processOutbox setup k) :=
    records_narrates.outbox (fun _ _ _ ↦ ⟨rfl, (List.append_nil _).symm⟩)
      fun _ ↦ ⟨(List.append_nil _).symm, (List.append_nil _).symm⟩
  refine ⟨records_narrates, houtbox, fun k ts ↦ records_narrates.timers houtbox ?_ ?_ ts⟩
  · exact fun _ _ ↦ ⟨rfl, (List.append_nil _).symm⟩
  · exact fun _ _ ↦ ⟨(List.append_nil _).symm, rfl⟩

/-- The transcript of a run lists its operations and its callbacks. -/
theorem records_transcript (fuel : ℕ) (events : List MarketEvent) :
    (stateOf setup fuel events).ops = (transcript setup fuel events).filterMap Entry.op? ∧
      (stateOf setup fuel events).journal
        = (transcript setup fuel events).filterMap Entry.callback? := by
  have h : Records (build setup) (transcript setup fuel events) (stateOf setup fuel events) :=
    records_narratesLoop.transcript fuel events
  exact ⟨h.ops, h.journal⟩

end BacktestKernel

end Coinext
