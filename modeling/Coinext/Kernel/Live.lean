import Coinext.Kernel.Backtest
import Coinext.Support.Run

/-!
# The live kernel

The port-driven loop. It takes the next report of the execution client if one waits, else the next
market event, and ends when the market stream is drained and closed, or when a stop is requested.
Reports are folded by the same engine as in a backtest, and orders pass the same risk gate; the
other pre-trade checks of the engine are not made here.

The execution client is the record of the methods that the loop calls, over a state that holds its
report channel. A call may fail, which ends the run with an error, or never return. The market
stream is one that has been filled and closed before the loop starts, so the next event is always
there.

What the run does not determine is given with it: the readings of the wall clock, when a stop is
requested, and whether the portfolio callback fails. Timers can be set, but the loop never fires
one, so only their ids matter.
-/

namespace Coinext

/-! ## Ports -/

/-- What a call to a port comes to. -/
inductive PortOutcome (α : Type) where
  | ok (a : α)
  | failed
  /-- The call never returns. -/
  | waits
deriving DecidableEq

/-- The state of a report stream. -/
inductive Received (ε : Type) where
  | report (r : ExecutionReport) (e : ε)
  /-- No report waits, but one may still come. -/
  | empty
  | closed

/-- The `ExecutionClient` trait, as far as the loop calls it. -/
structure ExecutionClient (ε : Type) where
  submitOrder : Order → ε → PortOutcome ε
  cancelOrder : ClientOrderId → InstrumentId → ε → PortOutcome ε
  reconcile : ε → PortOutcome (List ExecutionReport × ε)
  recv : ε → Received ε

/-! ## The kernel -/

/-- What a run is given besides the market events. -/
structure LiveSetup (σ ε : Type) where
  config : BacktestConfig
  strategyId : StrategyId
  strategy : Strategy σ
  initial : σ
  /-- Whether the kill switch is engaged. -/
  killed : Bool
  client : ExecutionClient ε
  exec : ε
  /-- The readings of the wall clock, in order. -/
  clock : ℕ → UnixNanos
  /-- Whether a stop has been requested when the loop comes round for the `n`-th time. -/
  stop : ℕ → Bool
  /-- Whether the portfolio callback fails when it is called for the `n`-th time. -/
  callbackFails : ℕ → Cache → Bool

/-- Why a run does not get on. -/
inductive Halt where
  /-- It has returned an error. -/
  | failed
  /-- It waits for a call that never returns. -/
  | waits
deriving DecidableEq

/-- The kernel, its unread market events excepted. -/
structure LiveKernel (σ ε : Type) where
  /-- The engine's state; a live kernel has no simulated venue. -/
  oms : Oms
  strategy : σ
  factory : OrderFactory
  outbox : List StrategyCommand
  exec : ε
  /-- The id of the next timer. -/
  nextTimer : ℕ
  /-- Readings of the clock so far. -/
  readings : ℕ
  /-- Calls of the portfolio callback so far. -/
  snapshots : ℕ
  /-- Rounds of the loop so far. -/
  rounds : ℕ
  halted : Option Halt
  /-- How many market events have been delivered. -/
  delivered : ℕ
  /-- The orders that the client has taken, each with the number of events delivered before; nothing
  reads it. -/
  sent : List (ℕ × Order)

namespace LiveKernel

variable {σ ε : Type} [DecimalWidth] (setup : LiveSetup σ ε)

def build : LiveKernel σ ε where
  oms := (BacktestKernel.initialCore setup.config).oms
  strategy := setup.initial
  factory := .new setup.strategyId
  outbox := []
  exec := setup.exec
  nextTimer := 1
  readings := 0
  snapshots := 0
  rounds := 0
  halted := none
  delivered := 0
  sent := []

/-- Read the clock. -/
def now (k : LiveKernel σ ε) : UnixNanos × LiveKernel σ ε :=
  (setup.clock k.readings, { k with readings := k.readings + 1 })

/-! ## Calling the strategy -/

/-- Run a handler against the context. -/
def runProgram {α : Type} : Program α → LiveKernel σ ε → α × LiveKernel σ ε
  | .done a, k => (a, k)
  | .nowNs cont, k => runProgram (cont (now setup k).1) (now setup k).2
  | .setTimer _ _ cont, k =>
    runProgram (cont ⟨k.nextTimer⟩) { k with nextTimer := k.nextTimer + 1 }
  | .cancelTimer _ next, k => runProgram next k
  | .position id cont, k => runProgram (cont (k.oms.cache.position id)) k
  | .quote id cont, k => runProgram (cont (k.oms.cache.quote id)) k
  | .mark id cont, k => runProgram (cont (k.oms.cache.mark id)) k
  | .orderBook id cont, k => runProgram (cont (k.oms.cache.orderBook id)) k
  | .instrument id cont, k => runProgram (cont (k.oms.cache.instrument id)) k
  | .order spec cont, k =>
    runProgram (cont (k.factory.make spec).1) { k with factory := (k.factory.make spec).2 }
  | .seq cont, k => runProgram (cont k.factory.seq) k
  | .restoreSeq seq next, k => runProgram next { k with factory := { k.factory with seq := seq } }
  | .emit cmd next, k => runProgram next { k with outbox := k.outbox ++ [cmd] }

/-- Make a callback. -/
def call (cb : Callback) (k : LiveKernel σ ε) : LiveKernel σ ε :=
  let out := runProgram setup (setup.strategy.handle k.strategy cb) k
  { out.2 with strategy := out.1 }

def notifyEvent (ev : OrderEvent) (k : LiveKernel σ ε) : LiveKernel σ ε :=
  match ev.fill? with
  | some f => call setup (.orderEvent ev) (call setup (.orderFilled f) k)
  | none => call setup (.orderEvent ev) k

def dispatchMarket (ev : MarketEvent) (k : LiveKernel σ ε) : LiveKernel σ ε :=
  match ev with
  | .quote q => call setup (.quote q) k
  | .trade t => call setup (.trade t) k
  | .bar b => call setup (.bar b) k
  | .delta d => match k.oms.cache.orderBook d.instrumentId with
    | some book => call setup (.book book) k
    | none => k

/-- Apply an event to a new order, track the order and tell the strategy. -/
def trackOrder (order : Order) (ev : OrderEvent) (k : LiveKernel σ ε) : LiveKernel σ ε :=
  notifyEvent setup ev { k with oms := ExecutionEngine.track order ev k.oms }

/-! ## Routing commands -/

/-- Hand an order to the execution client. -/
def sendOrder (order : Order) (k : LiveKernel σ ε) : LiveKernel σ ε :=
  match setup.client.submitOrder order k.exec with
  | .ok exec => { k with exec := exec, sent := k.sent ++ [(k.delivered, order)] }
  | .failed => { k with halted := some .failed }
  | .waits => { k with halted := some .waits }

/-- Route one command of the outbox, unless the run is over. A submit of a tracked order, or for an
unknown instrument, is dropped. Amendments are not routed. -/
def route (now : UnixNanos) (k : LiveKernel σ ε) (cmd : StrategyCommand) : LiveKernel σ ε :=
  if k.halted.isSome then k
  else match cmd with
    | .submit order =>
      if (k.oms.cache.order order.clientOrderId).isSome then k
      else match k.oms.cache.instrument order.instrumentId with
        | none => k
        | some inst =>
          let risk := RiskGate.riskEngine k.oms.cache setup.config.risk setup.killed
          let portfolio := PortfolioState.portfolio k.oms.cache setup.config.settle
          match risk.check order portfolio inst with
          | .approved =>
            let ev := OrderEvent.submitted now
            sendOrder setup (order.applied ev) (trackOrder setup order ev k)
          | .denied reason => trackOrder setup order (.denied (.text reason.display) now) k
    | .cancel id => match k.oms.cache.order id with
      | none => k
      | some o =>
        let (applied, oms) := ExecutionEngine.applyToOrder id (.pendingCancel now) k.oms
        let k := applied.foldl (fun k ev ↦ notifyEvent setup ev k) { k with oms := oms }
        match setup.client.cancelOrder id o.instrumentId k.exec with
        | .ok exec => { k with exec := exec }
        | .failed => { k with halted := some .failed }
        | .waits => { k with halted := some .waits }
    | .modify .. => k

/-- Route the commands that wait in the outbox; without any, the clock is not read. -/
def routeOutbox (k : LiveKernel σ ε) : LiveKernel σ ε :=
  if k.outbox = [] then k
  else k.outbox.foldl (route setup (now setup k).1) { (now setup k).2 with outbox := [] }

/-- Hand a portfolio snapshot to the callback, unless the run is over. -/
def emitPortfolio (k : LiveKernel σ ε) : LiveKernel σ ε :=
  if k.halted.isSome then k
  else { k with
    snapshots := k.snapshots + 1
    halted := if setup.callbackFails k.snapshots k.oms.cache then some .failed else none }

/-! ## The loop -/

/-- Fold a report and tell the strategy. -/
def applyReport (report : ExecutionReport) (now : UnixNanos) (k : LiveKernel σ ε) :
    LiveKernel σ ε :=
  let (applied, oms) := ExecutionEngine.applyReport report now k.oms
  applied.foldl (fun k ev ↦ notifyEvent setup ev k) { k with oms := oms }

/-- The round of a report. -/
def handleReport (report : ExecutionReport) (k : LiveKernel σ ε) : LiveKernel σ ε :=
  emitPortfolio setup (routeOutbox setup
    (applyReport setup report (now setup k).1 (now setup k).2))

/-- The round of a market event. -/
def handleMarket (ev : MarketEvent) (k : LiveKernel σ ε) : LiveKernel σ ε :=
  let k := { k with
    oms := { k.oms with cache := k.oms.cache.process ev }
    delivered := k.delivered + 1 }
  emitPortfolio setup (routeOutbox setup (dispatchMarket setup ev k))

/-- One round of the loop, `none` when it is left. Reports come first. -/
def iterate (feed : List MarketEvent) (k : LiveKernel σ ε) :
    Option (List MarketEvent × LiveKernel σ ε) :=
  if k.halted.isSome ∨ setup.stop k.rounds = true then none
  else match setup.client.recv k.exec, feed with
    | .report r exec, _ =>
      some (feed, handleReport setup r { k with exec := exec, rounds := k.rounds + 1 })
    | .closed, _ => none
    | .empty, [] => none
    | .empty, ev :: rest => some (rest, handleMarket setup ev { k with rounds := k.rounds + 1 })

/-- Fold what the client knows, at one reading of the clock. -/
def reconcile (k : LiveKernel σ ε) : LiveKernel σ ε :=
  let (ts, k) := now setup k
  match setup.client.reconcile k.exec with
  | .ok (reports, exec) => reports.foldl (fun k report ↦
      if k.halted.isSome then k else emitPortfolio setup (applyReport setup report ts k))
      { k with exec := exec }
  | .failed => { k with halted := some .failed }
  | .waits => { k with halted := some .waits }

/-- A last or first callback and what it leaves in the outbox, unless the run is over. -/
def callAndRoute (cb : Callback) (k : LiveKernel σ ε) : LiveKernel σ ε :=
  if k.halted.isSome then k else routeOutbox setup (call setup cb k)

/-- The state in which the loop starts. -/
def start : LiveKernel σ ε := callAndRoute setup .start (reconcile setup (build setup))

/-- What is left to do after the loop. -/
def finish (k : LiveKernel σ ε) : LiveKernel σ ε := callAndRoute setup .stop k

/-- The first `n` rounds: the kernel after each. The list is shorter when the loop is left
before. -/
def trace : ℕ → List MarketEvent → LiveKernel σ ε → List (LiveKernel σ ε)
  | 0, _, _ => []
  | n + 1, feed, k => match iterate setup feed k with
    | none => []
    | some next => next.2 :: trace n next.1 next.2

/-- The states in which the first `m` rounds leave the loop before more than `n` events are
delivered. -/
def upTo (n m : ℕ) (events : List MarketEvent) : List (LiveKernel σ ε) :=
  (start setup :: trace setup m events (start setup)).takeWhile fun k ↦ k.delivered ≤ n

/-- The states of the loop, each with the events that are left. -/
inductive Looped (events : List MarketEvent) : List MarketEvent → LiveKernel σ ε → Prop
  | start : Looped events events (start setup)
  | iterate {feed feed' : List MarketEvent} {k k' : LiveKernel σ ε} :
    Looped events feed k → iterate setup feed k = some (feed', k') → Looped events feed' k'

/-- The states of a run: those of the loop, and its end once the loop is left. -/
inductive Reached (events : List MarketEvent) : LiveKernel σ ε → Prop
  | loop {feed : List MarketEvent} {k : LiveKernel σ ε} :
    Looped setup events feed k → Reached events k
  | finish {feed : List MarketEvent} {k : LiveKernel σ ε} :
    Looped setup events feed k → iterate setup feed k = none → Reached events (finish setup k)

/-! ## What a run does to its client -/

/-- The client, what it has taken and the events delivered are the same. -/
structure SameClient (k k' : LiveKernel σ ε) : Prop where
  exec : k'.exec = k.exec
  sent : k'.sent = k.sent
  delivered : k'.delivered = k.delivered

namespace SameClient

variable {setup} {k k' k'' : LiveKernel σ ε}

omit [DecimalWidth] in
theorem trans (h : SameClient k k') (h' : SameClient k' k'') : SameClient k k'' :=
  ⟨h'.exec.trans h.exec, h'.sent.trans h.sent, h'.delivered.trans h.delivered⟩

omit [DecimalWidth] in
theorem runProgram {α : Type} (p : Program α) : SameClient k (runProgram setup p k).2 := by
  induction p generalizing k with
  | done a => exact ⟨rfl, rfl, rfl⟩
  | cancelTimer id next ih => exact ih
  | nowNs cont ih | setTimer name ts cont ih | position id cont ih | quote id cont ih
  | mark id cont ih | orderBook id cont ih | instrument id cont ih | order spec cont ih
  | seq cont ih =>
    refine trans ?_ (ih _)
    exact ⟨rfl, rfl, rfl⟩
  | restoreSeq seq next ih | emit cmd next ih =>
    refine trans ?_ ih
    exact ⟨rfl, rfl, rfl⟩

omit [DecimalWidth] in
theorem call (cb : Callback) : SameClient k (call setup cb k) := by
  have hrun :
      SameClient k (LiveKernel.runProgram setup (setup.strategy.handle k.strategy cb) k).2 :=
    runProgram _
  exact ⟨hrun.exec, hrun.sent, hrun.delivered⟩

omit [DecimalWidth] in
theorem notifyEvent (ev : OrderEvent) : SameClient k (notifyEvent setup ev k) := by
  unfold LiveKernel.notifyEvent
  split
  · exact (call _).trans (call _)
  · exact call _

omit [DecimalWidth] in
theorem notifyEvents (evs : List OrderEvent) :
    SameClient k (evs.foldl (fun k ev ↦ LiveKernel.notifyEvent setup ev k) k) :=
  foldl_induction (fun _ ev h ↦ h.trans (notifyEvent ev)) ⟨rfl, rfl, rfl⟩ evs

omit [DecimalWidth] in
theorem dispatchMarket (ev : MarketEvent) : SameClient k (dispatchMarket setup ev k) := by
  unfold LiveKernel.dispatchMarket
  split
  · exact call _
  · exact call _
  · exact call _
  · split
    · exact call _
    · exact ⟨rfl, rfl, rfl⟩

theorem trackOrder (order : Order) (ev : OrderEvent) :
    SameClient k (trackOrder setup order ev k) := by
  refine trans ?_ (notifyEvent ev)
  exact ⟨rfl, rfl, rfl⟩

theorem applyReport (report : ExecutionReport) (now : UnixNanos) :
    SameClient k (applyReport setup report now k) := by
  refine trans ?_ (notifyEvents _)
  exact ⟨rfl, rfl, rfl⟩

omit [DecimalWidth] in
theorem emitPortfolio : SameClient k (emitPortfolio setup k) := by
  unfold LiveKernel.emitPortfolio
  split_ifs <;> exact ⟨rfl, rfl, rfl⟩

end SameClient

/-- A property of what a client has taken and of its state that every call keeps. -/
structure Respects (client : ExecutionClient ε) (J : List (ℕ × Order) → ε → Prop) : Prop where
  submit : ∀ sent e n o e', J sent e → client.submitOrder o e = .ok e' → J (sent ++ [(n, o)]) e'
  cancel : ∀ sent e id iid e', J sent e → client.cancelOrder id iid e = .ok e' → J sent e'
  reconcile : ∀ sent e reports e', J sent e → client.reconcile e = .ok (reports, e') → J sent e'
  recv : ∀ sent e r e', J sent e → client.recv e = .report r e' → J sent e'

/-- A property that the calls keep which the kernel makes between two reports. -/
structure KeptByCalls (client : ExecutionClient ε) (J : List (ℕ × Order) → ε → Prop) : Prop where
  submit : ∀ sent e n o e', J sent e → client.submitOrder o e = .ok e' → J (sent ++ [(n, o)]) e'
  cancel : ∀ sent e id iid e', J sent e → client.cancelOrder id iid e = .ok e' → J sent e'
  reconcile : ∀ sent e reports e', J sent e → client.reconcile e = .ok (reports, e') → J sent e'

omit [DecimalWidth] in
theorem Respects.keptByCalls {client : ExecutionClient ε} {J : List (ℕ × Order) → ε → Prop}
    (hJ : Respects client J) : KeptByCalls client J :=
  ⟨hJ.submit, hJ.cancel, hJ.reconcile⟩

/-- The second state keeps a property of the client if the first has it, and nothing is
delivered. -/
def Keeps (J : List (ℕ × Order) → ε → Prop) (k k' : LiveKernel σ ε) : Prop :=
  (J k.sent k.exec → J k'.sent k'.exec) ∧ k'.delivered = k.delivered

variable {setup} {J : List (ℕ × Order) → ε → Prop} {k k' k'' : LiveKernel σ ε}
  {events feed : List MarketEvent}

omit [DecimalWidth] in
theorem SameClient.keeps (h : SameClient k k') : Keeps J k k' := by
  refine ⟨fun hk ↦ ?_, h.delivered⟩
  rw [h.sent, h.exec]
  exact hk

omit [DecimalWidth] in
theorem Keeps.refl (k : LiveKernel σ ε) : Keeps J k k := ⟨id, rfl⟩

omit [DecimalWidth] in
theorem Keeps.trans (h : Keeps J k k') (h' : Keeps J k' k'') : Keeps J k k'' :=
  ⟨h'.1 ∘ h.1, h'.2.trans h.2⟩

omit [DecimalWidth] in
theorem keeps_sendOrder (hJ : KeptByCalls setup.client J) (order : Order) :
    Keeps J k (sendOrder setup order k) := by
  unfold sendOrder
  split
  · rename_i exec hsubmit
    exact ⟨fun hk ↦ hJ.submit _ _ _ _ _ hk hsubmit, rfl⟩
  · exact .refl k
  · exact .refl k

theorem keeps_route (hJ : KeptByCalls setup.client J) (now : UnixNanos) (cmd : StrategyCommand) :
    Keeps J k (route setup now k cmd) := by
  unfold route
  split_ifs
  · exact .refl k
  cases cmd with
  | submit order =>
    simp only
    split_ifs
    · exact .refl k
    split
    · exact .refl k
    · split
      · exact (SameClient.trackOrder _ _).keeps.trans (keeps_sendOrder hJ _)
      · exact (SameClient.trackOrder _ _).keeps
  | cancel id =>
    simp only
    split
    · exact .refl k
    · rename_i o _
      have hnotify : SameClient k
          ((ExecutionEngine.applyToOrder id (.pendingCancel now) k.oms).1.foldl
          (fun k ev ↦ notifyEvent setup ev k)
          { k with oms := (ExecutionEngine.applyToOrder id (.pendingCancel now) k.oms).2 }) := by
        refine SameClient.trans ?_ (SameClient.notifyEvents _)
        exact ⟨rfl, rfl, rfl⟩
      refine hnotify.keeps.trans ?_
      split
      · rename_i exec hcancel
        exact ⟨fun hk ↦ hJ.cancel _ _ _ _ _ hk hcancel, rfl⟩
      · exact .refl _
      · exact .refl _
  | modify id quantity price => exact .refl k

theorem keeps_routeOutbox (hJ : KeptByCalls setup.client J) : Keeps J k (routeOutbox setup k) := by
  unfold routeOutbox
  split_ifs
  · exact .refl k
  · refine foldl_induction (fun _ cmd h ↦ h.trans (keeps_route hJ _ cmd)) ?_ _
    exact .refl k

theorem keeps_handleReport (hJ : KeptByCalls setup.client J) (report : ExecutionReport) :
    Keeps J k (handleReport setup report k) := by
  have hnow : Keeps J k (now setup k).2 := .refl k
  refine hnow.trans ?_
  exact ((SameClient.applyReport _ _).keeps.trans (keeps_routeOutbox hJ)).trans
    SameClient.emitPortfolio.keeps

theorem keeps_callAndRoute (hJ : KeptByCalls setup.client J) (cb : Callback) :
    Keeps J k (callAndRoute setup cb k) := by
  unfold callAndRoute
  split_ifs
  · exact .refl k
  · exact (SameClient.call cb).keeps.trans (keeps_routeOutbox hJ)

theorem keeps_reconcile (hJ : KeptByCalls setup.client J) : Keeps J k (reconcile setup k) := by
  have hnow : Keeps J k (now setup k).2 := .refl k
  refine hnow.trans ?_
  unfold reconcile
  simp only
  split
  · rename_i reports exec hreconcile
    refine foldl_induction (fun k report h ↦ ?_) ?_ reports
    · split_ifs
      · exact h
      · exact h.trans ((SameClient.applyReport _ _).keeps.trans SameClient.emitPortfolio.keeps)
    · exact ⟨fun hk ↦ hJ.reconcile _ _ _ _ hk hreconcile, rfl⟩
  · exact .refl _
  · exact .refl _

theorem keeps_start (hJ : KeptByCalls setup.client J) : Keeps J (build setup) (start setup) :=
  (keeps_reconcile hJ).trans (keeps_callAndRoute hJ .start)

theorem handleMarket_spec (hJ : KeptByCalls setup.client J) (ev : MarketEvent) :
    (J k.sent k.exec → J (handleMarket setup ev k).sent (handleMarket setup ev k).exec)
      ∧ (handleMarket setup ev k).delivered = k.delivered + 1 := by
  have hkeeps : Keeps J { k with
      oms := { k.oms with cache := k.oms.cache.process ev }
      delivered := k.delivered + 1 } (handleMarket setup ev k) :=
    ((SameClient.dispatchMarket ev).keeps.trans (keeps_routeOutbox hJ)).trans
      SameClient.emitPortfolio.keeps
  exact hkeeps

/-- **What a round can do.** -/
theorem iterate_cases {feed' : List MarketEvent} (h : iterate setup feed k = some (feed', k')) :
    (∃ r exec, setup.client.recv k.exec = .report r exec ∧ feed' = feed
        ∧ k' = handleReport setup r { k with exec := exec, rounds := k.rounds + 1 })
      ∨ ∃ ev, setup.client.recv k.exec = .empty ∧ feed = ev :: feed'
        ∧ k' = handleMarket setup ev { k with rounds := k.rounds + 1 } := by
  unfold iterate at h
  split_ifs at h
  split at h
  · rename_i r exec hrecv
    cases h
    exact .inl ⟨r, exec, hrecv, rfl, rfl⟩
  · cases h
  · cases h
  · rename_i hrecv
    cases h
    exact .inr ⟨_, hrecv, rfl, rfl⟩

/-! ## Whole runs -/

theorem Looped.respects (h : Looped setup events feed k) (hJ : Respects setup.client J)
    (hinit : J [] setup.exec) : J k.sent k.exec := by
  have hcalls := hJ.keptByCalls
  induction h with
  | start => exact (keeps_start hcalls).1 hinit
  | iterate _ hiterate ih =>
    obtain ⟨r, exec, hrecv, -, rfl⟩ | ⟨ev, -, -, rfl⟩ := iterate_cases hiterate
    · exact (keeps_handleReport hcalls r).1 (hJ.recv _ _ _ _ ih hrecv)
    · exact (handleMarket_spec hcalls ev).1 ih

/-- **Run rule.** What every call keeps holds of the client in every state of a run. -/
theorem Reached.respects (h : Reached setup events k) (hJ : Respects setup.client J)
    (hinit : J [] setup.exec) : J k.sent k.exec := by
  cases h with
  | loop hlooped => exact hlooped.respects hJ hinit
  | finish hlooped _ =>
    exact (keeps_callAndRoute hJ.keptByCalls .stop).1 (hlooped.respects hJ hinit)

omit [DecimalWidth] in
theorem keptByCalls_true (client : ExecutionClient ε) : KeptByCalls client fun _ _ ↦ True :=
  ⟨fun _ _ _ _ _ _ _ ↦ trivial, fun _ _ _ _ _ _ _ ↦ trivial, fun _ _ _ _ _ _ ↦ trivial⟩

theorem start_delivered : (LiveKernel.start setup).delivered = 0 :=
  (keeps_start (keptByCalls_true setup.client)).2

theorem takeWhile_trace_of_late {n : ℕ} (m : ℕ) (hk : n ≤ k.delivered)
    (hrecv : ∀ r exec, setup.client.recv k.exec ≠ .report r exec) :
    (trace setup m feed k).takeWhile (fun k ↦ k.delivered ≤ n) = [] := by
  cases m with
  | zero => rfl
  | succ m =>
    rw [trace]
    cases hiterate : iterate setup feed k with
    | none => rfl
    | some next =>
      obtain ⟨r, exec, hreport, -⟩ | ⟨ev, -, -, hnext⟩ := iterate_cases hiterate
      · exact absurd hreport (hrecv r exec)
      · refine List.takeWhile_cons_of_neg ?_
        have hdelivered := (handleMarket_spec (keptByCalls_true setup.client) ev
          (k := { k with rounds := k.rounds + 1 })).2
        rw [decide_eq_true_eq, hnext, hdelivered]
        exact (Nat.lt_succ_of_le hk).not_ge

/-- **Causality.** Feeds that agree on their first events give runs that agree until another event
is delivered. -/
theorem takeWhile_trace_eq (n m : ℕ) {feed₁ feed₂ : List MarketEvent}
    (h : feed₁.take (n - k.delivered) = feed₂.take (n - k.delivered)) (hk : k.delivered ≤ n) :
    (trace setup m feed₁ k).takeWhile (fun k ↦ k.delivered ≤ n)
      = (trace setup m feed₂ k).takeWhile (fun k ↦ k.delivered ≤ n) := by
  have htrue := keptByCalls_true setup.client
  induction m generalizing feed₁ feed₂ k with
  | zero => rfl
  | succ m ih =>
    by_cases hover : k.halted.isSome ∨ setup.stop k.rounds = true
    · simp only [trace, iterate, if_pos hover]
    cases hrecv : setup.client.recv k.exec with
    | closed => simp only [trace, iterate, if_neg hover, hrecv]
    | report r exec =>
      simp only [trace, iterate, if_neg hover, hrecv]
      set k' := handleReport setup r { k with exec := exec, rounds := k.rounds + 1 }
      have hdelivered : k'.delivered = k.delivered := (keeps_handleReport htrue r).2
      rw [List.takeWhile_cons, List.takeWhile_cons, ih (hdelivered ▸ h) (hdelivered ▸ hk)]
    | empty =>
      have hnone : ∀ r exec, setup.client.recv k.exec ≠ .report r exec := by
        intro r exec hreport
        rw [hrecv] at hreport
        cases hreport
      rcases hk.eq_or_lt with hlast | hmore
      · rw [takeWhile_trace_of_late (m + 1) hlast.ge hnone,
          takeWhile_trace_of_late (m + 1) hlast.ge hnone]
      · -- both feeds are empty, or start with the same event
        obtain ⟨d, hd⟩ := Nat.exists_eq_succ_of_ne_zero (Nat.sub_pos_of_lt hmore).ne'
        rw [hd] at h
        cases feed₁ with
        | nil =>
          cases feed₂ with
          | nil => rfl
          | cons ev rest => cases h
        | cons ev rest₁ =>
          cases feed₂ with
          | nil => cases h
          | cons ev' rest₂ =>
            obtain ⟨rfl, hrest⟩ := List.cons.inj h
            simp only [trace, iterate, if_neg hover, hrecv]
            set k' := handleMarket setup ev { k with rounds := k.rounds + 1 }
            have hdelivered : k'.delivered = k.delivered + 1 := (handleMarket_spec htrue ev).2
            have hleft : n - k'.delivered = d := by
              rw [hdelivered, Nat.sub_add_eq, hd]
              rfl
            rw [List.takeWhile_cons, List.takeWhile_cons,
              ih (hleft.symm ▸ hrest) (hdelivered ▸ hmore)]

theorem upTo_congr {n : ℕ} (m : ℕ) {events₁ events₂ : List MarketEvent}
    (h : events₁.take n = events₂.take n) : upTo setup n m events₁ = upTo setup n m events₂ := by
  have hzero : (start setup).delivered = 0 := start_delivered
  have hleft : events₁.take (n - (start setup).delivered)
      = events₂.take (n - (start setup).delivered) := by
    rw [hzero, Nat.sub_zero]
    exact h
  unfold upTo
  rw [List.takeWhile_cons, List.takeWhile_cons,
    takeWhile_trace_eq n m hleft (hzero ▸ Nat.zero_le n)]

theorem Looped.of_mem_trace {m : ℕ} (h : Looped setup events feed k)
    (hk' : k' ∈ trace setup m feed k) : ∃ feed', Looped setup events feed' k' := by
  induction m generalizing feed k with
  | zero => cases hk'
  | succ m ih =>
    rw [trace] at hk'
    split at hk'
    · cases hk'
    · rename_i next hiterate
      rcases List.mem_cons.mp hk' with rfl | hk'
      · exact ⟨next.1, h.iterate hiterate⟩
      · exact ih (h.iterate hiterate) hk'

theorem Reached.of_mem_upTo {n m : ℕ} (h : k ∈ upTo setup n m events) :
    Reached setup events k := by
  rcases List.mem_cons.mp ((List.takeWhile_subset _) h) with rfl | hk
  · exact .loop .start
  · obtain ⟨feed, hlooped⟩ := Looped.of_mem_trace .start hk
    exact .loop hlooped

end LiveKernel

end Coinext
