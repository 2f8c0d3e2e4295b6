import Coinext.Kernel.Backtest
import Coinext.Kernel.Live

/-!
# What a handler does

A handler is continued by what the platform answers, and the kernels answer from their own states.
What the answers cannot change is how the handler deals with the order factory and the outbox: that
is `Program.Runs`, over all answers. Both kernels run a program in one of these ways
(`LiveKernel.runs_runProgram`, `BacktestKernel.runs_runProgram`), and touch the factory and the
strategy's state in no other way (`LiveKernel.Reached.handlers`).
-/

namespace Coinext

/-- The orders that are submitted by some commands. -/
def submittedOrders (cmds : List StrategyCommand) : List Order :=
  cmds.filterMap fun
    | .submit order => some order
    | _ => none

namespace Program

/-- From a factory, the commands a program leaves in the outbox, its result and the factory it
leaves, for some answers of the platform. -/
inductive Runs {α : Type} :
    Program α → OrderFactory → List StrategyCommand → α → OrderFactory → Prop where
  | done (a : α) (f : OrderFactory) : Runs (.done a) f [] a f
  | nowNs {k : UnixNanos → Program α} {f f' : OrderFactory} {cmds : List StrategyCommand} {a : α}
      (ts : UnixNanos) (h : Runs (k ts) f cmds a f') : Runs (.nowNs k) f cmds a f'
  | setTimer {name : String} {ts : UnixNanos} {k : TimerId → Program α} {f f' : OrderFactory}
      {cmds : List StrategyCommand} {a : α} (id : TimerId) (h : Runs (k id) f cmds a f') :
      Runs (.setTimer name ts k) f cmds a f'
  | cancelTimer {id : TimerId} {next : Program α} {f f' : OrderFactory}
      {cmds : List StrategyCommand} {a : α} (h : Runs next f cmds a f') :
      Runs (.cancelTimer id next) f cmds a f'
  | position {id : InstrumentId} {k : Option Position → Program α} {f f' : OrderFactory}
      {cmds : List StrategyCommand} {a : α} (p : Option Position) (h : Runs (k p) f cmds a f') :
      Runs (.position id k) f cmds a f'
  | quote {id : InstrumentId} {k : Option QuoteTick → Program α} {f f' : OrderFactory}
      {cmds : List StrategyCommand} {a : α} (q : Option QuoteTick) (h : Runs (k q) f cmds a f') :
      Runs (.quote id k) f cmds a f'
  | mark {id : InstrumentId} {k : Option Price → Program α} {f f' : OrderFactory}
      {cmds : List StrategyCommand} {a : α} (m : Option Price) (h : Runs (k m) f cmds a f') :
      Runs (.mark id k) f cmds a f'
  | orderBook {id : InstrumentId} {k : Option OrderBook → Program α} {f f' : OrderFactory}
      {cmds : List StrategyCommand} {a : α} (b : Option OrderBook) (h : Runs (k b) f cmds a f') :
      Runs (.orderBook id k) f cmds a f'
  | instrument {id : InstrumentId} {k : Option Instrument → Program α} {f f' : OrderFactory}
      {cmds : List StrategyCommand} {a : α} (i : Option Instrument) (h : Runs (k i) f cmds a f') :
      Runs (.instrument id k) f cmds a f'
  | order {spec : OrderSpec} {k : Order → Program α} {f f' : OrderFactory}
      {cmds : List StrategyCommand} {a : α}
      (h : Runs (k (f.make spec).1) (f.make spec).2 cmds a f') : Runs (.order spec k) f cmds a f'
  | seq {k : ℕ → Program α} {f f' : OrderFactory} {cmds : List StrategyCommand} {a : α}
      (h : Runs (k f.seq) f cmds a f') : Runs (.seq k) f cmds a f'
  | restoreSeq {seq : ℕ} {next : Program α} {f f' : OrderFactory} {cmds : List StrategyCommand}
      {a : α} (h : Runs next { f with seq := seq } cmds a f') :
      Runs (.restoreSeq seq next) f cmds a f'
  | emit {cmd : StrategyCommand} {next : Program α} {f f' : OrderFactory}
      {cmds : List StrategyCommand} {a : α} (h : Runs next f cmds a f') :
      Runs (.emit cmd next) f (cmd :: cmds) a f'

namespace Runs

variable {α : Type} {f f' : OrderFactory} {cmds : List StrategyCommand} {a : α}

theorem strategyId {p : Program α} (h : Runs p f cmds a f') : f'.strategyId = f.strategyId := by
  induction h with
  | done => rfl
  | nowNs _ _ ih | setTimer _ _ ih | cancelTimer _ ih | position _ _ ih | quote _ _ ih
  | mark _ _ ih | orderBook _ _ ih | instrument _ _ ih | order _ ih | seq _ ih | restoreSeq _ ih
  | emit _ ih => exact ih

/-- An order is built at the current time, submitted, and its id answered. -/
theorem of_submitSpec {spec : UnixNanos → OrderSpec} {k : ClientOrderId → Program α}
    (h : Runs (.submitSpec spec k) f cmds a f') :
    ∃ ts cmds', cmds = .submit (f.make (spec ts)).1 :: cmds'
      ∧ Runs (k (f.make (spec ts)).1.clientOrderId) (f.make (spec ts)).2 cmds' a f' := by
  cases h with
  | nowNs ts h =>
    cases h with
    | order h =>
      cases h with
      | emit h => exact ⟨ts, _, rfl, h⟩

theorem of_submitTrailingStop {id : InstrumentId} {side : OrderSide} {qty : Quantity}
    {offset : Price} {k : ClientOrderId → Program α}
    (h : Runs (.submitTrailingStop id side qty offset k) f cmds a f') :
    ∃ trigger ts cmds', cmds = .submit (f.make (.trailingStop id side qty trigger ts)).1 :: cmds'
      ∧ Runs (k (f.make (.trailingStop id side qty trigger ts)).1.clientOrderId)
        (f.make (.trailingStop id side qty trigger ts)).2 cmds' a f' := by
  cases h with
  | nowNs ts h =>
    cases h with
    | mark m h =>
      cases h with
      | order h =>
        cases h with
        | emit h => exact ⟨_, ts, _, rfl, h⟩

end Runs

end Program

open Program

variable {σ ε α : Type} [DecimalWidth]

omit [DecimalWidth] in
/-- The live kernel runs a program in one of the ways it can go. -/
theorem LiveKernel.runs_runProgram (setup : LiveSetup σ ε) (p : Program α) (k : LiveKernel σ ε) :
    ∃ cmds, Runs p k.factory cmds (runProgram setup p k).1 (runProgram setup p k).2.factory
      ∧ (runProgram setup p k).2.outbox = k.outbox ++ cmds
      ∧ (runProgram setup p k).2.strategy = k.strategy := by
  induction p generalizing k with
  | done a => exact ⟨[], .done a _, (List.append_nil _).symm, rfl⟩
  | nowNs cont ih =>
    obtain ⟨cmds, hruns, hout⟩ := ih (now setup k).1 (now setup k).2
    exact ⟨cmds, .nowNs _ hruns, hout⟩
  | setTimer name ts cont ih =>
    obtain ⟨cmds, hruns, hout⟩ := ih ⟨k.nextTimer⟩ { k with nextTimer := k.nextTimer + 1 }
    exact ⟨cmds, .setTimer _ hruns, hout⟩
  | cancelTimer id next ih =>
    obtain ⟨cmds, hruns, hout⟩ := ih k
    exact ⟨cmds, .cancelTimer hruns, hout⟩
  | position id cont ih =>
    obtain ⟨cmds, hruns, hout⟩ := ih (k.oms.cache.position id) k
    exact ⟨cmds, .position _ hruns, hout⟩
  | quote id cont ih =>
    obtain ⟨cmds, hruns, hout⟩ := ih (k.oms.cache.quote id) k
    exact ⟨cmds, .quote _ hruns, hout⟩
  | mark id cont ih =>
    obtain ⟨cmds, hruns, hout⟩ := ih (k.oms.cache.mark id) k
    exact ⟨cmds, .mark _ hruns, hout⟩
  | orderBook id cont ih =>
    obtain ⟨cmds, hruns, hout⟩ := ih (k.oms.cache.orderBook id) k
    exact ⟨cmds, .orderBook _ hruns, hout⟩
  | instrument id cont ih =>
    obtain ⟨cmds, hruns, hout⟩ := ih (k.oms.cache.instrument id) k
    exact ⟨cmds, .instrument _ hruns, hout⟩
  | order spec cont ih =>
    obtain ⟨cmds, hruns, hout⟩ := ih (k.factory.make spec).1
      { k with factory := (k.factory.make spec).2 }
    exact ⟨cmds, .order hruns, hout⟩
  | seq cont ih =>
    obtain ⟨cmds, hruns, hout⟩ := ih k.factory.seq k
    exact ⟨cmds, .seq hruns, hout⟩
  | restoreSeq seq next ih =>
    obtain ⟨cmds, hruns, hout⟩ := ih { k with factory := { k.factory with seq := seq } }
    exact ⟨cmds, .restoreSeq hruns, hout⟩
  | emit cmd next ih =>
    obtain ⟨cmds, hruns, hout, hstrategy⟩ := ih { k with outbox := k.outbox ++ [cmd] }
    exact ⟨cmd :: cmds, .emit hruns, hout.trans (List.append_assoc _ [cmd] cmds), hstrategy⟩

theorem BacktestKernel.runs_runProgram (setup : Setup σ) (p : Program α) (k : BacktestKernel σ) :
    ∃ cmds, Runs p k.factory cmds (runProgram setup p k).1 (runProgram setup p k).2.factory
      ∧ (runProgram setup p k).2.outbox = k.outbox ++ cmds := by
  induction p generalizing k with
  | done a => exact ⟨[], .done a _, (List.append_nil _).symm⟩
  | nowNs cont ih =>
    obtain ⟨cmds, hruns, hout⟩ := ih k.core.clock.now k
    exact ⟨cmds, .nowNs _ hruns, hout⟩
  | setTimer name ts cont ih =>
    obtain ⟨cmds, hruns, hout⟩ := ih (k.core.clock.setTimer name ts).1
      (perform setup (.setTimer name ts) k).2
    exact ⟨cmds, .setTimer _ hruns, hout⟩
  | cancelTimer id next ih =>
    obtain ⟨cmds, hruns, hout⟩ := ih (perform setup (.cancelTimer id) k).2
    exact ⟨cmds, .cancelTimer hruns, hout⟩
  | position id cont ih =>
    obtain ⟨cmds, hruns, hout⟩ := ih (k.core.oms.cache.position id) k
    exact ⟨cmds, .position _ hruns, hout⟩
  | quote id cont ih =>
    obtain ⟨cmds, hruns, hout⟩ := ih (k.core.oms.cache.quote id) k
    exact ⟨cmds, .quote _ hruns, hout⟩
  | mark id cont ih =>
    obtain ⟨cmds, hruns, hout⟩ := ih (k.core.oms.cache.mark id) k
    exact ⟨cmds, .mark _ hruns, hout⟩
  | orderBook id cont ih =>
    obtain ⟨cmds, hruns, hout⟩ := ih (k.core.oms.cache.orderBook id) k
    exact ⟨cmds, .orderBook _ hruns, hout⟩
  | instrument id cont ih =>
    obtain ⟨cmds, hruns, hout⟩ := ih (k.core.oms.cache.instrument id) k
    exact ⟨cmds, .instrument _ hruns, hout⟩
  | order spec cont ih =>
    obtain ⟨cmds, hruns, hout⟩ := ih (k.factory.make spec).1
      { k with factory := (k.factory.make spec).2 }
    exact ⟨cmds, .order hruns, hout⟩
  | seq cont ih =>
    obtain ⟨cmds, hruns, hout⟩ := ih k.factory.seq k
    exact ⟨cmds, .seq hruns, hout⟩
  | restoreSeq seq next ih =>
    obtain ⟨cmds, hruns, hout⟩ := ih { k with factory := { k.factory with seq := seq } }
    exact ⟨cmds, .restoreSeq hruns, hout⟩
  | emit cmd next ih =>
    obtain ⟨cmds, hruns, hout⟩ := ih { k with outbox := k.outbox ++ [cmd] }
    exact ⟨cmd :: cmds, .emit hruns, hout.trans (List.append_assoc _ [cmd] cmds)⟩

namespace LiveKernel

/-- Every handler keeps a property of the strategy's state and the factory. -/
def HandlersKeep (setup : LiveSetup σ ε) (I : σ → OrderFactory → Prop) : Prop :=
  ∀ s f cb cmds s' f', I s f → Runs (setup.strategy.handle s cb) f cmds s' f' → I s' f'

/-- The second state has the property if the first has it. -/
def Carries (I : σ → OrderFactory → Prop) (k k' : LiveKernel σ ε) : Prop :=
  I k.strategy k.factory → I k'.strategy k'.factory

variable {setup : LiveSetup σ ε} {I : σ → OrderFactory → Prop} {k k' k'' : LiveKernel σ ε}
  {events feed : List MarketEvent}

namespace Carries

omit [DecimalWidth] in
theorem trans (h : Carries I k k') (h' : Carries I k' k'') : Carries I k k'' := h' ∘ h

omit [DecimalWidth] in
theorem call (hI : HandlersKeep setup I) (cb : Callback) : Carries I k (call setup cb k) := by
  intro hk
  obtain ⟨cmds, hruns, -⟩ := runs_runProgram setup (setup.strategy.handle k.strategy cb) k
  exact hI _ _ cb cmds _ _ hk hruns

omit [DecimalWidth] in
theorem notifyEvent (hI : HandlersKeep setup I) (ev : OrderEvent) :
    Carries I k (notifyEvent setup ev k) := by
  unfold LiveKernel.notifyEvent
  split
  · exact (call hI _).trans (call hI _)
  · exact call hI _

omit [DecimalWidth] in
theorem notifyEvents (hI : HandlersKeep setup I) (evs : List OrderEvent) :
    Carries I k (evs.foldl (fun k ev ↦ LiveKernel.notifyEvent setup ev k) k) :=
  foldl_induction (fun _ ev h ↦ h.trans (notifyEvent hI ev)) id evs

omit [DecimalWidth] in
theorem dispatchMarket (hI : HandlersKeep setup I) (ev : MarketEvent) :
    Carries I k (dispatchMarket setup ev k) := by
  unfold LiveKernel.dispatchMarket
  split
  · exact call hI _
  · exact call hI _
  · exact call hI _
  · split
    · exact call hI _
    · exact id

theorem trackOrder (hI : HandlersKeep setup I) (order : Order) (ev : OrderEvent) :
    Carries I k (trackOrder setup order ev k) := by
  refine trans ?_ (notifyEvent hI ev)
  exact id

omit [DecimalWidth] in
theorem sendOrder (order : Order) : Carries I k (sendOrder setup order k) := by
  unfold LiveKernel.sendOrder
  split <;> exact id

theorem route (hI : HandlersKeep setup I) (now : UnixNanos) (cmd : StrategyCommand) :
    Carries I k (route setup now k cmd) := by
  unfold LiveKernel.route
  split_ifs
  · exact id
  cases cmd with
  | submit order =>
    simp only
    split_ifs
    · exact id
    split
    · exact id
    · split
      · exact (trackOrder hI _ _).trans (sendOrder _)
      · exact trackOrder hI _ _
  | cancel id =>
    simp only
    split
    · exact fun h ↦ h
    · intro hk
      have hnotified := notifyEvents hI
        (ExecutionEngine.applyToOrder id (.pendingCancel now) k.oms).1
        (k := { k with oms := (ExecutionEngine.applyToOrder id (.pendingCancel now) k.oms).2 }) hk
      split <;> exact hnotified
  | modify id quantity price => exact fun h ↦ h

theorem routeOutbox (hI : HandlersKeep setup I) : Carries I k (routeOutbox setup k) := by
  unfold LiveKernel.routeOutbox
  split_ifs
  · exact id
  · refine foldl_induction (fun _ cmd h ↦ h.trans (route hI _ cmd)) ?_ _
    exact id

theorem applyReport (hI : HandlersKeep setup I) (report : ExecutionReport) (now : UnixNanos) :
    Carries I k (applyReport setup report now k) := by
  refine trans ?_ (notifyEvents hI _)
  exact id

omit [DecimalWidth] in
theorem emitPortfolio : Carries I k (emitPortfolio setup k) := by
  unfold LiveKernel.emitPortfolio
  split_ifs <;> exact id

theorem callAndRoute (hI : HandlersKeep setup I) (cb : Callback) :
    Carries I k (callAndRoute setup cb k) := by
  unfold LiveKernel.callAndRoute
  split_ifs
  · exact id
  · exact (call hI cb).trans (routeOutbox hI)

theorem reconcile (hI : HandlersKeep setup I) : Carries I k (reconcile setup k) := by
  unfold LiveKernel.reconcile
  simp only
  split
  · rename_i reports exec _
    refine foldl_induction (fun k' report h ↦ ?_) ?_ reports
    · split_ifs
      · exact h
      · exact h.trans ((applyReport hI _ _).trans emitPortfolio)
    · exact id
  · exact id
  · exact id

theorem handleReport (hI : HandlersKeep setup I) (report : ExecutionReport) :
    Carries I k (handleReport setup report k) := by
  have hnow : Carries I k (now setup k).2 := id
  refine hnow.trans ?_
  exact ((applyReport hI _ _).trans (routeOutbox hI)).trans emitPortfolio

theorem handleMarket (hI : HandlersKeep setup I) (ev : MarketEvent) :
    Carries I k (handleMarket setup ev k) := by
  have hprocess : Carries I k { k with
      oms := { k.oms with cache := k.oms.cache.process ev }
      delivered := k.delivered + 1 } := id
  refine hprocess.trans ?_
  exact ((dispatchMarket hI ev).trans (routeOutbox hI)).trans emitPortfolio

theorem iterate (hI : HandlersKeep setup I) {feed' : List MarketEvent}
    (h : iterate setup feed k = some (feed', k')) : Carries I k k' := by
  intro hk
  obtain ⟨r, exec, -, -, rfl⟩ | ⟨ev, -, -, rfl⟩ := iterate_cases h
  · exact handleReport hI r (k := { k with exec := exec, rounds := k.rounds + 1 }) hk
  · exact handleMarket hI ev (k := { k with rounds := k.rounds + 1 }) hk

end Carries

theorem Looped.handlers (hI : HandlersKeep setup I)
    (hinit : I setup.initial (.new setup.strategyId)) (h : Looped setup events feed k) :
    I k.strategy k.factory := by
  induction h with
  | start => exact ((Carries.reconcile hI).trans (Carries.callAndRoute hI .start)) hinit
  | iterate _ hiterate ih => exact Carries.iterate hI hiterate ih

/-- **Handler rule.** What every handler keeps of the strategy's state and the factory holds in
every state of a run. -/
theorem Reached.handlers (hI : HandlersKeep setup I)
    (hinit : I setup.initial (.new setup.strategyId)) (h : Reached setup events k) :
    I k.strategy k.factory := by
  cases h with
  | loop hlooped => exact hlooped.handlers hI hinit
  | finish hlooped _ => exact Carries.callAndRoute hI .stop (hlooped.handlers hI hinit)

end LiveKernel

end Coinext
