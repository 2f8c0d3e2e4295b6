import Coinext.Kernel.Handlers

/-!
# What a strategy submits

A live kernel keeps no record of the orders that its strategy has submitted: the outbox is emptied
when it is routed. `LiveSetup.logged` is the setup whose strategy also keeps that record and does
nothing else differently. Its runs are the runs of the setup: forgetting the record of one gives a
run of the setup (`Reached.forget`), and every run of the setup is obtained in this way
(`Reached.exists_logged`).
-/

namespace Coinext

/-! ## Programs -/

namespace Program

variable {α : Type}

/-- The program, which in the end also answers with the orders it has submitted, after some earlier
ones. -/
def logged : Program α → List Order → Program (α × List Order)
  | .done a, log => .done (a, log)
  | .nowNs k, log => .nowNs fun ts ↦ (k ts).logged log
  | .setTimer name ts k, log => .setTimer name ts fun id ↦ (k id).logged log
  | .cancelTimer id next, log => .cancelTimer id (next.logged log)
  | .position id k, log => .position id fun p ↦ (k p).logged log
  | .quote id k, log => .quote id fun q ↦ (k q).logged log
  | .mark id k, log => .mark id fun m ↦ (k m).logged log
  | .orderBook id k, log => .orderBook id fun b ↦ (k b).logged log
  | .instrument id k, log => .instrument id fun i ↦ (k i).logged log
  | .order spec k, log => .order spec fun o ↦ (k o).logged log
  | .seq k, log => .seq fun n ↦ (k n).logged log
  | .restoreSeq n next, log => .restoreSeq n (next.logged log)
  | .emit (.submit o) next, log => .emit (.submit o) (next.logged (log ++ [o]))
  | .emit (.cancel id) next, log => .emit (.cancel id) (next.logged log)
  | .emit (.modify id quantity price) next, log =>
    .emit (.modify id quantity price) (next.logged log)

theorem Runs.of_logged {p : Program α} {log log' : List Order} {f f' : OrderFactory}
    {cmds : List StrategyCommand} {a : α} (h : (p.logged log).Runs f cmds (a, log') f') :
    p.Runs f cmds a f' ∧ log' = log ++ submittedOrders cmds := by
  induction p generalizing log f cmds with
  | done a =>
    cases h
    exact ⟨.done a _, (List.append_nil _).symm⟩
  | nowNs k ih =>
    cases h with
    | nowNs ts h => exact (ih ts h).imp_left (.nowNs ts)
  | setTimer name ts k ih =>
    cases h with
    | setTimer id h => exact (ih id h).imp_left (.setTimer id)
  | cancelTimer id next ih =>
    cases h with
    | cancelTimer h => exact (ih h).imp_left .cancelTimer
  | position id k ih =>
    cases h with
    | position p h => exact (ih p h).imp_left (.position p)
  | quote id k ih =>
    cases h with
    | quote q h => exact (ih q h).imp_left (.quote q)
  | mark id k ih =>
    cases h with
    | mark m h => exact (ih m h).imp_left (.mark m)
  | orderBook id k ih =>
    cases h with
    | orderBook b h => exact (ih b h).imp_left (.orderBook b)
  | instrument id k ih =>
    cases h with
    | instrument i h => exact (ih i h).imp_left (.instrument i)
  | order spec k ih =>
    cases h with
    | order h => exact (ih _ h).imp_left .order
  | seq k ih =>
    cases h with
    | seq h => exact (ih _ h).imp_left .seq
  | restoreSeq n next ih =>
    cases h with
    | restoreSeq h => exact (ih h).imp_left .restoreSeq
  | emit cmd next ih =>
    cases cmd with
    | submit o =>
      cases h with
      | emit h =>
        obtain ⟨hruns, rfl⟩ := ih h
        exact ⟨.emit hruns, List.append_assoc log [o] _⟩
    | cancel id =>
      cases h with
      | emit h => exact (ih h).imp_left .emit
    | modify id quantity price =>
      cases h with
      | emit h => exact (ih h).imp_left .emit

end Program

/-! ## Strategies and setups -/

variable {σ ε : Type}

/-- The strategy, with the orders it has submitted so far. -/
def Strategy.logged (s : Strategy σ) : Strategy (σ × List Order) :=
  ⟨fun st cb ↦ (s.handle st.1 cb).logged st.2⟩

def LiveSetup.logged (setup : LiveSetup σ ε) : LiveSetup (σ × List Order) ε where
  config := setup.config
  strategyId := setup.strategyId
  strategy := setup.strategy.logged
  initial := (setup.initial, [])
  killed := setup.killed
  client := setup.client
  exec := setup.exec
  clock := setup.clock
  stop := setup.stop
  callbackFails := setup.callbackFails

/-! ## Runs -/

namespace LiveKernel

/-- The kernel without the record. -/
def forget (k : LiveKernel (σ × List Order) ε) : LiveKernel σ ε where
  oms := k.oms
  strategy := k.strategy.1
  factory := k.factory
  outbox := k.outbox
  exec := k.exec
  nextTimer := k.nextTimer
  readings := k.readings
  snapshots := k.snapshots
  rounds := k.rounds
  halted := k.halted
  delivered := k.delivered
  sent := k.sent

section Forget

variable {setup : LiveSetup σ ε}

@[simp] theorem logged_config : setup.logged.config = setup.config := rfl

@[simp] theorem logged_killed : setup.logged.killed = setup.killed := rfl

@[simp] theorem logged_client : setup.logged.client = setup.client := rfl

@[simp] theorem forget_oms (k : LiveKernel (σ × List Order) ε) : k.forget.oms = k.oms := rfl

@[simp] theorem forget_exec (k : LiveKernel (σ × List Order) ε) : k.forget.exec = k.exec := rfl

/-- A logged program runs as the program does. -/
theorem forget_runProgram (setup : LiveSetup σ ε) {α : Type} (p : Program α) (log : List Order)
    (k : LiveKernel (σ × List Order) ε) :
    (runProgram setup.logged (p.logged log) k).1.1 = (runProgram setup p k.forget).1
      ∧ (runProgram setup.logged (p.logged log) k).2.forget
        = (runProgram setup p k.forget).2 := by
  induction p generalizing log k with
  | done a => exact ⟨rfl, rfl⟩
  | nowNs cont ih | setTimer name ts cont ih | position id cont ih | quote id cont ih
  | mark id cont ih | orderBook id cont ih | instrument id cont ih | order spec cont ih
  | seq cont ih => exact ih _ log _
  | cancelTimer id next ih | restoreSeq seq next ih => exact ih log _
  | emit cmd next ih =>
    cases cmd with
    | submit o => exact ih (log ++ [o]) _
    | cancel id => exact ih log _
    | modify id quantity price => exact ih log _

variable (k : LiveKernel (σ × List Order) ε)

theorem forget_call (cb : Callback) :
    (call setup.logged cb k).forget = call setup cb k.forget := by
  obtain ⟨hresult, hkernel⟩ :=
    forget_runProgram setup (setup.strategy.handle k.strategy.1 cb) k.strategy.2 k
  unfold call
  change _ = { (runProgram setup (setup.strategy.handle k.strategy.1 cb) k.forget).2 with
    strategy := (runProgram setup (setup.strategy.handle k.strategy.1 cb) k.forget).1 }
  rw [← hresult, ← hkernel]
  rfl

theorem forget_notifyEvent (ev : OrderEvent) :
    (notifyEvent setup.logged ev k).forget = notifyEvent setup ev k.forget := by
  unfold notifyEvent
  split
  · rw [forget_call, forget_call]
  · exact forget_call k _

theorem forget_notifyEvents (evs : List OrderEvent) :
    (evs.foldl (fun k ev ↦ notifyEvent setup.logged ev k) k).forget
      = evs.foldl (fun k ev ↦ notifyEvent setup ev k) k.forget :=
  (List.foldl_hom forget fun k ev ↦ (forget_notifyEvent k ev).symm).symm

theorem forget_dispatchMarket (ev : MarketEvent) :
    (dispatchMarket setup.logged ev k).forget = dispatchMarket setup ev k.forget := by
  cases ev with
  | quote q => exact forget_call k _
  | trade t => exact forget_call k _
  | bar b => exact forget_call k _
  | delta d =>
    have hcache : k.forget.oms.cache.orderBook d.instrumentId
        = k.oms.cache.orderBook d.instrumentId := rfl
    simp only [dispatchMarket, hcache]
    cases k.oms.cache.orderBook d.instrumentId with
    | some book => exact forget_call k _
    | none => rfl

theorem forget_emitPortfolio :
    (emitPortfolio setup.logged k).forget = emitPortfolio setup k.forget := by
  unfold emitPortfolio
  change _ = if k.halted.isSome then _ else _
  by_cases hhalted : k.halted.isSome
  · rw [if_pos hhalted, if_pos hhalted]
  · rw [if_neg hhalted, if_neg hhalted]
    rfl

theorem forget_sendOrder (order : Order) :
    (sendOrder setup.logged order k).forget = sendOrder setup order k.forget := by
  simp only [sendOrder, logged_client, forget_exec]
  cases setup.client.submitOrder order k.exec <;> rfl

variable [DecimalWidth]

theorem forget_trackOrder (order : Order) (ev : OrderEvent) :
    (trackOrder setup.logged order ev k).forget = trackOrder setup order ev k.forget :=
  forget_notifyEvent _ ev

theorem forget_applyReport (report : ExecutionReport) (now : UnixNanos) :
    (applyReport setup.logged report now k).forget = applyReport setup report now k.forget :=
  forget_notifyEvents _ _

theorem forget_route (now : UnixNanos) (cmd : StrategyCommand) :
    (route setup.logged now k cmd).forget = route setup now k.forget cmd := by
  unfold route
  change _ = if k.halted.isSome then _ else _
  by_cases hhalted : k.halted.isSome
  · rw [if_pos hhalted, if_pos hhalted]
  rw [if_neg hhalted, if_neg hhalted]
  cases cmd with
  | submit order =>
    by_cases hknown : (k.oms.cache.order order.clientOrderId).isSome
    · exact (congrArg forget (if_pos hknown)).trans (if_pos hknown).symm
    refine (congrArg forget (if_neg hknown)).trans (Eq.trans ?_ (if_neg hknown).symm)
    simp only [forget_oms]
    cases k.oms.cache.instrument order.instrumentId with
    | none => rfl
    | some inst =>
      simp only [logged_config, logged_killed]
      cases (RiskGate.riskEngine k.oms.cache setup.config.risk setup.killed).check order
        (PortfolioState.portfolio k.oms.cache setup.config.settle) inst with
      | approved => exact (forget_sendOrder _ _).trans (congrArg _ (forget_trackOrder k order _))
      | denied reason => exact forget_trackOrder k order _
  | cancel id =>
    simp only [forget_oms]
    cases k.oms.cache.order id with
    | none => rfl
    | some o =>
      have hnotified : (((ExecutionEngine.applyToOrder id (.pendingCancel now) k.oms).1.foldl
          (fun k ev ↦ notifyEvent setup.logged ev k)
          { k with oms := (ExecutionEngine.applyToOrder id (.pendingCancel now) k.oms).2 }).forget
          = (ExecutionEngine.applyToOrder id (.pendingCancel now) k.oms).1.foldl
          (fun k ev ↦ notifyEvent setup ev k)
          { k.forget with
            oms := (ExecutionEngine.applyToOrder id (.pendingCancel now) k.oms).2 }) :=
        forget_notifyEvents _ _
      simp only [logged_client]
      rw [← hnotified]
      generalize (ExecutionEngine.applyToOrder id (.pendingCancel now) k.oms).1.foldl
        (fun k ev ↦ notifyEvent setup.logged ev k)
        { k with oms := (ExecutionEngine.applyToOrder id (.pendingCancel now) k.oms).2 } = k'
      simp only [forget_exec]
      cases setup.client.cancelOrder id o.instrumentId k'.exec <;> rfl
  | modify id quantity price => rfl

theorem forget_routeOutbox : (routeOutbox setup.logged k).forget = routeOutbox setup k.forget := by
  unfold routeOutbox
  by_cases hempty : k.outbox = []
  · exact (congrArg forget (if_pos hempty)).trans (if_pos hempty).symm
  · refine (congrArg forget (if_neg hempty)).trans (Eq.trans ?_ (if_neg hempty).symm)
    exact (List.foldl_hom forget fun k' cmd ↦ (forget_route k' _ cmd).symm).symm

theorem forget_callAndRoute (cb : Callback) :
    (callAndRoute setup.logged cb k).forget = callAndRoute setup cb k.forget := by
  unfold callAndRoute
  by_cases hhalted : k.halted.isSome
  · exact (congrArg forget (if_pos hhalted)).trans (if_pos hhalted).symm
  · refine (congrArg forget (if_neg hhalted)).trans (Eq.trans ?_ (if_neg hhalted).symm)
    rw [forget_routeOutbox, forget_call]

theorem forget_handleReport (report : ExecutionReport) :
    (handleReport setup.logged report k).forget = handleReport setup report k.forget := by
  unfold handleReport
  rw [forget_emitPortfolio, forget_routeOutbox, forget_applyReport]
  rfl

theorem forget_handleMarket (ev : MarketEvent) :
    (handleMarket setup.logged ev k).forget = handleMarket setup ev k.forget := by
  unfold handleMarket
  rw [forget_emitPortfolio, forget_routeOutbox, forget_dispatchMarket]
  rfl

theorem forget_iterate (feed : List MarketEvent) :
    (iterate setup.logged feed k).map (Prod.map id forget) = iterate setup feed k.forget := by
  unfold iterate
  by_cases hleft : k.halted.isSome ∨ setup.stop k.rounds = true
  · exact (congrArg (Option.map _) (if_pos hleft)).trans (if_pos hleft).symm
  refine (congrArg (Option.map _) (if_neg hleft)).trans (Eq.trans ?_ (if_neg hleft).symm)
  simp only [logged_client, forget_exec]
  cases setup.client.recv k.exec with
  | report r exec => exact congrArg (fun k ↦ some (feed, k)) (forget_handleReport _ r)
  | closed => rfl
  | empty =>
    cases feed with
    | nil => rfl
    | cons ev rest => exact congrArg (fun k ↦ some (rest, k)) (forget_handleMarket _ ev)

theorem forget_reconcile : (reconcile setup.logged k).forget = reconcile setup k.forget := by
  simp only [reconcile, now, logged_client, forget_exec]
  cases setup.client.reconcile k.exec with
  | failed => rfl
  | waits => rfl
  | ok answer =>
    refine (List.foldl_hom forget fun k' report ↦ ?_).symm
    by_cases hhalted : k'.halted.isSome
    · exact (if_pos hhalted).trans (congrArg forget (if_pos hhalted)).symm
    · refine (if_neg hhalted).trans (Eq.trans ?_ (congrArg forget (if_neg hhalted)).symm)
      rw [forget_emitPortfolio, forget_applyReport]
      rfl

end Forget

section Runs

variable [DecimalWidth] {setup : LiveSetup σ ε} {events feed : List MarketEvent}

theorem forget_start : (start setup.logged).forget = start setup := by
  unfold start
  rw [forget_callAndRoute, forget_reconcile]
  rfl

theorem forget_finish (k : LiveKernel (σ × List Order) ε) :
    (finish setup.logged k).forget = finish setup k.forget :=
  forget_callAndRoute k .stop

theorem Looped.forget {k : LiveKernel (σ × List Order) ε} (h : Looped setup.logged events feed k) :
    Looped setup events feed k.forget := by
  induction h with
  | start =>
    rw [forget_start]
    exact .start
  | @iterate feed feed' k k' _ hiterate ih =>
    refine ih.iterate ?_
    rw [← forget_iterate, hiterate]
    rfl

/-- **Forgetting the record.** A run of the logged setup is one of the setup. -/
theorem Reached.forget {k : LiveKernel (σ × List Order) ε} (h : Reached setup.logged events k) :
    Reached setup events k.forget := by
  cases h with
  | loop hlooped => exact .loop hlooped.forget
  | @finish feed k hlooped hleft =>
    rw [forget_finish]
    refine .finish hlooped.forget ?_
    rw [← forget_iterate, hleft]
    rfl

theorem Looped.exists_logged {k : LiveKernel σ ε} (h : Looped setup events feed k) :
    ∃ k', Looped setup.logged events feed k' ∧ k'.forget = k := by
  induction h with
  | start => exact ⟨_, .start, forget_start⟩
  | @iterate feed feed' k next _ hiterate ih =>
    obtain ⟨k', hlooped, rfl⟩ := ih
    rw [← forget_iterate, Option.map_eq_some_iff] at hiterate
    obtain ⟨⟨rest, next'⟩, hiterate, heq⟩ := hiterate
    obtain ⟨rfl, rfl⟩ := Prod.mk.inj heq
    exact ⟨next', hlooped.iterate hiterate, rfl⟩

/-- **Recording a run.** Every run of the setup is one of the logged setup without its record. -/
theorem Reached.exists_logged {k : LiveKernel σ ε} (h : Reached setup events k) :
    ∃ k', Reached setup.logged events k' ∧ k'.forget = k := by
  cases h with
  | loop hlooped =>
    obtain ⟨k', hlooped, hforget⟩ := hlooped.exists_logged
    exact ⟨k', .loop hlooped, hforget⟩
  | finish hlooped hleft =>
    obtain ⟨k', hlogged, rfl⟩ := hlooped.exists_logged
    rw [← forget_iterate, Option.map_eq_none_iff] at hleft
    exact ⟨_, .finish hlogged hleft, forget_finish k'⟩

end Runs

end LiveKernel

end Coinext
