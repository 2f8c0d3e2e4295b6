import Coinext.Engine.Ledger
import Coinext.Kernel.Paper

/-!
# The flow of reports through the live kernel

An execution client that has nothing to wait for, such as the paper client, enqueues the reports of
a call before the call returns. The loop takes them one a round, before it takes another market
event, so a report is folded some rounds after its order was sent.

The loop ends when the market stream does, and then no report is left, since reports come first. But
it is also left as soon as a stop is requested, with whatever waits in the channel at that moment.
And after the loop the commands of `on_stop` are routed, while nobody reads the channel any more:
the reports of an order that is sent there are lost, and the last portfolio does not show its fill.
-/

namespace Coinext

variable {σ ε : Type}

/-- A client that is started with an empty report channel, and that enqueues the reports of a call
before the call returns. The channel hands the reports out in order. -/
structure ReportQueue (client : ExecutionClient ε) (initial : ε) where
  /-- The reports that wait in the channel. -/
  waiting : ε → List ExecutionReport
  waiting_initial : waiting initial = []
  submit : ∀ {o e e'}, client.submitOrder o e = .ok e' → waiting e <+: waiting e'
  cancel : ∀ {id iid e e'}, client.cancelOrder id iid e = .ok e' → waiting e <+: waiting e'
  reconcile : ∀ {e reports e'}, client.reconcile e = .ok (reports, e') → waiting e <+: waiting e'
  recv : ∀ {e r e'}, client.recv e = .report r e' → waiting e = r :: waiting e'
  exists_recv : ∀ {e}, waiting e ≠ [] → ∃ r e', client.recv e = .report r e'

/-- What a round takes from the report channel, and the client after that. -/
def ExecutionClient.take (client : ExecutionClient ε) (e : ε) : List ExecutionReport × ε :=
  match client.recv e with
  | .report r e' => ([r], e')
  | .empty | .closed => ([], e)

/-- The value that a call returns, or another one. -/
def PortOutcome.getD {α : Type} : PortOutcome α → α → α
  | .ok a, _ => a
  | .failed, a | .waits, a => a

namespace ReportQueue

variable {client : ExecutionClient ε} {initial : ε} (q : ReportQueue client initial)

/-- The reports that were enqueued between two states of the client. -/
def added (e e' : ε) : List ExecutionReport := (q.waiting e').drop (q.waiting e).length

variable {q} {e e' : ε}

theorem waiting_append_added (h : q.waiting e <+: q.waiting e') :
    q.waiting e ++ q.added e e' = q.waiting e' :=
  List.prefix_iff_eq_append.mp h

theorem waiting_eq_take : q.waiting e = (client.take e).1 ++ q.waiting (client.take e).2 := by
  unfold ExecutionClient.take
  split
  · rename_i hrecv
    exact q.recv hrecv
  · rfl
  · rfl

end ReportQueue

namespace LiveKernel

variable [DecimalWidth] (setup : LiveSetup σ ε)

/-! ## The reports of a run -/

/-- The state in which the loop is left, if `n` rounds are enough. -/
def leave : ℕ → List MarketEvent → LiveKernel σ ε → Option (LiveKernel σ ε)
  | 0, _, _ => none
  | n + 1, feed, k => match iterate setup feed k with
    | none => some k
    | some next => leave n next.1 next.2

/-- The reports that the rounds of the loop pass to `applyReport`. -/
def foldedReports : ℕ → List MarketEvent → LiveKernel σ ε → List ExecutionReport
  | 0, _, _ => []
  | n + 1, feed, k => match iterate setup feed k with
    | none => []
    | some next => (setup.client.take k.exec).1 ++ foldedReports n next.1 next.2

/-- The reports that the client enqueues in the rounds of the loop. -/
def enqueued (q : ReportQueue setup.client setup.exec) :
    ℕ → List MarketEvent → LiveKernel σ ε → List ExecutionReport
  | 0, _, _ => []
  | n + 1, feed, k => match iterate setup feed k with
    | none => []
    | some next =>
      q.added (setup.client.take k.exec).2 next.2.exec ++ enqueued q n next.1 next.2

/-- A run returns `Ok`, and its loop is left in the state `k`. -/
structure ReturnsOk (n : ℕ) (events : List MarketEvent) (k : LiveKernel σ ε) : Prop where
  left : leave setup n events (start setup) = some k
  halted : (finish setup k).halted = none

/-- The reports that the client enqueues in a whole run: before the loop, in the loop, and for the
commands of `on_stop`. What `reconcile` returns is folded on the spot and is not among them. -/
def caused (q : ReportQueue setup.client setup.exec) (n : ℕ) (events : List MarketEvent)
    (k : LiveKernel σ ε) : List ExecutionReport :=
  q.added setup.exec (start setup).exec ++ enqueued setup q n events (start setup)
    ++ q.added k.exec (finish setup k).exec

/-- A run has folded the reports that it caused, and the engine it ends with has taken every fill
among them. -/
structure FoldsAll (q : ReportQueue setup.client setup.exec) (n : ℕ) (events : List MarketEvent)
    (k : LiveKernel σ ε) : Prop where
  folded : foldedReports setup n events (start setup) = caused setup q n events k
  fills : ∀ f, .fill f ∈ caused setup q n events k →
    f.tradeId ∈ (finish setup k).oms.ledger.seenTradeIds

/-! ## The calls of the last commands -/

/-- The call of the client that a command makes, if it makes one. -/
def clientCall (now : UnixNanos) (k : LiveKernel σ ε) (cmd : StrategyCommand) :
    Option (PortOutcome ε) :=
  if k.halted.isSome then none
  else match cmd with
    | .submit order =>
      if (k.oms.cache.order order.clientOrderId).isSome then none
      else match k.oms.cache.instrument order.instrumentId with
        | none => none
        | some inst =>
          let risk := RiskGate.riskEngine k.oms.cache setup.config.risk setup.killed
          let portfolio := PortfolioState.portfolio k.oms.cache setup.config.settle
          match risk.check order portfolio inst with
          | .approved => some (setup.client.submitOrder (order.applied (.submitted now)) k.exec)
          | .denied _ => none
    | .cancel id => (k.oms.cache.order id).map fun o ↦
        setup.client.cancelOrder id o.instrumentId k.exec
    | .modify .. => none

/-- None of the commands, which are routed in order, makes a call that enqueues a report. -/
def Silent (q : ReportQueue setup.client setup.exec) (now : UnixNanos) :
    LiveKernel σ ε → List StrategyCommand → Prop
  | _, [] => True
  | k, cmd :: cmds =>
    (∀ e, clientCall setup now k cmd = some (.ok e) → q.waiting e = q.waiting k.exec)
      ∧ Silent q now (route setup now k cmd) cmds

/-- No command that `on_stop` leaves makes a call that enqueues a report. -/
def StopsSilent (q : ReportQueue setup.client setup.exec) (k : LiveKernel σ ε) : Prop :=
  let stopped := call setup .stop k
  Silent setup q (now setup stopped).1 { (now setup stopped).2 with outbox := [] } stopped.outbox

variable {setup} {q : ReportQueue setup.client setup.exec} {k k' : LiveKernel σ ε}
  {events feed : List MarketEvent} {n : ℕ}

omit [DecimalWidth] in
theorem exec_sendOrder (order : Order) :
    (sendOrder setup order k).exec = (setup.client.submitOrder order k.exec).getD k.exec := by
  unfold sendOrder
  cases setup.client.submitOrder order k.exec with
  | ok e => rfl
  | failed => rfl
  | waits => rfl

theorem exec_route (now : UnixNanos) (cmd : StrategyCommand) : (route setup now k cmd).exec
    = (clientCall setup now k cmd).elim k.exec (PortOutcome.getD · k.exec) := by
  unfold route clientCall
  split_ifs
  · rfl
  cases cmd with
  | submit order =>
    simp only
    split_ifs
    · rfl
    cases k.oms.cache.instrument order.instrumentId with
    | none => rfl
    | some inst =>
      simp only
      cases (RiskGate.riskEngine k.oms.cache setup.config.risk setup.killed).check order
        (PortfolioState.portfolio k.oms.cache setup.config.settle) inst with
      | approved =>
        rw [exec_sendOrder, (SameClient.trackOrder _ _).exec]
        rfl
      | denied reason => exact (SameClient.trackOrder _ _).exec
  | cancel id =>
    simp only
    cases k.oms.cache.order id with
    | none => rfl
    | some o =>
      have hexec : ((ExecutionEngine.applyToOrder id (.pendingCancel now) k.oms).1.foldl
          (fun k ev ↦ notifyEvent setup ev k)
          { k with oms := (ExecutionEngine.applyToOrder id (.pendingCancel now) k.oms).2 }).exec
          = k.exec := (SameClient.notifyEvents _).exec
      simp only [Option.map_some, hexec]
      cases setup.client.cancelOrder id o.instrumentId k.exec with
      | ok e => rfl
      | failed => rfl
      | waits => rfl
  | modify id quantity price => rfl

theorem waiting_route_iff (now : UnixNanos) (cmd : StrategyCommand) :
    q.waiting (route setup now k cmd).exec = q.waiting k.exec ↔
      ∀ e, clientCall setup now k cmd = some (.ok e) → q.waiting e = q.waiting k.exec := by
  rw [exec_route]
  cases clientCall setup now k cmd with
  | none => simp
  | some outcome =>
    cases outcome with
    | ok e => simp [PortOutcome.getD]
    | failed => simp [PortOutcome.getD]
    | waits => simp [PortOutcome.getD]

/-! ## What waits in the channel -/

omit [DecimalWidth] in
theorem keptByCalls_waiting (q : ReportQueue setup.client setup.exec) (w : List ExecutionReport) :
    KeptByCalls setup.client fun _ e ↦ w <+: q.waiting e where
  submit _ _ _ _ _ h hsubmit := h.trans (q.submit hsubmit)
  cancel _ _ _ _ _ h hcancel := h.trans (q.cancel hcancel)
  reconcile _ _ _ _ h hreconcile := h.trans (q.reconcile hreconcile)

theorem prefix_start : q.waiting setup.exec <+: q.waiting (start setup).exec :=
  (keeps_start (keptByCalls_waiting q _)).1 List.prefix_rfl

theorem prefix_route (now : UnixNanos) (cmd : StrategyCommand) :
    q.waiting k.exec <+: q.waiting (route setup now k cmd).exec :=
  (keeps_route (keptByCalls_waiting q _) now cmd).1 List.prefix_rfl

theorem prefix_routes (now : UnixNanos) (cmds : List StrategyCommand) :
    q.waiting k.exec <+: q.waiting (cmds.foldl (route setup now) k).exec :=
  foldl_induction (I := fun k' : LiveKernel σ ε ↦ q.waiting k.exec <+: q.waiting k'.exec)
    (fun _ cmd h ↦ h.trans (prefix_route now cmd)) List.prefix_rfl cmds

theorem prefix_finish : q.waiting k.exec <+: q.waiting (finish setup k).exec :=
  (keeps_callAndRoute (keptByCalls_waiting q _) .stop).1 List.prefix_rfl

theorem waiting_routes_iff (now : UnixNanos) (cmds : List StrategyCommand) :
    q.waiting (cmds.foldl (route setup now) k).exec = q.waiting k.exec ↔
      Silent setup q now k cmds := by
  induction cmds generalizing k with
  | nil => exact iff_of_true rfl trivial
  | cons cmd cmds ih =>
    rw [Silent, ← waiting_route_iff, ← ih, List.foldl_cons]
    constructor
    · intro h
      -- the channel after the first command lies between the first and the last
      have hrest : q.waiting (route setup now k cmd).exec <+: q.waiting k.exec := by
        rw [← h]
        exact prefix_routes now cmds
      have hfirst := hrest.eq_of_length_le (prefix_route now cmd).length_le
      exact ⟨hfirst, h.trans hfirst.symm⟩
    · rintro ⟨hfirst, hrest⟩
      exact hrest.trans hfirst

theorem waiting_finish_iff (hk : k.halted = none) :
    q.waiting (finish setup k).exec = q.waiting k.exec ↔ StopsSilent setup q k := by
  have hexec : (call setup .stop k).exec = k.exec := (SameClient.call .stop).exec
  rw [finish, callAndRoute, hk, StopsSilent, ← waiting_routes_iff, ← hexec]
  simp only [Option.isSome_none, Bool.false_eq_true, if_false, routeOutbox]
  split_ifs with houtbox
  · rw [houtbox]
    rfl
  · rfl

/-- Once the loop is left, no report waits, unless a stop was requested. -/
theorem waiting_of_left (hleft : iterate setup feed k = none) (hk : k.halted = none)
    (hstop : ¬ setup.stop k.rounds = true) : q.waiting k.exec = [] := by
  by_contra hwaiting
  obtain ⟨r, e, hrecv⟩ := q.exists_recv hwaiting
  simp [iterate, hk, hstop, hrecv] at hleft

theorem prefix_iterate {next : List MarketEvent × LiveKernel σ ε}
    (h : iterate setup feed k = some next) :
    q.waiting (setup.client.take k.exec).2 <+: q.waiting next.2.exec := by
  obtain ⟨r, e, hrecv, -, hnext⟩ | ⟨ev, hrecv, -, hnext⟩ := iterate_cases h
  · rw [hnext, ExecutionClient.take, hrecv]
    exact (keeps_handleReport (keptByCalls_waiting q _) r).1 List.prefix_rfl
  · rw [hnext, ExecutionClient.take, hrecv]
    exact (handleMarket_spec (keptByCalls_waiting q _) ev).1 List.prefix_rfl

/-! ## Conservation -/

theorem exists_left (h : leave setup n feed k = some k') :
    ∃ feed', iterate setup feed' k' = none := by
  induction n generalizing feed k with
  | zero => cases h
  | succ n ih =>
    rw [leave] at h
    cases hiterate : iterate setup feed k with
    | none =>
      rw [hiterate] at h
      cases h
      exact ⟨feed, hiterate⟩
    | some next =>
      rw [hiterate] at h
      exact ih h

/-- **No report is lost in the loop.** What waited and what was enqueued is what was folded and what
waits. -/
theorem waiting_append_enqueued (h : leave setup n feed k = some k') :
    q.waiting k.exec ++ enqueued setup q n feed k
      = foldedReports setup n feed k ++ q.waiting k'.exec := by
  induction n generalizing feed k with
  | zero => cases h
  | succ n ih =>
    rw [leave] at h
    rw [enqueued, foldedReports]
    cases hiterate : iterate setup feed k with
    | none =>
      rw [hiterate] at h
      cases h
      exact List.append_nil _
    | some next =>
      rw [hiterate] at h
      have hround := ReportQueue.waiting_append_added (prefix_iterate hiterate (q := q))
      calc q.waiting k.exec ++ (q.added (setup.client.take k.exec).2 next.2.exec
              ++ enqueued setup q n next.1 next.2)
          = (setup.client.take k.exec).1 ++ (q.waiting (setup.client.take k.exec).2
              ++ q.added (setup.client.take k.exec).2 next.2.exec
              ++ enqueued setup q n next.1 next.2) := by
            rw [ReportQueue.waiting_eq_take]
            simp only [List.append_assoc]
        _ = (setup.client.take k.exec).1 ++ (foldedReports setup n next.1 next.2
              ++ q.waiting k'.exec) := by rw [hround, ih h]
        _ = _ := (List.append_assoc _ _ _).symm

theorem caused_eq (h : ReturnsOk setup n events k) : caused setup q n events k
    = foldedReports setup n events (start setup) ++ q.waiting (finish setup k).exec := by
  have hstart := ReportQueue.waiting_append_added (prefix_start (q := q))
  rw [q.waiting_initial, List.nil_append] at hstart
  rw [caused, hstart, waiting_append_enqueued h.left, List.append_assoc,
    ReportQueue.waiting_append_added prefix_finish]

/-! ## The fills that the engine has taken -/

omit [DecimalWidth] in
theorem oms_runProgram {α : Type} (p : Program α) : (runProgram setup p k).2.oms = k.oms := by
  induction p generalizing k with
  | done a => rfl
  | cancelTimer id next ih => exact ih
  | nowNs cont ih | setTimer name ts cont ih | position id cont ih | quote id cont ih
  | mark id cont ih | orderBook id cont ih | instrument id cont ih | order spec cont ih
  | seq cont ih => exact ih _
  | restoreSeq seq next ih | emit cmd next ih => exact ih

omit [DecimalWidth] in
theorem oms_call (cb : Callback) : (call setup cb k).oms = k.oms := oms_runProgram _

omit [DecimalWidth] in
theorem oms_notifyEvent (ev : OrderEvent) : (notifyEvent setup ev k).oms = k.oms := by
  unfold notifyEvent
  split
  · rw [oms_call, oms_call]
  · exact oms_call _

omit [DecimalWidth] in
theorem oms_notifyEvents (evs : List OrderEvent) :
    (evs.foldl (fun k ev ↦ notifyEvent setup ev k) k).oms = k.oms :=
  foldl_induction (I := fun k' : LiveKernel σ ε ↦ k'.oms = k.oms)
    (fun _ ev h ↦ (oms_notifyEvent ev).trans h) rfl evs

omit [DecimalWidth] in
theorem oms_dispatchMarket (ev : MarketEvent) : (dispatchMarket setup ev k).oms = k.oms := by
  unfold dispatchMarket
  split
  · exact oms_call _
  · exact oms_call _
  · exact oms_call _
  · split
    · exact oms_call _
    · rfl

omit [DecimalWidth] in
theorem oms_emitPortfolio : (emitPortfolio setup k).oms = k.oms := by
  unfold emitPortfolio
  split_ifs <;> rfl

omit [DecimalWidth] in
theorem oms_sendOrder (order : Order) : (sendOrder setup order k).oms = k.oms := by
  unfold sendOrder
  split <;> rfl

theorem ledger_route (now : UnixNanos) (cmd : StrategyCommand) :
    (route setup now k cmd).oms.ledger = k.oms.ledger := by
  have htrack (order : Order) (ev : OrderEvent) :
      (trackOrder setup order ev k).oms.ledger = k.oms.ledger := by
    rw [trackOrder, oms_notifyEvent]
    rfl
  unfold route
  split_ifs
  · rfl
  cases cmd with
  | submit order =>
    simp only
    split_ifs
    · rfl
    split
    · rfl
    · split
      · rw [oms_sendOrder]
        exact htrack _ _
      · exact htrack _ _
  | cancel id =>
    simp only
    split
    · rfl
    · have hledger : ((ExecutionEngine.applyToOrder id (.pendingCancel now) k.oms).1.foldl
          (fun k ev ↦ notifyEvent setup ev k) { k with
            oms := (ExecutionEngine.applyToOrder id (.pendingCancel now) k.oms).2 }).oms.ledger
          = k.oms.ledger := by
        rw [oms_notifyEvents]
        exact ExecutionEngine.ledger_applyToOrder ..
      split <;> exact hledger
  | modify id quantity price => rfl

theorem ledger_routeOutbox : (routeOutbox setup k).oms.ledger = k.oms.ledger := by
  unfold routeOutbox
  split_ifs
  · rfl
  · refine foldl_induction (I := fun k' : LiveKernel σ ε ↦ k'.oms.ledger = k.oms.ledger)
      (fun _ cmd h ↦ (ledger_route _ cmd).trans h) ?_ _
    rfl

theorem ledger_finish : (finish setup k).oms.ledger = k.oms.ledger := by
  unfold finish callAndRoute
  split_ifs
  · rfl
  · rw [ledger_routeOutbox, oms_call]

theorem ledger_handleMarket (ev : MarketEvent) :
    (handleMarket setup ev k).oms.ledger = k.oms.ledger := by
  unfold handleMarket
  rw [oms_emitPortfolio, ledger_routeOutbox, oms_dispatchMarket]

theorem ledger_handleReport (r : ExecutionReport) : (handleReport setup r k).oms.ledger
    = (ExecutionEngine.applyReport r (now setup k).1 k.oms).2.ledger := by
  rw [handleReport, oms_emitPortfolio, ledger_routeOutbox, applyReport, oms_notifyEvents]
  rfl

/-- After a round, the fill that it folded is seen, and what was seen before. -/
theorem mem_seenTradeIds_iterate {next : List MarketEvent × LiveKernel σ ε}
    (h : iterate setup feed k = some next) {f : Fill}
    (hf : .fill f ∈ (setup.client.take k.exec).1 ∨ f.tradeId ∈ k.oms.ledger.seenTradeIds) :
    f.tradeId ∈ next.2.oms.ledger.seenTradeIds := by
  obtain ⟨r, e, hrecv, -, hnext⟩ | ⟨ev, hrecv, -, hnext⟩ := iterate_cases h
  · rw [hnext, ledger_handleReport]
    refine (EngineCall.mem_seenTradeIds_step setup.config.brokerage
      (.report r (setup.clock k.readings))).mpr (hf.symm.imp_right fun hmem ↦ ⟨f, ?_, rfl⟩)
    rw [ExecutionClient.take, hrecv, List.mem_singleton] at hmem
    rw [← hmem]
    rfl
  · rw [ExecutionClient.take, hrecv] at hf
    rw [hnext, ledger_handleMarket]
    exact hf.resolve_left List.not_mem_nil

theorem mem_seenTradeIds_of_folded (h : leave setup n feed k = some k') {f : Fill}
    (hf : .fill f ∈ foldedReports setup n feed k ∨ f.tradeId ∈ k.oms.ledger.seenTradeIds) :
    f.tradeId ∈ k'.oms.ledger.seenTradeIds := by
  induction n generalizing feed k with
  | zero => cases h
  | succ n ih =>
    rw [leave] at h
    rw [foldedReports] at hf
    cases hiterate : iterate setup feed k with
    | none =>
      rw [hiterate] at h hf
      cases h
      exact hf.resolve_left List.not_mem_nil
    | some next =>
      rw [hiterate] at h hf
      refine ih h ?_
      rcases hf with hf | hseen
      · rcases List.mem_append.mp hf with hnow | hlater
        · exact .inr (mem_seenTradeIds_iterate hiterate (.inl hnow))
        · exact .inl hlater
      · exact .inr (mem_seenTradeIds_iterate hiterate (.inr hseen))

/-! ## When every report is folded -/

theorem foldsAll_iff_waiting (h : ReturnsOk setup n events k) :
    FoldsAll setup q n events k ↔ q.waiting (finish setup k).exec = [] := by
  have hcaused := caused_eq h (q := q)
  constructor
  · intro hall
    have hfolded := hall.folded
    rw [hcaused] at hfolded
    exact List.self_eq_append_right.mp hfolded
  · intro hempty
    rw [hempty, List.append_nil] at hcaused
    refine ⟨hcaused.symm, fun f hf ↦ ?_⟩
    rw [hcaused] at hf
    rw [ledger_finish]
    exact mem_seenTradeIds_of_folded h.left (.inl hf)

end LiveKernel

/-! ## Paper runs -/

namespace PaperFillExec

/-- The paper client enqueues the reports of a call before it returns. -/
def reportQueue (px : Price) (settle : Currency) : ReportQueue client (new px settle) where
  waiting := reports
  waiting_initial := rfl
  submit h := by
    obtain ⟨-, seq, -, hreports⟩ := submitOrder_eq_ok h
    rw [hreports]
    exact List.prefix_append ..
  cancel h := by
    obtain rfl := send_eq_ok h
    exact List.prefix_append ..
  reconcile h := by
    cases h
    exact List.prefix_rfl
  recv {e r e'} h := by
    change recv e = _ at h
    unfold recv at h
    split at h
    · cases h
    · rename_i hreports
      cases h
      exact hreports
  exists_recv {e} h := by
    obtain ⟨r, rest, hreports⟩ := List.exists_cons_of_ne_nil h
    refine ⟨r, { e with reports := rest }, ?_⟩
    change recv e = _
    rw [recv, hreports]

end PaperFillExec

section Instances

open scoped RustDecimal

open LiveKernel

/-- A paper run of the strategy that buys on the first bar, which closes at one hundred. -/
def buyOnBar : LiveSetup Bool PaperFillExec :=
  buyOnce.setup ⟨100000 * 10 ^ 8, paperSettle⟩ ⟨10000, 2⟩

/-- A strategy that buys when it is stopped. -/
def buyOnStop : LiveSetup Bool PaperFillExec :=
  { buyOnBar with
    strategy := ⟨fun sent cb ↦ match cb with
      | .stop => .submitMarket buyOnce.instrument.id .buy ⟨100, 3⟩ fun _ ↦ .done true
      | _ => .done sent⟩ }

def buyOnBarQueue : ReportQueue buyOnBar.client buyOnBar.exec := PaperFillExec.reportQueue ..

def buyOnStopQueue : ReportQueue buyOnStop.client buyOnStop.exec := PaperFillExec.reportQueue ..

end Instances

end Coinext
