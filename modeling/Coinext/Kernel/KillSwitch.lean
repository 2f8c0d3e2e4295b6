import Coinext.Analytics.Bias
import Coinext.Kernel.Routing

/-!
# The kill switch over runs

While the kill switch is engaged the risk gate denies every order, before it looks at any limit. So
nothing reaches the venue, whatever the strategy does: no order rests there, no report is scheduled,
and no fill moves a position (`Untraded`). An expiry or a liquidation finds nothing to close.

A whole run with the switch engaged therefore reports what it started with: no fill is counted,
logged or told, and every point of the equity curve is the starting balance (`flat_of_killed`).
-/

namespace Coinext

open ExecutionEngine SimulatedExecutionClient

/-- Nothing has reached the venue, and nothing has come back from it. -/
structure Core.Untraded (c : Core) : Prop where
  resting : c.oms.sim.resting = []
  queue : c.oms.sim.queue.entries = []
  pending : c.pending = []
  positions : c.oms.cache.positions = ∅
  issued : c.issued = []
  closes : c.closes = []

section Core

variable [DecimalWidth] {model : BrokerageModel} {c : Core}

/-- A submit that the risk engine denies does not reach the venue. -/
theorem submit_of_denied {risk : RiskEngine} (hdenies : ∀ order portfolio inst, ∃ reason,
      risk.check order portfolio inst = .denied reason) (portfolio : Portfolio)
    (model : BrokerageModel) (clockNow : UnixNanos) (order : Order) (now : UnixNanos) (s : Oms) :
    (submit risk portfolio model clockNow order now s).2.sim = s.sim ∧
      (submit risk portfolio model clockNow order now s).2.cache.positions = s.cache.positions := by
  unfold submit
  split_ifs
  · exact ⟨rfl, rfl⟩
  · split
    · exact ⟨rfl, rfl⟩
    · rename_i inst hinst
      obtain ⟨reason, hreason⟩ := hdenies order portfolio inst
      simp only [hreason]
      split <;> exact ⟨rfl, rfl⟩

/-- **Step lemma.** As long as submits are denied, nothing is traded. -/
theorem Core.Untraded.step (h : c.Untraded) (op : CoreOp)
    (hdenies : ∀ risk portfolio order now, op = .submit risk portfolio order now →
      ∀ order portfolio inst, ∃ reason, risk.check order portfolio inst = .denied reason) :
    (c.step model op).Untraded := by
  cases op with
  | submit risk portfolio order now =>
    obtain ⟨hsim, hpositions⟩ := submit_of_denied (hdenies _ _ _ _ rfl) portfolio model c.clock.now
      order now c.oms
    refine ⟨?_, ?_, h.pending, hpositions.trans h.positions, h.issued, h.closes⟩
    · exact (congrArg SimState.resting hsim).trans h.resting
    · exact (congrArg (fun s : SimState ↦ s.queue.entries) hsim).trans h.queue
  | cancel id now =>
    have hsim : (c.step model (.cancel id now)).oms.sim = c.oms.sim := by
      change onCancel model c.clock.now id (applyToOrder id (.pendingCancel now) c.oms).2.sim = _
      rw [sim_applyToOrder, onCancel_of_absent]
      rw [h.resting]
      rfl
    refine ⟨by rw [hsim, h.resting], by rw [hsim, h.queue], h.pending, ?_, h.issued, h.closes⟩
    exact (applyToOrder_induction (I := fun s ↦ s.cache.positions = c.oms.cache.positions)
      (fun _ _ _ h ↦ h) rfl id (.pendingCancel now)).trans h.positions
  | process ev =>
    obtain ⟨-, -, hpositions, -⟩ := c.oms.cache.process_frame ev
    exact ⟨h.resting, h.queue, h.pending, hpositions.trans h.positions, h.issued, h.closes⟩
  | onMarket ev =>
    have hsim : (c.step model (.onMarket ev)).oms.sim.resting = [] ∧
        (c.step model (.onMarket ev)).oms.sim.queue = c.oms.sim.queue := by
      change (onMarket model c.oms.cache c.clock.now ev c.oms.sim).resting = [] ∧
        (onMarket model c.oms.cache c.clock.now ev c.oms.sim).queue = _
      unfold onMarket
      split
      · rw [h.resting]
        cases ev <;> exact ⟨rfl, rfl⟩
      · exact ⟨h.resting, rfl⟩
    refine ⟨hsim.1, by rw [hsim.2, h.queue], h.pending, h.positions, ?_, h.closes⟩
    have hfills : (c.step model (.onMarket ev)).oms.sim.fills = [] := by
      rw [SimState.fills, DueQueue.items, hsim.2, h.queue]
      rfl
    change c.issued ++ (c.step model (.onMarket ev)).oms.sim.fills.diff c.oms.sim.fills = []
    rw [hfills, h.issued]
    exact List.nil_diff _
  | drain frontier =>
    refine ⟨h.resting, ?_, ?_, h.positions, h.issued, h.closes⟩
    · change c.oms.sim.queue.entries.dropWhile _ = []
      rw [h.queue]
      rfl
    · change c.pending ++ (c.oms.sim.queue.entries.takeWhile _).map Timed.item = []
      rw [h.queue, h.pending]
      rfl
  | applyNext =>
    rcases c.applyNext_cases model with ⟨-, heq⟩ | ⟨r, rest, hp, -⟩
    · rw [heq]
      exact h
    · rw [h.pending] at hp
      cases hp
  | closeAt iid px now tagSuffix =>
    rcases c.closeAt_cases model iid px now tagSuffix with ⟨-, heq⟩ | ⟨inst, pos, f, hclosing, -⟩
    · rw [heq]
      exact h
    · obtain ⟨-, hpos, -⟩ := closing_eq_some hclosing
      rw [Cache.position, h.positions, AList.lookup_empty] at hpos
      cases hpos
  | advance | setTimer | cancelTimer | popDue =>
    exact ⟨h.resting, h.queue, h.pending, h.positions, h.issued, h.closes⟩

omit [DecimalWidth] in
theorem untraded_initialCore (config : BacktestConfig) :
    (BacktestKernel.initialCore config).Untraded :=
  ⟨rfl, rfl, rfl, (fresh_initialCore config).2, rfl, rfl⟩

end Core

namespace BacktestKernel

section Run

variable {σ : Type} [DecimalWidth] {setup : Setup σ} {k k' : BacktestKernel σ}
  {events feed : List MarketEvent} {ts : UnixNanos}

/-- The gate denies while the kill switch is engaged. -/
theorem untraded_of_routed (hkilled : setup.killed = true) {c : Core} (h : c.Untraded)
    {ops : List CoreOp}
    (hrouted : Along (Core.step setup.config.brokerage) (Routed setup) c ops) :
    (ops.foldl (Core.step setup.config.brokerage) c).Untraded := by
  refine hrouted.induction (I := Core.Untraded) (fun c op h hop ↦ h.step op ?_) h
  rintro risk portfolio order now rfl order' portfolio' inst
  obtain ⟨rfl, -⟩ := hop
  refine ⟨.killSwitchEngaged, ?_⟩
  change RiskGate.check _ _ setup.killed _ _ _ = _
  rw [hkilled]
  rfl

theorem equity_of_untraded (h : k.core.Untraded) :
    equity setup k = setup.config.startingBalance.amount ∧ realizedTotal k = 0 := by
  have hnone : PortfolioState.positions k.core.oms.cache = [] := by
    rw [PortfolioState.positions, h.positions]
    rfl
  constructor
  · rw [equity, hnone]
    simp
  · rw [realizedTotal, hnone]
    rfl

variable (setup) in
/-- Nothing is traded, and the equity curve is flat. -/
structure FlatInv (k : BacktestKernel σ) : Prop where
  untraded : k.core.Untraded
  curve : ∀ p ∈ k.result.equityCurve, p.2 = setup.config.startingBalance.amount

theorem FlatInv.move (h : FlatInv setup k) (hkilled : setup.killed = true)
    (hroutes : Routes setup k k') (hreports : Reports setup k k') : FlatInv setup k' := by
  obtain ⟨l, -, hcore, hrouted⟩ := hroutes
  obtain ⟨fills, htells⟩ := hreports
  refine ⟨?_, by rw [htells.curve]; exact h.curve⟩
  rw [hcore]
  exact untraded_of_routed hkilled h.untraded hrouted

theorem FlatInv.takeMarket (h : FlatInv setup k) (hkilled : setup.killed = true) (ts : UnixNanos) :
    FlatInv setup (takeMarket setup ts feed k).2 := by
  cases feed with
  | nil => exact h
  | cons ev rest =>
    simp only [BacktestKernel.takeMarket]
    split_ifs
    · have hprocess : Reports setup k (perform setup (.process ev) k).2 := .perform _ rfl rfl
      have hmatch : Reports setup (perform setup (.process ev) k).2
          (perform setup (.onMarket ev) (perform setup (.process ev) k).2).2 := .perform _ rfl rfl
      have hrouted := h.move hkilled
        (.trans (.trans (routes_loopMoves.loop _ _ id) (routes_loopMoves.loop _ _ id))
          (.trans (routes_loopMoves.dispatchMarket ev) routes_loopMoves.processOutbox))
        ((hprocess.trans hmatch).trans ((Reports.dispatchMarket ev).trans Reports.processOutbox))
      cases ev with
      | bar b =>
        refine ⟨hrouted.untraded, fun p hp ↦ ?_⟩
        rcases List.mem_append.mp hp with hold | hnew
        · exact hrouted.curve p hold
        · rw [List.mem_singleton.mp hnew]
          exact (equity_of_untraded hrouted.untraded).1
      | _ => exact hrouted
    · exact h

theorem FlatInv.iterate (h : FlatInv setup k) (hkilled : setup.killed = true) (ts : UnixNanos) :
    FlatInv setup (iterate setup ts feed k).2 := by
  have hadvance : Reports setup k (perform setup (.advance ts) k).2 := .perform _ rfl rfl
  have htimers := h.move hkilled
    (.trans (routes_loopMoves.loop k (.advance ts) id)
      (.trans (routes_loopMoves.drainReports ts) (routes_loopMoves.fireTimers ts)))
    (hadvance.trans ((Reports.drainReports ts).trans (Reports.fireTimers ts)))
  exact (htimers.takeMarket hkilled ts).move hkilled
    (.trans (routes_loopMoves.settleExpiries routes_loopMoves.closeAt ts)
      (routes_loopMoves.checkLiquidation routes_loopMoves.closeAt ts))
    ((Reports.settleExpiries ts).trans (Reports.checkLiquidation ts))

theorem Looped.flatInv (h : Looped setup events feed k) (hkilled : setup.killed = true) :
    FlatInv setup k := by
  induction h with
  | start =>
    have hbuild : FlatInv setup (build setup) :=
      ⟨untraded_initialCore setup.config, fun p hp ↦ absurd hp List.not_mem_nil⟩
    have hcall : Reports setup (build setup) (call setup .start (build setup)) :=
      .plain (.callPlain rfl rfl)
    exact hbuild.move hkilled routes_loopMoves.start (hcall.trans .processOutbox)
  | iterate _ _ ih => exact ih.iterate hkilled _

/-- What a run has done when it has done nothing. -/
structure Flat (setup : Setup σ) (k : BacktestKernel σ) : Prop where
  /-- The venue has no order, and no report is in flight. -/
  venue : k.core.oms.sim.resting = [] ∧ k.core.pending = [] ∧ k.core.oms.sim.queue.items = []
  positions : k.core.oms.cache.positions = ∅
  /-- No fill is counted, logged or told. -/
  fills : k.result.fills = 0 ∧ k.result.fillsLog = [] ∧ toldFills k.journal = []
  curve : ∀ p ∈ k.result.equityCurve, p.2 = setup.config.startingBalance.amount

/-- **The kill switch.** While it is engaged no strategy trades: in every state of a run nothing is
at the venue, no position is open, no fill is reported, and equity is the starting balance. -/
theorem flat_of_killed (events : List MarketEvent) (k : BacktestKernel σ)
    (h : Reached setup events k) (hkilled : setup.killed = true) : Flat setup k ∧
      ∀ n, run setup n (sortedEvents events) (start setup) = some k →
        k.result.finalEquity = setup.config.startingBalance.amount ∧ k.result.realizedPnl = 0 := by
  have hflat : FlatInv setup k := by
    cases h with
    | start =>
      have hlooped : Looped setup events (sortedEvents events) (start setup) := .start
      exact hlooped.flatInv hkilled
    | iterate hmem =>
      obtain ⟨feed, hlooped⟩ := Looped.start.exists_of_mem_trace _ hmem
      exact hlooped.flatInv hkilled
    | finish hrun =>
      obtain ⟨feed, k₀, hlooped, -, rfl⟩ := Looped.start.exists_of_run hrun
      have hcall : Reports setup k₀ (call setup .stop k₀) := .plain (.callPlain rfl rfl)
      have hstopped := (hlooped.flatInv hkilled).move hkilled
        (.trans (routes_loopMoves.callQuiet id) routes_loopMoves.processOutbox)
        (hcall.trans .processOutbox)
      exact ⟨hstopped.untraded, hstopped.curve⟩
  obtain ⟨feed, hreport, -⟩ := h.reportInv
  have huntraded := hflat.untraded
  have hnone : toldFills k.journal = [] := by
    rw [hreport.told]
    refine List.eq_nil_iff_forall_not_mem.mpr fun f hf ↦ ?_
    have hcore : coreAfter setup k.ops = k.core := h.replays.symm
    rcases mem_opsFills (accounted_coreAfter []) hf with hissued | hclosed
    · have hmem : f ∈ k.core.issued := hcore ▸ hissued
      rw [huntraded.issued] at hmem
      cases hmem
    · have hmem : f ∈ k.core.closes := hcore ▸ hclosed
      rw [huntraded.closes] at hmem
      cases hmem
  refine ⟨⟨⟨huntraded.resting, huntraded.pending, ?_⟩, huntraded.positions, ⟨?_, ?_, hnone⟩,
    hflat.curve⟩, fun n hrun ↦ ?_⟩
  · rw [DueQueue.items, huntraded.queue]
    rfl
  · rw [hreport.counts.fills, hnone]
    rfl
  · have hlog : k.result.fillsLog = (toldFills k.journal).map logRow := h.logs
    rw [hlog, hnone]
    rfl
  · obtain ⟨feed', k₀, -, -, rfl⟩ := Looped.start.exists_of_run hrun
    exact equity_of_untraded huntraded

end Run

section Instances

open scoped RustDecimal

/-- The strategy buys on the first bar, with the kill switch engaged. -/
def killedBuy : Setup (Option ClientOrderId) := { buyUntil 40 with killed := true }

def killedEnd? : Option (BacktestKernel (Option ClientOrderId)) :=
  run killedBuy 9 (sortedEvents [barAt 1, barAt 20]) (start killedBuy)

/-- The order is denied. -/
theorem flat_of_killed_buy : ∃ k, k.result.ordersSubmitted = 1 ∧ k.result.ordersDenied = 1 ∧
    Flat killedBuy k ∧ ∀ n, run killedBuy n (sortedEvents [barAt 1, barAt 20]) (start killedBuy)
        = some k →
      k.result.finalEquity = killedBuy.config.startingBalance.amount ∧ k.result.realizedPnl = 0 := by
  have hcounts : (killedEnd?.map fun k ↦ (k.result.ordersSubmitted, k.result.ordersDenied))
      = some (1, 1) := by decide +kernel
  obtain ⟨k, hk, hcounts⟩ := Option.map_eq_some_iff.mp hcounts
  exact ⟨k, congrArg Prod.fst hcounts, congrArg Prod.snd hcounts,
    flat_of_killed [barAt 1, barAt 20] k (.finish hk) rfl⟩

end Instances

end BacktestKernel

end Coinext
