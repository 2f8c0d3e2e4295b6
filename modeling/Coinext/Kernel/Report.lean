import Coinext.Kernel.FillsLog
import Coinext.Kernel.Termination

/-!
# What a run reports

The result of a run is kept on the way: submitted and denied orders are counted, fills are counted
and logged, and the equity curve gets a point at each bar. None of these is read by the kernel, so
that nothing but the run itself keeps them right.

Between two market events the curve stays, the counts stay right, and the strategy is told of the
fills that are applied (`Tells`). So in every state of a run the curve has one point for each bar,
at the time of the bar and in the order of the bars, the counts are those of the record, and the
fills that were told are those that replaying the record applies (`report_of_run`).
-/

namespace Coinext

/-- A callback that tells of a denied order. -/
def Callback.IsDenial : Callback → Bool
  | .orderEvent ev => BacktestKernel.isDenied ev
  | _ => false

/-- The times of the bars among some market events. -/
def barTimes (events : List MarketEvent) : List UnixNanos :=
  events.filterMap fun
    | .bar b => some b.tsEvent
    | _ => none

/-- The fills that a record of operations applies to orders and positions, in their order. -/
def Core.opsFills [DecimalWidth] (model : BrokerageModel) : Core → List CoreOp → List Fill
  | _, [] => []
  | c, op :: ops =>
    (c.exec model op).1.filterMap OrderEvent.fill? ++ (c.step model op).opsFills model ops

theorem Core.opsFills_append [DecimalWidth] (model : BrokerageModel) (c : Core)
    (ops ops' : List CoreOp) : c.opsFills model (ops ++ ops')
      = c.opsFills model ops ++ (ops.foldl (Core.step model) c).opsFills model ops' := by
  induction ops generalizing c with
  | nil => rfl
  | cons op ops ih =>
    rw [List.cons_append, opsFills, opsFills, ih, List.append_assoc, List.foldl_cons]

/-! ## The events of an operation -/

section Events

variable [DecimalWidth] {s : Oms} {ev : OrderEvent}

theorem mem_applyToOrder {id : ClientOrderId} {ev' : OrderEvent}
    (h : ev ∈ (ExecutionEngine.applyToOrder id ev' s).1) : ev = ev' := by
  rcases ExecutionEngine.applyToOrder_cases id ev' s with
    ⟨-, heq⟩ | ⟨o, o', -, -, heq⟩ | ⟨o, -, -, heq⟩
  · rw [heq] at h
    cases h
  · rw [heq] at h
    exact List.mem_singleton.mp h
  · rw [heq] at h
    cases h

theorem isDenied_of_mem_exec (model : BrokerageModel) {c : Core} {op : CoreOp}
    (hop : op.IsSubmit = false) (h : ev ∈ (c.exec model op).1) :
    BacktestKernel.isDenied ev = false := by
  cases op with
  | submit => cases hop
  | advance | drain | process | onMarket | setTimer | cancelTimer | popDue => cases h
  | applyNext =>
    simp only [Core.exec] at h
    split at h
    · cases h
    · rename_i r rest _
      cases r with
      | fill f =>
        change ev ∈ (ExecutionEngine.applyFillReport f c.oms).1 at h
        unfold ExecutionEngine.applyFillReport at h
        split at h
        · cases h
        · simp only at h
          split at h
          · cases h
          · rename_i o _
            rw [mem_applyToOrder h]
            unfold ExecutionEngine.fillEvent
            split_ifs <;> rfl
      | _ =>
        rw [mem_applyToOrder h]
        rfl
  | cancel id now =>
    change ev ∈ (ExecutionEngine.applyToOrder id (.pendingCancel now) c.oms).1 at h
    rw [mem_applyToOrder h]
    rfl
  | closeAt iid px now tagSuffix =>
    obtain ⟨f, rfl, -⟩ := tsEvent_of_mem_closeAt model h
    rfl

end Events

namespace BacktestKernel

section Run

variable {σ : Type} [DecimalWidth] {setup : Setup σ} {k k' k'' : BacktestKernel σ}

/-! ## What a move reports -/

/-- The counts of a result are those of the record. -/
structure Counts (k : BacktestKernel σ) : Prop where
  submitted : k.result.ordersSubmitted = k.ops.countP CoreOp.IsSubmit
  denied : k.result.ordersDenied = k.journal.countP Callback.IsDenial
  fills : k.result.fills = (toldFills k.journal).length

/-- From the first state to the second the strategy is told of some fills, and others, or the same,
are applied. The counts stay right and the curve stays. -/
structure Tells (setup : Setup σ) (told applied : List Fill) (k k' : BacktestKernel σ) : Prop where
  run : ∃ l, k'.ops = k.ops ++ l ∧ k'.core = l.foldl (Core.step setup.config.brokerage) k.core ∧
    k.core.opsFills setup.config.brokerage l = applied
  journal : toldFills k'.journal = toldFills k.journal ++ told
  counts : Counts k → Counts k'
  curve : k'.result.equityCurve = k.result.equityCurve

namespace Tells

variable {told told' applied applied' : List Fill}

theorem frame (hcore : k'.core = k.core) (hops : k'.ops = k.ops) (hjournal : k'.journal = k.journal)
    (hresult : k'.result = k.result) : Tells setup [] [] k k' where
  run := ⟨[], by rw [hops, List.append_nil], hcore, rfl⟩
  journal := by rw [hjournal, List.append_nil]
  counts h := ⟨by rw [hresult, hops]; exact h.submitted, by rw [hresult, hjournal]; exact h.denied,
    by rw [hresult, hjournal]; exact h.fills⟩
  curve := by rw [hresult]

theorem refl (k : BacktestKernel σ) : Tells setup [] [] k k := frame rfl rfl rfl rfl

theorem trans (h : Tells setup told applied k k') (h' : Tells setup told' applied' k' k'') :
    Tells setup (told ++ told') (applied ++ applied') k k'' where
  run := by
    obtain ⟨l, hops, hcore, hfills⟩ := h.run
    obtain ⟨l', hops', hcore', hfills'⟩ := h'.run
    refine ⟨l ++ l', by rw [hops', hops, List.append_assoc], ?_, ?_⟩
    · rw [hcore', hcore, List.foldl_append]
    · rw [Core.opsFills_append, hfills, ← hcore, hfills']
  journal := by rw [h'.journal, h.journal, List.append_assoc]
  counts hk := h'.counts (h.counts hk)
  curve := h'.curve.trans h.curve

/-- What is told in the journal alone. -/
theorem of_journal (cb : Callback) (hcore : k'.core = k.core) (hops : k'.ops = k.ops)
    (hjournal : k'.journal = k.journal ++ [cb])
    (hcurve : k'.result.equityCurve = k.result.equityCurve)
    (hsubmitted : k'.result.ordersSubmitted = k.result.ordersSubmitted)
    (hdenied : k'.result.ordersDenied = k.result.ordersDenied + if cb.IsDenial then 1 else 0)
    (hfills : k'.result.fills = k.result.fills + cb.fill?.toList.length) :
    Tells setup cb.fill?.toList [] k k' where
  run := ⟨[], by rw [hops, List.append_nil], hcore, rfl⟩
  journal := by rw [hjournal, toldFills_concat]
  counts h := by
    refine ⟨?_, ?_, ?_⟩
    · rw [hsubmitted, hops]
      exact h.submitted
    · rw [hdenied, hjournal, List.countP_append, List.countP_singleton, h.denied]
    · rw [hfills, hjournal, toldFills_concat, List.length_append, h.fills]
  curve := hcurve

theorem perform (op : CoreOp) (hop : op.IsSubmit = false) :
    Tells setup [] ((perform setup op k).1.filterMap OrderEvent.fill?) k
      (BacktestKernel.perform setup op k).2 where
  run := ⟨[op], rfl, rfl, List.append_nil _⟩
  journal := (List.append_nil _).symm
  counts h := by
    refine ⟨?_, h.denied, h.fills⟩
    change k.result.ordersSubmitted = (k.ops ++ [op]).countP CoreOp.IsSubmit
    rw [List.countP_append, List.countP_singleton, hop]
    exact h.submitted
  curve := rfl

theorem runProgram {α : Type} (p : Program α) :
    Tells setup [] [] k (runProgram setup p k).2 := by
  induction p generalizing k with
  | done a => exact refl k
  | setTimer name ts cont ih => exact (perform (.setTimer name ts) rfl).trans (ih _)
  | cancelTimer id next ih => exact (perform (.cancelTimer id) rfl).trans ih
  | nowNs cont ih | position id cont ih | quote id cont ih | mark id cont ih
  | orderBook id cont ih | instrument id cont ih | seq cont ih => exact ih _
  | order spec cont ih =>
    have hmade : Tells setup [] [] k { k with factory := (k.factory.make spec).2 } :=
      frame rfl rfl rfl rfl
    exact hmade.trans (ih _)
  | restoreSeq seq next ih =>
    have hrestored : Tells setup [] [] k { k with factory := { k.factory with seq := seq } } :=
      frame rfl rfl rfl rfl
    exact hrestored.trans ih
  | emit cmd next ih =>
    have hemitted : Tells setup [] [] k { k with outbox := k.outbox ++ [cmd] } :=
      frame rfl rfl rfl rfl
    exact hemitted.trans ih

theorem call (cb : Callback) :
    Tells setup [] [] { k with journal := k.journal ++ [cb] } (call setup cb k) :=
  (runProgram _).trans (frame rfl rfl rfl rfl)

theorem callPlain {cb : Callback} (hfill : cb.fill? = none) (hdenial : cb.IsDenial = false) :
    Tells setup [] [] k (BacktestKernel.call setup cb k) := by
  have hjournal : Tells setup [] [] k { k with journal := k.journal ++ [cb] } := by
    have h : Tells setup cb.fill?.toList [] k { k with journal := k.journal ++ [cb] } :=
      of_journal cb rfl rfl rfl rfl rfl (by rw [hdenial]; rfl) (by rw [hfill]; rfl)
    rwa [hfill] at h
  exact hjournal.trans (call cb)

theorem notifyEvent {ev : OrderEvent} (hfill : ev.fill? = none)
    (hdenied : isDenied ev = false) : Tells setup [] [] k (notifyEvent setup ev k) := by
  unfold BacktestKernel.notifyEvent
  rw [hfill]
  exact callPlain rfl hdenied

theorem notifySubmitted {ev : OrderEvent} (hfill : ev.fill? = none) :
    Tells setup [] [] k (notifySubmitted setup ev k) := by
  have hcounted : Tells setup [] [] k { k with
      result := { k.result with
        ordersDenied := k.result.ordersDenied + if isDenied ev then 1 else 0 }
      journal := k.journal ++ [.orderEvent ev] } :=
    of_journal (.orderEvent ev) rfl rfl rfl rfl rfl rfl rfl
  unfold BacktestKernel.notifySubmitted BacktestKernel.notifyEvent
  rw [hfill]
  exact hcounted.trans ((runProgram _).trans (frame rfl rfl rfl rfl))

/-- A fill is counted and told of. -/
theorem notifyFill {ev : OrderEvent} (hdenied : isDenied ev = false) (ts : Fill → UnixNanos) :
    Tells setup ev.fill?.toList [] k (BacktestKernel.notifyEvent setup ev (match ev.fill? with
      | some f => logFill (ts f) f k
      | none => k)) := by
  cases hfill : ev.fill? with
  | none => exact notifyEvent hfill hdenied
  | some f =>
    have hlogged : Tells setup [f] [] k { logFill (ts f) f k with
        journal := k.journal ++ [.orderFilled f] } :=
      of_journal (.orderFilled f) rfl rfl rfl rfl rfl rfl rfl
    unfold BacktestKernel.notifyEvent
    rw [hfill]
    exact (hlogged.trans (call (.orderFilled f))).trans (callPlain rfl hdenied)

/-- The events of an operation are handled one after the other. -/
theorem foldEvents {handle : OrderEvent → BacktestKernel σ → BacktestKernel σ}
    {evs : List OrderEvent}
    (hhandle : ∀ ev ∈ evs, ∀ k, Tells setup ev.fill?.toList [] k (handle ev k)) :
    Tells setup (evs.filterMap OrderEvent.fill?) [] k (evs.foldl (fun k ev ↦ handle ev k) k) := by
  induction evs generalizing k with
  | nil => exact refl k
  | cons ev evs ih =>
    have hfirst := (hhandle ev List.mem_cons_self k).trans
      (ih fun ev' hev' ↦ hhandle ev' (List.mem_cons_of_mem ev hev'))
    cases hfill : ev.fill? with
    | none =>
      rw [hfill] at hfirst
      rwa [List.filterMap_cons_none hfill]
    | some f =>
      rw [hfill] at hfirst
      rwa [List.filterMap_cons_some hfill]

end Tells

/-! ## The parts of an iteration -/

/-- The strategy is told of what is applied. -/
def Reports (setup : Setup σ) (k k' : BacktestKernel σ) : Prop :=
  ∃ fills, Tells setup fills fills k k'

namespace Reports

theorem refl (k : BacktestKernel σ) : Reports setup k k := ⟨[], .refl k⟩

theorem trans (h : Reports setup k k') (h' : Reports setup k' k'') : Reports setup k k'' := by
  obtain ⟨fills, h⟩ := h
  obtain ⟨fills', h'⟩ := h'
  exact ⟨_, h.trans h'⟩

theorem foldl {α : Type} {f : BacktestKernel σ → α → BacktestKernel σ}
    (hf : ∀ k a, Reports setup k (f k a)) (l : List α) : Reports setup k (l.foldl f k) :=
  foldl_induction (fun _ a h ↦ h.trans (hf _ a)) (refl k) l

theorem performThen {op : CoreOp} (hop : op.IsSubmit = false)
    {handle : OrderEvent → BacktestKernel σ → BacktestKernel σ}
    (hhandle : ∀ ev ∈ (perform setup op k).1, ∀ k',
      Tells setup ev.fill?.toList [] k' (handle ev k')) :
    Reports setup k (performThen setup op handle k) := by
  have hperformed : Tells setup [] ((perform setup op k).1.filterMap OrderEvent.fill?) k
      (perform setup op k).2 := .perform op hop
  have hhandled := hperformed.trans (.foldEvents hhandle)
  rw [List.nil_append, List.append_nil] at hhandled
  exact ⟨_, hhandled⟩

theorem plain (h : Tells setup [] [] k k') : Reports setup k k' := ⟨[], h⟩

theorem perform (op : CoreOp) (hop : op.IsSubmit = false)
    (hnone : (perform setup op k).1 = []) :
    Reports setup k (BacktestKernel.perform setup op k).2 := by
  have h : Tells setup [] ((BacktestKernel.perform setup op k).1.filterMap OrderEvent.fill?) k
      (BacktestKernel.perform setup op k).2 := .perform op hop
  rw [hnone] at h
  exact ⟨_, h⟩

theorem cancel (id : ClientOrderId) (now : UnixNanos) :
    Reports setup k (BacktestKernel.performThen setup (.cancel id now)
      (BacktestKernel.notifyEvent setup) k) := by
  refine performThen rfl fun ev hev k' ↦ ?_
  have hfill := fill?_of_mem_cancel setup.config.brokerage hev
  rw [hfill]
  exact .notifyEvent hfill (isDenied_of_mem_exec setup.config.brokerage rfl hev)

/-- An order is counted when it is submitted. -/
theorem submit (risk : RiskEngine) (portfolio : Portfolio) (order : Order) (now : UnixNanos) :
    Reports setup k (BacktestKernel.performThen setup (.submit risk portfolio order now)
      (BacktestKernel.notifySubmitted setup) { k with
        result := { k.result with ordersSubmitted := k.result.ordersSubmitted + 1 } }) := by
  set k₁ : BacktestKernel σ := { k with
    result := { k.result with ordersSubmitted := k.result.ordersSubmitted + 1 } } with hk₁
  have hnone : ((BacktestKernel.perform setup (.submit risk portfolio order now) k₁).1.filterMap
      OrderEvent.fill?) = [] :=
    List.filterMap_eq_nil_iff.mpr fun ev hev ↦ fill?_of_mem_submit setup.config.brokerage hev
  have hsubmitted : Tells setup [] [] k
      (BacktestKernel.perform setup (.submit risk portfolio order now) k₁).2 := by
    refine ⟨⟨[_], rfl, rfl, ?_⟩, (List.append_nil _).symm, fun h ↦ ⟨?_, h.denied, h.fills⟩, rfl⟩
    · exact (List.append_nil _).trans hnone
    · change k.result.ordersSubmitted + 1 = (k.ops ++ [CoreOp.submit _ _ _ _]).countP _
      rw [List.countP_append, h.submitted]
      rfl
  have htold : ∀ ev ∈ (BacktestKernel.perform setup (.submit risk portfolio order now) k₁).1,
      ∀ k', Tells setup ev.fill?.toList [] k' (BacktestKernel.notifySubmitted setup ev k') := by
    intro ev hev k'
    have hfill := fill?_of_mem_submit setup.config.brokerage hev
    rw [hfill]
    exact .notifySubmitted hfill
  have hhandled := hsubmitted.trans (.foldEvents htold)
  rw [hnone] at hhandled
  exact ⟨_, hhandled⟩

theorem route (now : UnixNanos) (cmd : StrategyCommand) :
    Reports setup k (route setup now k cmd) := by
  cases cmd with
  | submit order => exact submit _ _ order now
  | cancel id => exact cancel id now
  | modify id quantity price => exact refl k

theorem processOutbox : Reports setup k (processOutbox setup k) := by
  have hemptied : Reports setup k { k with outbox := [] } := plain (.frame rfl rfl rfl rfl)
  exact hemptied.trans (foldl (fun _ cmd ↦ route _ cmd) _)

theorem drainReports (frontier : UnixNanos) :
    Reports setup k (drainReports setup frontier k) := by
  have hfold : ∀ k : BacktestKernel σ, Reports setup k (foldNext setup k) := fun k ↦
    performThen rfl fun _ hev _ ↦
      .notifyFill (isDenied_of_mem_exec setup.config.brokerage rfl hev) Fill.tsEvent
  have hdrained : Reports setup k (BacktestKernel.perform setup (.drain frontier) k).2 :=
    perform _ rfl rfl
  exact hdrained.trans ((foldl (fun k _ ↦ hfold k) _).trans processOutbox)

theorem fireTimers (frontier : UnixNanos) : Reports setup k (fireTimers setup frontier k) := by
  have hpopped : Reports setup k (BacktestKernel.perform setup (.popDue frontier) k).2 :=
    perform _ rfl rfl
  exact hpopped.trans (foldl (fun _ _ ↦ (plain (.callPlain rfl rfl)).trans processOutbox) _)

theorem dispatchMarket (ev : MarketEvent) : Reports setup k (dispatchMarket setup ev k) := by
  unfold BacktestKernel.dispatchMarket
  split
  · exact plain (.callPlain rfl rfl)
  · exact plain (.callPlain rfl rfl)
  · exact plain (.callPlain rfl rfl)
  · split
    · exact plain (.callPlain rfl rfl)
    · exact refl k

theorem closePositionAt (iid : InstrumentId) (px : Price) (now : UnixNanos) (tagSuffix : String) :
    Reports setup k (closePositionAt setup iid px now tagSuffix k) := by
  have hone : (BacktestKernel.perform setup (.closeAt iid px now tagSuffix) k).1 = [] ∨
      ∃ f, (BacktestKernel.perform setup (.closeAt iid px now tagSuffix) k).1 = [.filled f] := by
    simp only [BacktestKernel.perform, Core.exec]
    split
    · exact .inl rfl
    · exact .inr ⟨_, rfl⟩
  have hperformed : Tells setup []
      ((BacktestKernel.perform setup (.closeAt iid px now tagSuffix) k).1.filterMap
        OrderEvent.fill?) k (BacktestKernel.perform setup (.closeAt iid px now tagSuffix) k).2 :=
    .perform _ rfl
  unfold BacktestKernel.closePositionAt BacktestKernel.performThen
  rcases hone with hnone | ⟨f, hf⟩
  · rw [hnone] at hperformed ⊢
    exact ⟨_, hperformed⟩
  · rw [hf] at hperformed ⊢
    have htold : ∀ k' : BacktestKernel σ, Tells setup (OrderEvent.filled f).fill?.toList [] k'
        (BacktestKernel.notifyEvent setup (.filled f) (logFill now f k')) :=
      fun _ ↦ .notifyFill rfl fun _ ↦ now
    exact Reports.trans ⟨_, hperformed.trans (htold _)⟩ processOutbox

theorem settleContract (now : UnixNanos) (iid : InstrumentId) :
    Reports setup k (settleContract setup now k iid) := by
  unfold BacktestKernel.settleContract
  split
  · exact refl k
  · refine trans ?_ (foldl (fun _ id ↦ cancel id now) _)
    split
    · exact closePositionAt _ _ _ _
    · exact refl k

theorem settleExpiries (frontier : UnixNanos) :
    Reports setup k (settleExpiries setup frontier k) := by
  have hdropped : Reports setup k { k with
      expiries := k.expiries.dropWhile fun e ↦ e.1 ≤ frontier } := plain (.frame rfl rfl rfl rfl)
  exact hdropped.trans (foldl (fun k e ↦ settleContract frontier (Prod.snd e)) _)

theorem checkLiquidation (now : UnixNanos) :
    Reports setup k (checkLiquidation setup now k) := by
  unfold BacktestKernel.checkLiquidation
  split
  · exact refl k
  · simp only
    split_ifs
    · exact refl k
    · refine foldl (fun k iid ↦ ?_) _
      split
      · exact closePositionAt _ _ _ _
      · exact refl k

end Reports

/-! ## Whole runs -/

variable (setup) in
/-- The fills that a record applies. -/
def appliedFills (ops : List CoreOp) : List Fill :=
  (initialCore setup.config).opsFills setup.config.brokerage ops

variable (setup) in
/-- What holds of a state of the loop: `feed` are the events that are left. -/
structure ReportInv (events feed : List MarketEvent) (k : BacktestKernel σ) : Prop where
  replays : Replays setup k
  counts : Counts k
  told : toldFills k.journal = appliedFills setup k.ops
  curve : k.result.equityCurve.map Prod.fst ++ barTimes feed = barTimes (sortedEvents events)

variable {events feed : List MarketEvent} {ts : UnixNanos}

theorem ReportInv.reports (h : ReportInv setup events feed k) (hmove : Reports setup k k') :
    ReportInv setup events feed k' := by
  obtain ⟨fills, ⟨l, hops, hcore, hfills⟩, hjournal, hcounts, hcurve⟩ := hmove
  refine ⟨?_, hcounts h.counts, ?_, by rw [hcurve, h.curve]⟩
  · rw [Replays, hcore, hops, List.foldl_append, ← h.replays]
  · rw [hjournal, h.told, appliedFills, appliedFills, hops, Core.opsFills_append, ← h.replays,
      hfills]

theorem ReportInv.takeMarket (h : ReportInv setup events feed k) (ts : UnixNanos) :
    ReportInv setup events (takeMarket setup ts feed k).1 (takeMarket setup ts feed k).2 := by
  cases feed with
  | nil => exact h
  | cons ev rest =>
    simp only [BacktestKernel.takeMarket]
    split_ifs with hev
    · have hprocess : Reports setup k (perform setup (.process ev) k).2 := .perform _ rfl rfl
      have hmatch : Reports setup (perform setup (.process ev) k).2
          (perform setup (.onMarket ev) (perform setup (.process ev) k).2).2 := .perform _ rfl rfl
      have hrouted := h.reports ((hprocess.trans hmatch).trans
        ((Reports.dispatchMarket ev).trans Reports.processOutbox))
      refine ⟨?_, ?_, ?_, ?_⟩
      · cases ev <;> exact hrouted.replays
      · cases ev with
        | bar b => exact ⟨hrouted.counts.submitted, hrouted.counts.denied, hrouted.counts.fills⟩
        | _ => exact hrouted.counts
      · cases ev <;> exact hrouted.told
      · cases ev with
        | bar b =>
          obtain rfl : b.tsEvent = ts := hev
          change ((BacktestKernel.processOutbox setup _).result.equityCurve
            ++ [(b.tsEvent, _)]).map Prod.fst ++ barTimes rest = _
          rw [List.map_append, List.append_assoc]
          exact hrouted.curve
        | _ => exact hrouted.curve
    · exact h

theorem ReportInv.iterate (h : ReportInv setup events feed k) (ts : UnixNanos) :
    ReportInv setup events (iterate setup ts feed k).1 (iterate setup ts feed k).2 := by
  have hadvance : Reports setup k (perform setup (.advance ts) k).2 := .perform _ rfl rfl
  have htimers := h.reports (hadvance.trans ((Reports.drainReports ts).trans
    (Reports.fireTimers ts)))
  exact (htimers.takeMarket ts).reports ((Reports.settleExpiries ts).trans
    (Reports.checkLiquidation ts))

theorem reportInv_start : ReportInv setup events (sortedEvents events) (start setup) := by
  have hbuild : ReportInv setup events (sortedEvents events) (build setup) :=
    ⟨replays_build, ⟨rfl, rfl, rfl⟩, rfl, rfl⟩
  have hcall : Reports setup (build setup) (call setup .start (build setup)) :=
    .plain (.callPlain rfl rfl)
  exact hbuild.reports (hcall.trans .processOutbox)

theorem Looped.reportInv (h : Looped setup events feed k) : ReportInv setup events feed k := by
  induction h with
  | start => exact reportInv_start
  | iterate _ _ ih => exact ih.iterate _

theorem ReportInv.finish (h : ReportInv setup events feed k) :
    ReportInv setup events feed (finish setup k) := by
  have hcall : Reports setup k (call setup .stop k) := .plain (.callPlain rfl rfl)
  have hstopped := h.reports (hcall.trans .processOutbox)
  exact ⟨hstopped.replays, ⟨hstopped.counts.submitted, hstopped.counts.denied,
    hstopped.counts.fills⟩, hstopped.told, hstopped.curve⟩

theorem Reached.reportInv (h : Reached setup events k) :
    ∃ feed, ReportInv setup events feed k ∧ dispatched k.ops ++ feed = sortedEvents events := by
  have hI := preserved_dispatched setup events
  cases h with
  | start => exact ⟨_, reportInv_start, Looped.start.preserved hI rfl⟩
  | iterate hmem =>
    obtain ⟨feed, hlooped⟩ := Looped.start.exists_of_mem_trace _ hmem
    exact ⟨feed, hlooped.reportInv, hlooped.preserved hI rfl⟩
  | finish hrun =>
    obtain ⟨feed, k₀, hlooped, -, rfl⟩ := Looped.start.exists_of_run hrun
    exact ⟨feed, hlooped.reportInv.finish,
      hI.quietly _ _ _ Quietly.finish (hlooped.preserved hI rfl)⟩

variable (setup) in
/-- The result of a state is that of its record. -/
structure Faithful (events : List MarketEvent) (k : BacktestKernel σ) : Prop where
  /-- Submitted and denied orders, and fills, are counted. -/
  counts : Counts k
  /-- The strategy is told of the fills that the record applies, and they are logged. -/
  told : toldFills k.journal = appliedFills setup k.ops
  log : k.result.fillsLog = (appliedFills setup k.ops).map logRow
  /-- The curve has a point for each bar so far. -/
  curve : k.result.equityCurve.map Prod.fst = barTimes (dispatched k.ops)
  bars : barTimes (dispatched k.ops) <+: barTimes (sortedEvents events)
  /-- The curve does not go back in time. -/
  inOrder : (k.result.equityCurve.map Prod.fst).Pairwise (· ≤ ·)

omit [DecimalWidth] in
theorem pairwise_barTimes (events : List MarketEvent) :
    (barTimes (sortedEvents events)).Pairwise (· ≤ ·) := by
  refine List.Pairwise.filterMap _ (fun a b hab ta hta tb htb ↦ ?_) (sorted_sortedEvents events)
  have htime : ∀ {ev : MarketEvent} {t : UnixNanos}, (match ev with
      | .bar b => some b.tsEvent
      | _ => none) = some t → ev.tsEvent = t := by
    intro ev t h
    cases ev with
    | bar b => exact Option.some.inj h
    | _ => cases h
  rwa [← htime hta, ← htime htb]

/-- **What a run reports.** In every state of a run the counts are those of the record, the fills
that were told and logged are those that replaying the record applies, and the equity curve has one
point for each bar that has been processed, in the order of their times. At the end of the run no
bar is missing. -/
theorem report_of_run (events : List MarketEvent) (k : BacktestKernel σ)
    (h : Reached setup events k) : Faithful setup events k ∧
      ∀ n, run setup n (sortedEvents events) (start setup) = some k →
        k.result.equityCurve.map Prod.fst = barTimes (sortedEvents events) ∧
        k.result.finalEquity = equity setup k ∧ k.result.realizedPnl = realizedTotal k := by
  obtain ⟨feed, hinv, hfeed⟩ := h.reportInv
  have hsplit : barTimes (dispatched k.ops) ++ barTimes feed = barTimes (sortedEvents events) := by
    rw [← hfeed, barTimes, barTimes, barTimes, List.filterMap_append]
  have hcurve : k.result.equityCurve.map Prod.fst = barTimes (dispatched k.ops) :=
    List.append_cancel_right (hinv.curve.trans hsplit.symm)
  have hbars : barTimes (dispatched k.ops) <+: barTimes (sortedEvents events) := ⟨_, hsplit⟩
  refine ⟨⟨hinv.counts, hinv.told, ?_, hcurve, hbars, ?_⟩, fun n hrun ↦ ?_⟩
  · rw [← hinv.told]
    exact h.logs
  · rw [hcurve]
    exact (pairwise_barTimes events).sublist hbars.sublist
  · obtain ⟨feed', k₀, hlooped, hfrontier, rfl⟩ := Looped.start.exists_of_run hrun
    have hend := hlooped.reportInv.finish.curve
    rw [(frontier_eq_none_iff.mp hfrontier).1] at hend
    exact ⟨(List.append_nil _).symm.trans hend, rfl, rfl⟩

end Run

section Instances

open scoped RustDecimal

theorem reached_endOf_forty : Reached (buyUntil 40) [barAt 1, barAt 20] (endOf 40) :=
  reached_endOf (by decide +kernel)

/-- The run of `endOf 40` fills an order over two bars. -/
theorem report_of_run_forty : Faithful (buyUntil 40) [barAt 1, barAt 20] (endOf 40) ∧
    ∀ n, run (buyUntil 40) n (sortedEvents [barAt 1, barAt 20]) (start (buyUntil 40))
        = some (endOf 40) →
      (endOf 40).result.equityCurve.map Prod.fst = barTimes (sortedEvents [barAt 1, barAt 20]) ∧
      (endOf 40).result.finalEquity = equity (buyUntil 40) (endOf 40) ∧
      (endOf 40).result.realizedPnl = realizedTotal (endOf 40) :=
  report_of_run [barAt 1, barAt 20] (endOf 40) reached_endOf_forty

end Instances

end BacktestKernel

end Coinext
