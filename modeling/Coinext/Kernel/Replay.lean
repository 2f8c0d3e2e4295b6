import Coinext.Kernel.Backtest
import Coinext.Support.Run

/-!
# A run of the kernel is a run of its core

Whatever a strategy does, the kernel touches its components through the operations of the core, and
records them. So the core of every state the kernel reaches is what replaying the record gives, and
a statement about all runs of the core is one about all runs of the kernel.

The loop itself advances the clock, drains and folds reports, pops timers and publishes market
events. Everything else the kernel does between these steps is a quiet move: it calls the strategy,
routes what the strategy leaves in the outbox, and closes positions.
-/

namespace Coinext

/-- An operation that is no step of the loop. -/
def CoreOp.IsQuiet : CoreOp → Prop
  | .submit .. | .cancel .. | .closeAt .. | .setTimer .. | .cancelTimer _ => True
  | _ => False

/-- An operation on a market event. -/
def CoreOp.IsMarket : CoreOp → Prop
  | .process _ | .onMarket _ => True
  | _ => False

/-- A callback for a market event. -/
def Callback.IsMarket : Callback → Prop
  | .quote _ | .trade _ | .bar _ | .book _ => True
  | _ => False

namespace BacktestKernel

variable {σ : Type} [DecimalWidth] (setup : Setup σ)

/-! ## Moves -/

/-- A relation between states of a kernel that composes and that holds across whatever the kernel
does on behalf of its strategy. A submit is made with the risk gate and the portfolio as they stand,
at the time of the clock. -/
structure Moves (R : BacktestKernel σ → BacktestKernel σ → Prop) : Prop where
  refl : ∀ k, R k k
  trans : ∀ {k k' k''}, R k k' → R k' k'' → R k k''
  /-- What touches neither the core nor the records. -/
  frame : ∀ {k k'}, k'.core = k.core → k'.ops = k.ops → k'.journal = k.journal →
    k'.expiries <:+ k.expiries → R k k'
  journal : ∀ k cb, ¬ cb.IsMarket → R k { k with journal := k.journal ++ [cb] }
  setTimer : ∀ k name ts, R k (perform setup (.setTimer name ts) k).2
  cancelTimer : ∀ k id, R k (perform setup (.cancelTimer id) k).2
  submit : ∀ k order, R k (perform setup (.submit
    (RiskGate.riskEngine k.core.oms.cache setup.config.risk setup.killed)
    (PortfolioState.portfolio k.core.oms.cache setup.config.settle) order k.core.clock.now) k).2
  cancel : ∀ k id now, R k (perform setup (.cancel id now) k).2

variable {setup} {k k' k'' : BacktestKernel σ}

namespace Moves

variable {R : BacktestKernel σ → BacktestKernel σ → Prop}

theorem foldl {α : Type} {f : BacktestKernel σ → α → BacktestKernel σ} (hR : Moves setup R)
    (hf : ∀ k a, R k (f k a)) (l : List α) : R k (l.foldl f k) :=
  foldl_induction (fun _ a h ↦ hR.trans h (hf _ a)) (hR.refl k) l

theorem performThen {op : CoreOp} {handle : OrderEvent → BacktestKernel σ → BacktestKernel σ}
    (hR : Moves setup R) (hop : R k (perform setup op k).2)
    (hhandle : ∀ k ev, R k (handle ev k)) : R k (performThen setup op handle k) :=
  hR.trans hop (hR.foldl hhandle _)

/-! ### The strategy -/

theorem runProgram {α : Type} (hR : Moves setup R) (p : Program α) :
    R k (runProgram setup p k).2 := by
  induction p generalizing k with
  | done a => exact hR.refl k
  | setTimer name ts cont ih => exact hR.trans (hR.setTimer k name ts) (ih _)
  | cancelTimer id next ih => exact hR.trans (hR.cancelTimer k id) ih
  | nowNs cont ih | position id cont ih | quote id cont ih | mark id cont ih
  | orderBook id cont ih | instrument id cont ih | seq cont ih => exact ih _
  | order spec cont ih =>
    have hframe : R k { k with factory := (k.factory.make spec).2 } :=
      hR.frame rfl rfl rfl List.suffix_rfl
    exact hR.trans hframe (ih _)
  | restoreSeq seq next ih =>
    have hframe : R k { k with factory := { k.factory with seq := seq } } :=
      hR.frame rfl rfl rfl List.suffix_rfl
    exact hR.trans hframe ih
  | emit cmd next ih =>
    have hframe : R k { k with outbox := k.outbox ++ [cmd] } :=
      hR.frame rfl rfl rfl List.suffix_rfl
    exact hR.trans hframe ih

theorem call (hR : Moves setup R) (cb : Callback) :
    R { k with journal := k.journal ++ [cb] } (call setup cb k) :=
  hR.trans (hR.runProgram _) (hR.frame rfl rfl rfl List.suffix_rfl)

theorem callQuiet (hR : Moves setup R) {cb : Callback} (hcb : ¬ cb.IsMarket) :
    R k (BacktestKernel.call setup cb k) :=
  hR.trans (hR.journal k cb hcb) (hR.call cb)

theorem notifyEvent (hR : Moves setup R) (ev : OrderEvent) : R k (notifyEvent setup ev k) := by
  unfold BacktestKernel.notifyEvent
  split
  · exact hR.trans (hR.callQuiet id) (hR.callQuiet id)
  · exact hR.callQuiet id

/-! ### The outbox -/

theorem route (hR : Moves setup R) {now : UnixNanos} (hnow : now = k.core.clock.now)
    (cmd : StrategyCommand) : R k (route setup now k cmd) := by
  subst hnow
  cases cmd with
  | submit order =>
    refine hR.trans ?_ (hR.performThen (hR.submit _ order) fun k ev ↦
      hR.trans ?_ (hR.notifyEvent ev))
    · exact hR.frame rfl rfl rfl List.suffix_rfl
    · exact hR.frame rfl rfl rfl List.suffix_rfl
  | cancel id => exact hR.performThen (hR.cancel k id _) fun _ ev ↦ hR.notifyEvent ev
  | modify id quantity price => exact hR.refl k

theorem sameNow : Moves setup fun k k' : BacktestKernel σ ↦
    k'.core.clock.now = k.core.clock.now where
  refl _ := rfl
  trans h h' := h'.trans h
  frame hcore _ _ _ := by rw [hcore]
  journal _ _ _ := rfl
  setTimer _ _ _ := rfl
  cancelTimer _ _ := rfl
  submit _ _ := rfl
  cancel _ _ _ := rfl

theorem processOutbox (hR : Moves setup R) : R k (processOutbox setup k) := by
  have hstep (k' : BacktestKernel σ) (cmd : StrategyCommand)
      (h : R k k' ∧ k'.core.clock.now = k.core.clock.now) :
      R k (BacktestKernel.route setup k.core.clock.now k' cmd) ∧
        (BacktestKernel.route setup k.core.clock.now k' cmd).core.clock.now
          = k.core.clock.now :=
    ⟨hR.trans h.1 (hR.route h.2.symm cmd), (sameNow.route h.2.symm cmd).trans h.2⟩
  have hstart : R k { k with outbox := [] } := hR.frame rfl rfl rfl List.suffix_rfl
  exact (foldl_induction hstep ⟨hstart, rfl⟩ k.outbox).1

/-! ### Folding and closing -/

/-- A fill is logged before the strategy hears of it. -/
theorem logFill? (hR : Moves setup R) (ts : Fill → UnixNanos) (fill? : Option Fill) :
    R k (match fill? with
      | some f => logFill (ts f) f k
      | none => k) := by
  split
  · exact hR.frame rfl rfl rfl List.suffix_rfl
  · exact hR.refl k

theorem notifyFolded (hR : Moves setup R) (ev : OrderEvent) : R k (notifyFolded setup ev k) :=
  hR.trans (hR.logFill? Fill.tsEvent ev.fill?) (hR.notifyEvent ev)

theorem notifyClosed (hR : Moves setup R) (now : UnixNanos) (ev : OrderEvent) :
    R k (notifyClosed setup now ev k) :=
  hR.trans (hR.trans (hR.logFill? (fun _ ↦ now) ev.fill?) (hR.notifyEvent ev)) hR.processOutbox

theorem cancelAll (hR : Moves setup R) (now : UnixNanos) (ids : List ClientOrderId) :
    R k (ids.foldl (fun k id ↦ BacktestKernel.performThen setup (.cancel id now)
      (BacktestKernel.notifyEvent setup) k) k) :=
  hR.foldl (fun k id ↦ hR.performThen (hR.cancel k id now) fun _ ev ↦ hR.notifyEvent ev) ids

theorem sampleEquity (hR : Moves setup R) (frontier : UnixNanos) (ev : MarketEvent) :
    R k (sampleEquity setup frontier ev k) := by
  unfold BacktestKernel.sampleEquity
  split
  · exact hR.frame rfl rfl rfl List.suffix_rfl
  · exact hR.refl k

theorem finish (hR : Moves setup R) : R k (finish setup k) :=
  hR.trans (hR.trans (hR.callQuiet id) hR.processOutbox) (hR.frame rfl rfl rfl List.suffix_rfl)

theorem start (hR : Moves setup R) : R (build setup) (start setup) :=
  hR.trans (hR.callQuiet id) hR.processOutbox

section Close

variable (hclose : ∀ k iid px now tagSuffix, R k
  (perform setup (.closeAt iid px now tagSuffix) k).2)
include hclose

theorem closePositionAt (hR : Moves setup R) (iid : InstrumentId) (px : Price) (now : UnixNanos)
    (tagSuffix : String) : R k (closePositionAt setup iid px now tagSuffix k) :=
  hR.performThen (hclose k iid px now tagSuffix) fun _ ev ↦ hR.notifyClosed now ev

theorem settleContract (hR : Moves setup R) (now : UnixNanos) (iid : InstrumentId) :
    R k (settleContract setup now k iid) := by
  unfold BacktestKernel.settleContract
  split
  · exact hR.refl k
  · refine hR.trans ?_ (hR.cancelAll now _)
    split
    · exact hR.closePositionAt hclose _ _ _ _
    · exact hR.refl k

theorem settleExpiries (hR : Moves setup R) (frontier : UnixNanos) :
    R k (settleExpiries setup frontier k) := by
  refine hR.trans ?_ (hR.foldl (fun _ e ↦ hR.settleContract hclose frontier (Prod.snd e)) _)
  exact hR.frame rfl rfl rfl (List.dropWhile_suffix _)

theorem checkLiquidation (hR : Moves setup R) (now : UnixNanos) :
    R k (checkLiquidation setup now k) := by
  unfold BacktestKernel.checkLiquidation
  split
  · exact hR.refl k
  · simp only
    split_ifs
    · exact hR.refl k
    · refine hR.foldl (fun k iid ↦ ?_) _
      split
      · exact hR.closePositionAt hclose _ _ _ _
      · exact hR.refl k

end Close

end Moves

/-! ## Replaying the record -/

variable (setup)

/-- The core is what the recorded operations have made of the initial one. -/
def Replays (k : BacktestKernel σ) : Prop :=
  k.core = k.ops.foldl (Core.step setup.config.brokerage) (initialCore setup.config)

/-- The second state comes from the first by quiet operations and callbacks for no market event. -/
structure Quietly (k k' : BacktestKernel σ) : Prop where
  run : ∃ l, k'.ops = k.ops ++ l ∧ (∀ op ∈ l, op.IsQuiet)
    ∧ k'.core = l.foldl (Core.step setup.config.brokerage) k.core
  journal : ∃ cbs, k'.journal = k.journal ++ cbs ∧ ∀ cb ∈ cbs, ¬ cb.IsMarket
  expiries : k'.expiries <:+ k.expiries

variable {setup}

theorem replays_build : Replays setup (build setup) := rfl

theorem Replays.perform (h : Replays setup k) (op : CoreOp) :
    Replays setup (perform setup op k).2 := by
  change (k.core.exec setup.config.brokerage op).2 = (k.ops ++ [op]).foldl _ _
  rw [List.foldl_append, ← h]
  rfl

theorem Replays.frame (h : Replays setup k) (hcore : k'.core = k.core) (hops : k'.ops = k.ops) :
    Replays setup k' := by
  rw [Replays, hcore, hops]
  exact h

theorem Replays.quietly (h : Replays setup k) (hmove : Quietly setup k k') : Replays setup k' := by
  obtain ⟨l, hops, -, hcore⟩ := hmove.run
  rw [Replays, hops, List.foldl_append, ← h]
  exact hcore

/-! ## Quiet moves -/

namespace Quietly

theorem frame (hcore : k'.core = k.core) (hops : k'.ops = k.ops) (hjournal : k'.journal = k.journal)
    (hexpiries : k'.expiries <:+ k.expiries) : Quietly setup k k' :=
  ⟨⟨[], by simp [hops], fun _ h ↦ absurd h List.not_mem_nil, hcore⟩,
    ⟨[], by simp [hjournal], fun _ h ↦ absurd h List.not_mem_nil⟩, hexpiries⟩

theorem refl (k : BacktestKernel σ) : Quietly setup k k := frame rfl rfl rfl List.suffix_rfl

theorem trans (h : Quietly setup k k') (h' : Quietly setup k' k'') : Quietly setup k k'' := by
  obtain ⟨⟨l, hops, hquiet, hcore⟩, ⟨cbs, hjournal, hcbs⟩, hexpiries⟩ := h
  obtain ⟨⟨l', hops', hquiet', hcore'⟩, ⟨cbs', hjournal', hcbs'⟩, hexpiries'⟩ := h'
  refine ⟨⟨l ++ l', ?_, ?_, ?_⟩, ⟨cbs ++ cbs', ?_, ?_⟩, hexpiries'.trans hexpiries⟩
  · rw [hops', hops, List.append_assoc]
  · exact fun op hop ↦ (List.mem_append.mp hop).elim (hquiet op) (hquiet' op)
  · rw [hcore', hcore, List.foldl_append]
  · rw [hjournal', hjournal, List.append_assoc]
  · exact fun cb hcb ↦ (List.mem_append.mp hcb).elim (hcbs cb) (hcbs' cb)

theorem perform (op : CoreOp) (hop : op.IsQuiet) : Quietly setup k (perform setup op k).2 := by
  refine ⟨⟨[op], rfl, fun op' hop' ↦ ?_, rfl⟩, ⟨[], (List.append_nil _).symm,
    fun _ h ↦ absurd h List.not_mem_nil⟩, List.suffix_rfl⟩
  rw [List.mem_singleton.mp hop']
  exact hop

theorem moves : Moves setup (Quietly setup) where
  refl := refl
  trans := trans
  frame := frame
  journal k cb hcb := by
    refine ⟨⟨[], (List.append_nil _).symm, fun _ h ↦ absurd h List.not_mem_nil, rfl⟩,
      ⟨[cb], rfl, fun cb' hcb' ↦ ?_⟩, List.suffix_rfl⟩
    rwa [List.mem_singleton.mp hcb']
  setTimer _ _ _ := perform _ trivial
  cancelTimer _ _ := perform _ trivial
  submit _ _ := perform _ trivial
  cancel _ _ _ := perform _ trivial

theorem foldl {α : Type} {f : BacktestKernel σ → α → BacktestKernel σ}
    (hf : ∀ k a, Quietly setup k (f k a)) (l : List α) : Quietly setup k (l.foldl f k) :=
  Moves.foldl moves hf l

theorem call (cb : Callback) :
    Quietly setup { k with journal := k.journal ++ [cb] } (call setup cb k) := Moves.call moves cb

theorem callQuiet {cb : Callback} (hcb : ¬ cb.IsMarket) :
    Quietly setup k (BacktestKernel.call setup cb k) := Moves.callQuiet moves hcb

theorem processOutbox : Quietly setup k (processOutbox setup k) := Moves.processOutbox moves

theorem notifyFolded (ev : OrderEvent) : Quietly setup k (notifyFolded setup ev k) :=
  Moves.notifyFolded moves ev

theorem notifyClosed (now : UnixNanos) (ev : OrderEvent) :
    Quietly setup k (notifyClosed setup now ev k) := Moves.notifyClosed moves now ev

theorem cancelAll (now : UnixNanos) (ids : List ClientOrderId) :
    Quietly setup k (ids.foldl (fun k id ↦ performThen setup (.cancel id now)
      (BacktestKernel.notifyEvent setup) k) k) := Moves.cancelAll moves now ids

theorem settleContract (now : UnixNanos) (iid : InstrumentId) :
    Quietly setup k (settleContract setup now k iid) :=
  Moves.settleContract (fun _ _ _ _ _ ↦ perform _ trivial) moves now iid

theorem settleExpiries (frontier : UnixNanos) :
    Quietly setup k (settleExpiries setup frontier k) :=
  Moves.settleExpiries (fun _ _ _ _ _ ↦ perform _ trivial) moves frontier

theorem checkLiquidation (now : UnixNanos) : Quietly setup k (checkLiquidation setup now k) :=
  Moves.checkLiquidation (fun _ _ _ _ _ ↦ perform _ trivial) moves now

theorem sampleEquity (frontier : UnixNanos) (ev : MarketEvent) :
    Quietly setup k (sampleEquity setup frontier ev k) := Moves.sampleEquity moves frontier ev

theorem finish : Quietly setup k (finish setup k) := Moves.finish moves

theorem start : Quietly setup (build setup) (start setup) := Moves.start moves

end Quietly

/-! ## The loop -/

variable (setup) in
/-- An iteration up to its market event. -/
def untilMarket (ts : UnixNanos) (feed : List MarketEvent) (k : BacktestKernel σ) :
    List MarketEvent × BacktestKernel σ :=
  BacktestKernel.takeMarket setup ts feed
    (fireTimers setup ts (drainReports setup ts (perform setup (.advance ts) k).2))

theorem iterate_eq (ts : UnixNanos) (feed : List MarketEvent) (k : BacktestKernel σ) :
    iterate setup ts feed k = ((untilMarket setup ts feed k).1,
      checkLiquidation setup ts (settleExpiries setup ts (untilMarket setup ts feed k).2)) := rfl

variable (setup) in
/-- A property of a kernel and of the events that are left which every part of an iteration
preserves. A market event leaves the feed when it is published and matched. -/
structure Preserved (I : List MarketEvent → BacktestKernel σ → Prop) : Prop where
  perform : ∀ (feed : List MarketEvent) (k : BacktestKernel σ) (op : CoreOp), ¬ op.IsMarket →
    I feed k → I feed (perform setup op k).2
  market : ∀ (ev : MarketEvent) (feed : List MarketEvent) (k : BacktestKernel σ), I (ev :: feed) k →
    I feed (BacktestKernel.perform setup (.onMarket ev)
      (BacktestKernel.perform setup (.process ev) k).2).2
  journal : ∀ (feed : List MarketEvent) (k : BacktestKernel σ) (cb : Callback), I feed k →
    I feed { k with journal := k.journal ++ [cb] }
  quietly : ∀ (feed : List MarketEvent) (k k' : BacktestKernel σ), Quietly setup k k' →
    I feed k → I feed k'

namespace Preserved

variable {I : List MarketEvent → BacktestKernel σ → Prop} {feed : List MarketEvent}

theorem and {J : List MarketEvent → BacktestKernel σ → Prop} (hI : Preserved setup I)
    (hJ : Preserved setup J) : Preserved setup fun feed k ↦ I feed k ∧ J feed k where
  perform feed k op hop hk := ⟨hI.perform feed k op hop hk.1, hJ.perform feed k op hop hk.2⟩
  market ev feed k hk := ⟨hI.market ev feed k hk.1, hJ.market ev feed k hk.2⟩
  journal feed k cb hk := ⟨hI.journal feed k cb hk.1, hJ.journal feed k cb hk.2⟩
  quietly feed k k' hmove hk := ⟨hI.quietly feed k k' hmove hk.1, hJ.quietly feed k k' hmove hk.2⟩

theorem dispatchMarket (hI : Preserved setup I) (ev : MarketEvent) (hk : I feed k) :
    I feed (dispatchMarket setup ev k) := by
  have hcall (cb : Callback) : I feed (call setup cb k) :=
    hI.quietly _ _ _ (Quietly.call cb) (hI.journal feed k cb hk)
  unfold BacktestKernel.dispatchMarket
  split
  · exact hcall _
  · exact hcall _
  · exact hcall _
  · split
    · exact hcall _
    · exact hk

theorem takeMarket (hI : Preserved setup I) (ts : UnixNanos) (hk : I feed k) :
    I (takeMarket setup ts feed k).1 (takeMarket setup ts feed k).2 := by
  cases feed with
  | nil => exact hk
  | cons ev rest =>
    simp only [BacktestKernel.takeMarket]
    split_ifs
    · exact hI.quietly _ _ _ (Quietly.processOutbox.trans (Quietly.sampleEquity ts ev))
        (hI.dispatchMarket ev (hI.market ev rest k hk))
    · exact hk

theorem untilMarket (hI : Preserved setup I) (ts : UnixNanos) (hk : I feed k) :
    I (untilMarket setup ts feed k).1 (untilMarket setup ts feed k).2 := by
  have hadvanced := hI.perform feed k (.advance ts) id hk
  -- reports
  have hfoldNext (k : BacktestKernel σ) (hk : I feed k) : I feed (foldNext setup k) :=
    hI.quietly _ _ _ (Quietly.foldl (fun _ ev ↦ Quietly.notifyFolded ev) _)
      (hI.perform feed k .applyNext id hk)
  have hdrained : I feed (drainReports setup ts (BacktestKernel.perform setup (.advance ts) k).2) :=
    hI.quietly _ _ _ Quietly.processOutbox (foldl_induction (fun k _ ↦ hfoldNext k)
      (hI.perform feed _ (.drain ts) id hadvanced) _)
  -- timers
  have hfired : I feed (fireTimers setup ts
      (drainReports setup ts (BacktestKernel.perform setup (.advance ts) k).2)) :=
    hI.quietly _ _ _ (Quietly.foldl
      (fun _ _ ↦ (Quietly.callQuiet id).trans Quietly.processOutbox) _)
      (hI.perform feed _ (.popDue ts) id hdrained)
  exact hI.takeMarket ts hfired

/-- **One iteration.** -/
theorem iterate (hI : Preserved setup I) (ts : UnixNanos) (hk : I feed k) :
    I (iterate setup ts feed k).1 (iterate setup ts feed k).2 :=
  hI.quietly _ _ _ ((Quietly.settleExpiries ts).trans (Quietly.checkLiquidation ts))
    (hI.untilMarket ts hk)

end Preserved

theorem ops_prefix_iterate (ts : UnixNanos) (feed : List MarketEvent) (k : BacktestKernel σ) :
    k.ops <+: (iterate setup ts feed k).2.ops := by
  let I (_ : List MarketEvent) (k' : BacktestKernel σ) : Prop := k.ops <+: k'.ops
  have hI : Preserved setup I := by
    refine ⟨fun _ k' op _ h ↦ h.trans ⟨[op], rfl⟩, fun ev _ k' h ↦ ?_, fun _ _ _ h ↦ h,
      fun _ k' k'' hmove h ↦ ?_⟩
    · exact h.trans ⟨[.process ev, .onMarket ev], (List.append_assoc k'.ops [_] [_]).symm⟩
    · obtain ⟨l, hops, -⟩ := hmove.run
      exact h.trans ⟨l, hops.symm⟩
  have hk : I feed k := List.prefix_rfl
  exact hI.iterate ts hk

/-! ## Whole runs -/

variable (setup) in
/-- The states of a run: its start, the state after each iteration, and its end. -/
inductive Reached (events : List MarketEvent) : BacktestKernel σ → Prop
  | start : Reached events (start setup)
  | iterate {n : ℕ} {ts : UnixNanos} {k : BacktestKernel σ} :
    (ts, k) ∈ trace setup n (sortedEvents events) (start setup) → Reached events k
  | finish {n : ℕ} {k : BacktestKernel σ} :
    run setup n (sortedEvents events) (start setup) = some k → Reached events k

variable (setup) in
/-- The states of the loop, each with the events that are left. -/
inductive Looped (events : List MarketEvent) : List MarketEvent → BacktestKernel σ → Prop
  | start : Looped events (sortedEvents events) (start setup)
  | iterate {feed : List MarketEvent} {k : BacktestKernel σ} {ts : UnixNanos} :
    Looped events feed k → frontier feed k = some ts →
      Looped events (iterate setup ts feed k).1 (iterate setup ts feed k).2

variable {events feed : List MarketEvent}

theorem Looped.exists_of_mem_trace (h : Looped setup events feed k) (n : ℕ)
    {x : UnixNanos × BacktestKernel σ} (hx : x ∈ trace setup n feed k) :
    ∃ feed', Looped setup events feed' x.2 := by
  induction n generalizing feed k with
  | zero => cases hx
  | succ n ih =>
    rw [trace] at hx
    split at hx
    · cases hx
    · rename_i ts hfrontier
      rcases List.mem_cons.mp hx with rfl | hx
      · exact ⟨_, h.iterate hfrontier⟩
      · exact ih (h.iterate hfrontier) hx

/-- A run ends when there is no frontier, and makes an iteration otherwise. -/
theorem run_eq_some {n : ℕ} (h : run setup n feed k = some k') :
    frontier feed k = none ∧ k' = finish setup k
      ∨ ∃ ts m, frontier feed k = some ts ∧ n = m + 1
        ∧ run setup m (iterate setup ts feed k).1 (iterate setup ts feed k).2 = some k' := by
  unfold run at h
  split at h
  · exact .inl ⟨‹_›, (Option.some.inj h).symm⟩
  · cases h
  · exact .inr ⟨_, _, ‹_›, rfl, h⟩

theorem Looped.exists_of_run (h : Looped setup events feed k) {n : ℕ}
    (hrun : run setup n feed k = some k') :
    ∃ feed' k₀, Looped setup events feed' k₀ ∧ frontier feed' k₀ = none ∧ k' = finish setup k₀ := by
  induction n generalizing feed k with
  | zero =>
    rcases run_eq_some hrun with ⟨hnone, rfl⟩ | ⟨ts, m, -, hm, -⟩
    · exact ⟨feed, k, h, hnone, rfl⟩
    · cases hm
  | succ n ih =>
    rcases run_eq_some hrun with ⟨hnone, rfl⟩ | ⟨ts, m, hfrontier, hm, hrest⟩
    · exact ⟨feed, k, h, hnone, rfl⟩
    · cases hm
      exact ih (h.iterate hfrontier) hrest

theorem ops_prefix_run {n : ℕ} (h : run setup n feed k = some k') : k.ops <+: k'.ops := by
  have hfinish (k : BacktestKernel σ) : k.ops <+: (BacktestKernel.finish setup k).ops := by
    have hquiet : Quietly setup k (BacktestKernel.finish setup k) := Quietly.finish
    obtain ⟨l, hops, -⟩ := hquiet.run
    exact ⟨l, hops.symm⟩
  induction n generalizing feed k with
  | zero =>
    rcases run_eq_some h with ⟨-, rfl⟩ | ⟨ts, m, -, hm, -⟩
    · exact hfinish k
    · cases hm
  | succ n ih =>
    rcases run_eq_some h with ⟨-, rfl⟩ | ⟨ts, m, -, hm, hrest⟩
    · exact hfinish k
    · cases hm
      exact (ops_prefix_iterate _ _ _).trans (ih hrest)

theorem Looped.preserved {I : List MarketEvent → BacktestKernel σ → Prop}
    (h : Looped setup events feed k) (hI : Preserved setup I)
    (hbuild : I (sortedEvents events) (build setup)) : I feed k := by
  induction h with
  | start => exact hI.quietly _ _ _ Quietly.start hbuild
  | iterate _ _ ih => exact hI.iterate _ ih

/-- **Run rule.** What every part of an iteration preserves holds in every state of a run. -/
theorem Reached.preserved {I : List MarketEvent → BacktestKernel σ → Prop}
    (h : Reached setup events k) (hI : Preserved setup I)
    (hbuild : I (sortedEvents events) (build setup)) : ∃ feed, I feed k := by
  cases h with
  | start => exact ⟨_, Looped.start.preserved hI hbuild⟩
  | iterate hmem =>
    obtain ⟨feed, hlooped⟩ := Looped.start.exists_of_mem_trace _ hmem
    exact ⟨feed, hlooped.preserved hI hbuild⟩
  | finish hrun =>
    obtain ⟨feed, k₀, hlooped, -, rfl⟩ := Looped.start.exists_of_run hrun
    exact ⟨feed, hI.quietly _ _ _ Quietly.finish (hlooped.preserved hI hbuild)⟩

theorem preserved_replays : Preserved setup fun _ (k : BacktestKernel σ) ↦ Replays setup k :=
  ⟨fun _ _ op _ hk ↦ hk.perform op, fun _ _ _ hk ↦ (hk.perform _).perform _,
    fun _ _ _ hk ↦ hk.frame rfl rfl, fun _ _ _ hmove hk ↦ hk.quietly hmove⟩

/-- **The core of every state that is reached is a run of core operations.** -/
theorem Reached.replays (h : Reached setup events k) : Replays setup k := by
  obtain ⟨-, hk⟩ := h.preserved preserved_replays replays_build
  exact hk

end BacktestKernel

end Coinext
