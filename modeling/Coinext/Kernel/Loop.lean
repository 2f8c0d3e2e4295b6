import Coinext.Kernel.Delivery
import Coinext.Kernel.NoLookAhead

/-!
# The loop delivers everything once and in order

Four sources meet at the frontier: market events, delayed reports, timers and expiries. The frontier
is the earliest of them, so the clock is never moved past a report, and a report that is drained is
due at that moment, whatever handlers schedule while the frontier is processed.

`delivery_in_order` puts this together: in every state of a run, and at every point of the record
that led to it, the market events published are the first of the sorted input, each published once;
reports have been folded when they were due, each once and in order; and the clock has never moved
backwards. When the loop ends, nothing is left.
-/

namespace Coinext

/-- The market event that an operation publishes. -/
def CoreOp.processed? : CoreOp → Option MarketEvent
  | .process ev => some ev
  | _ => none

/-- The market events published by a record of operations. -/
def dispatched (ops : List CoreOp) : List MarketEvent := ops.filterMap CoreOp.processed?

/-- The callback that is made for a market event. -/
inductive Calls : Callback → MarketEvent → Prop
  | quote (q : QuoteTick) : Calls (.quote q) (.quote q)
  | trade (t : TradeTick) : Calls (.trade t) (.trade t)
  | bar (b : Bar) : Calls (.bar b) (.bar b)
  | book (b : OrderBook) (d : OrderBookDelta) : Calls (.book b) (.delta d)

instance : DecidablePred Callback.IsMarket := fun cb ↦
  match cb with
  | .quote _ | .trade _ | .bar _ | .book _ => isTrue trivial
  | .start | .orderEvent _ | .orderFilled _ | .timer _ | .stop => isFalse id

/-- The callbacks made for market events. -/
def marketCalls (journal : List Callback) : List Callback := journal.filter fun cb ↦ cb.IsMarket

theorem processed?_of_not_isMarket {op : CoreOp} (h : ¬ op.IsMarket) : op.processed? = none := by
  cases op <;> first | rfl | exact absurd trivial h

theorem CoreOp.IsQuiet.not_isMarket {op : CoreOp} (h : op.IsQuiet) : ¬ op.IsMarket := by
  cases op <;> first | exact id | exact absurd h id

theorem dispatched_append_of_not_isMarket {ops l : List CoreOp} (h : ∀ op ∈ l, ¬ op.IsMarket) :
    dispatched (ops ++ l) = dispatched ops := by
  have hnone : dispatched l = [] :=
    List.filterMap_eq_nil_iff.mpr fun op hop ↦ processed?_of_not_isMarket (h op hop)
  rw [dispatched, List.filterMap_append]
  exact (congrArg _ hnone).trans (List.append_nil _)

theorem dispatched_mono {ops ops' : List CoreOp} (h : ops <+: ops') :
    dispatched ops <+: dispatched ops' := by
  obtain ⟨rest, rfl⟩ := h
  exact ⟨dispatched rest, List.filterMap_append.symm⟩

namespace BacktestKernel

section Run

variable {σ : Type} [DecimalWidth] (setup : Setup σ)

/-- The history of a record of operations. -/
def historyOf (ops : List CoreOp) : History :=
  ops.foldl (History.step setup.config.brokerage) (.start (initialCore setup.config))

/-- The core replays the record, and every operation of it was timely. -/
structure OnTime (k : BacktestKernel σ) : Prop where
  replays : Replays setup k
  timely : Along (Core.step setup.config.brokerage) History.Timely (initialCore setup.config) k.ops

/-! ## Histories of a record -/

variable {setup}

theorem core_historyOf (ops : List CoreOp) :
    (historyOf setup ops).core
      = ops.foldl (Core.step setup.config.brokerage) (initialCore setup.config) := by
  induction ops using List.reverseRecOn with
  | nil => rfl
  | append_singleton ops op ih =>
    rw [historyOf, List.foldl_append, List.foldl_append, ← ih]
    rfl

/-- A record of timely operations keeps the history in order. -/
theorem inv_historyOf (hstart : setup.config.startNs ≤ u64Max) {ops : List CoreOp}
    (htimely : Along (Core.step setup.config.brokerage) History.Timely (initialCore setup.config)
      ops) :
    (historyOf setup ops).Inv := by
  induction ops using List.reverseRecOn with
  | nil => exact History.inv_start rfl rfl hstart
  | append_singleton ops op ih =>
    obtain ⟨hfront, hlast, -⟩ := along_append.mp htimely
    rw [historyOf, List.foldl_append]
    refine (ih hfront).step ?_
    rw [core_historyOf]
    exact hlast

theorem now_historyOf_mono {front front' : List CoreOp} (h : front <+: front') :
    (historyOf setup front).now ≤ (historyOf setup front').now := by
  obtain ⟨rest, rfl⟩ := h
  rw [historyOf, historyOf, List.foldl_append]
  exact foldl_induction (I := fun h : History ↦ (historyOf setup front).now ≤ h.now)
    (fun h op hle ↦ hle.trans (Core.now_le_step _ h.core op)) le_rfl rest

/-! ## Between market events -/

variable (setup) in
/-- The second state comes from the first without a market event. -/
structure Between (k k' : BacktestKernel σ) : Prop where
  onTime : OnTime setup k → OnTime setup k'
  ops : k.ops <+: k'.ops
  dispatched : dispatched k'.ops = dispatched k.ops
  calls : marketCalls k'.journal = marketCalls k.journal
  expiries : k'.expiries <:+ k.expiries

variable {k k' k'' : BacktestKernel σ}

theorem OnTime.perform (h : OnTime setup k) (op : CoreOp) (hop : History.Timely k.core op) :
    OnTime setup (perform setup op k).2 := by
  refine ⟨h.replays.perform op, ?_⟩
  change Along _ _ _ (k.ops ++ [op])
  refine along_append.mpr ⟨h.timely, ?_, trivial⟩
  rw [← h.replays]
  exact hop

theorem OnTime.quietly (h : OnTime setup k) (hmove : Quietly setup k k') : OnTime setup k' := by
  refine ⟨h.replays.quietly hmove, ?_⟩
  obtain ⟨l, hops, hquiet, -⟩ := hmove.run
  rw [hops]
  refine along_append.mpr ⟨h.timely, (along_of_forall_mem hquiet).imp fun c op hop ↦ ?_⟩
  cases op <;> first | exact trivial | exact absurd hop id

theorem Quietly.between (h : Quietly setup k k') : Between setup k k' := by
  obtain ⟨l, hops, hquiet, -⟩ := h.run
  obtain ⟨cbs, hjournal, hcbs⟩ := h.journal
  refine ⟨fun hk ↦ hk.quietly h, ⟨l, hops.symm⟩, ?_, ?_, h.expiries⟩
  · rw [hops]
    exact dispatched_append_of_not_isMarket fun op hop ↦ (hquiet op hop).not_isMarket
  · have hnone : marketCalls cbs = [] := by
      rw [marketCalls, List.filter_eq_nil_iff]
      exact fun cb hcb ↦ by simpa using hcbs cb hcb
    rw [hjournal, marketCalls, List.filter_append]
    exact (congrArg _ hnone).trans (List.append_nil _)

theorem Quietly.pending_eq (h : Quietly setup k k') : k'.core.pending = k.core.pending := by
  obtain ⟨l, -, hquiet, hcore⟩ := h.run
  rw [hcore]
  clear hcore h
  induction l generalizing k with
  | nil => rfl
  | cons op l ih =>
    have hop := (hquiet op List.mem_cons_self).isPlain
    have hfirst := (Core.step_of_isPlain setup.config.brokerage hop k.core).1
    exact (ih (k := { k with core := k.core.step setup.config.brokerage op })
      fun op' hop' ↦ hquiet op' (List.mem_cons_of_mem _ hop')).trans hfirst

theorem Between.trans (h : Between setup k k') (h' : Between setup k' k'') :
    Between setup k k'' where
  onTime := h'.onTime ∘ h.onTime
  ops := h.ops.trans h'.ops
  dispatched := h'.dispatched.trans h.dispatched
  calls := h'.calls.trans h.calls
  expiries := h'.expiries.trans h.expiries

theorem between_perform (op : CoreOp) (hop : History.Timely k.core op)
    (hnone : op.processed? = none) : Between setup k (perform setup op k).2 where
  onTime := fun h ↦ h.perform op hop
  ops := ⟨[op], rfl⟩
  dispatched := by
    change Coinext.dispatched (k.ops ++ [op]) = _
    rw [Coinext.dispatched, List.filterMap_append, List.filterMap_cons_none hnone]
    exact List.append_nil _
  calls := rfl
  expiries := List.suffix_rfl

theorem between_foldNext {α : Type} (l : List α) (hlength : k.core.pending.length = l.length) :
    Between setup k (l.foldl (fun k _ ↦ foldNext setup k) k)
      ∧ (l.foldl (fun k _ ↦ foldNext setup k) k).core.pending = [] := by
  induction l generalizing k with
  | nil => exact ⟨(Quietly.refl k).between, List.length_eq_zero_iff.mp hlength⟩
  | cons a l ih =>
    have hquiet : Quietly setup (perform setup .applyNext k).2 (foldNext setup k) :=
      Quietly.foldl (fun _ ev ↦ Quietly.notifyFolded ev) _
    have hpending : (foldNext setup k).core.pending = k.core.pending.tail :=
      hquiet.pending_eq.trans (Core.step_applyNext setup.config.brokerage k.core).1
    have hrest : (foldNext setup k).core.pending.length = l.length := by
      rw [hpending, List.length_tail, hlength, List.length_cons, Nat.add_sub_cancel]
    obtain ⟨hbetween, hnil⟩ := ih hrest
    exact ⟨((between_perform .applyNext trivial rfl).trans hquiet.between).trans hbetween,
      hnil⟩

/-- Reports and timers: the first half of an iteration. -/
theorem between_timers {ts : UnixNanos} (hpending : k.core.pending = [])
    (hmax : ts ≤ u64Max) (hle : ∀ e ∈ k.core.oms.sim.queue.entries, ts ≤ e.due) :
    Between setup k (fireTimers setup ts (drainReports setup ts (perform setup (.advance ts) k).2))
      ∧ (fireTimers setup ts
        (drainReports setup ts (perform setup (.advance ts) k).2)).core.pending = [] := by
  have hadvance : Between setup k (perform setup (.advance ts) k).2 :=
    between_perform (.advance ts) ⟨hmax, hpending, hle⟩ rfl
  -- the clock has come to the frontier
  have hnow : ts ≤ (perform setup (.advance ts) k).2.core.clock.now :=
    k.core.clock.le_now_advanceTo ts
  have hdrain : Between setup (perform setup (.advance ts) k).2
      (perform setup (.drain ts) (perform setup (.advance ts) k).2).2 :=
    between_perform (.drain ts) hnow rfl
  obtain ⟨hfold, hnil⟩ : Between setup _ _ ∧ _ := between_foldNext
    (k := (perform setup (.drain ts) (perform setup (.advance ts) k).2).2) _ rfl
  have hreports : Quietly setup _ (drainReports setup ts (perform setup (.advance ts) k).2) :=
    Quietly.processOutbox
  generalize drainReports setup ts (perform setup (.advance ts) k).2 = k₁ at *
  have hpop : Between setup k₁ (perform setup (.popDue ts) k₁).2 :=
    between_perform (.popDue ts) trivial rfl
  have hfire : Quietly setup (perform setup (.popDue ts) k₁).2 (fireTimers setup ts k₁) :=
    Quietly.foldl (fun _ _ ↦ (Quietly.callQuiet id).trans Quietly.processOutbox) _
  refine ⟨((((hadvance.trans hdrain).trans hfold).trans hreports.between).trans hpop).trans
    hfire.between, ?_⟩
  rw [hfire.pending_eq]
  exact hreports.pending_eq.trans hnil

/-! ## Market events -/

/-- The strategy is called once for a market event. -/
theorem dispatchMarket_spec (ev : MarketEvent)
    (hbook : ∀ d, ev = .delta d → k.core.oms.cache.orderBook d.instrumentId ≠ none) :
    ∃ cb, Calls cb ev
      ∧ Quietly setup { k with journal := k.journal ++ [cb] } (dispatchMarket setup ev k) := by
  cases ev with
  | quote q => exact ⟨_, .quote q, Quietly.call _⟩
  | trade t => exact ⟨_, .trade t, Quietly.call _⟩
  | bar b => exact ⟨_, .bar b, Quietly.call _⟩
  | delta d =>
    obtain ⟨book, hsome⟩ := Option.ne_none_iff_exists'.mp (hbook d rfl)
    refine ⟨_, .book book d, ?_⟩
    simp only [dispatchMarket, hsome]
    exact Quietly.call _

theorem Quietly.dispatched_eq (h : Quietly setup k k') : dispatched k'.ops = dispatched k.ops := by
  obtain ⟨l, hops, hquiet, -⟩ := h.run
  rw [hops]
  exact dispatched_append_of_not_isMarket fun op hop ↦ (hquiet op hop).not_isMarket

theorem dispatched_publish (ev : MarketEvent) (k : BacktestKernel σ) :
    dispatched (perform setup (.onMarket ev) (perform setup (.process ev) k).2).2.ops
      = dispatched k.ops ++ [ev] := by
  have hops : (perform setup (.onMarket ev) (perform setup (.process ev) k).2).2.ops
      = k.ops ++ [.process ev] ++ [.onMarket ev] := rfl
  rw [hops, dispatched, List.filterMap_append, List.filterMap_append]
  exact List.append_nil _

variable (setup) in
theorem preserved_dispatched (events : List MarketEvent) :
    Preserved setup fun feed (k : BacktestKernel σ) ↦
      dispatched k.ops ++ feed = sortedEvents events := by
  refine ⟨fun feed k op hop hk ↦ ?_, fun ev feed k hk ↦ ?_, fun _ _ _ hk ↦ hk,
    fun feed k k' hmove hk ↦ ?_⟩
  · have hops : (perform setup op k).2.ops = k.ops ++ [op] := rfl
    rwa [hops, dispatched_append_of_not_isMarket
      fun op' hop' ↦ by rwa [List.mem_singleton.mp hop']]
  · rwa [dispatched_publish, List.append_assoc, List.singleton_append]
  · rwa [hmove.dispatched_eq]

/-- A market event is published, matched and handed to the strategy, once each. -/
theorem marketEvent_spec (ts : UnixNanos) (ev : MarketEvent) (hk : OnTime setup k) :
    OnTime setup (marketEvent setup ts ev k)
      ∧ (marketEvent setup ts ev k).core.pending = k.core.pending
      ∧ dispatched (marketEvent setup ts ev k).ops = dispatched k.ops ++ [ev]
      ∧ (∃ cb, Calls cb ev
        ∧ marketCalls (marketEvent setup ts ev k).journal = marketCalls k.journal ++ [cb])
      ∧ (marketEvent setup ts ev k).expiries <:+ k.expiries := by
  let k₁ := (perform setup (.process ev) k).2
  let k₂ := (perform setup (.onMarket ev) k₁).2
  have hk₂ : OnTime setup k₂ := (hk.perform (.process ev) trivial).perform (.onMarket ev) trivial
  have hbook : ∀ d, ev = .delta d → k₂.core.oms.cache.orderBook d.instrumentId ≠ none := by
    rintro d rfl
    change (AList.insert d.instrumentId _ _).lookup d.instrumentId ≠ none
    rw [AList.lookup_insert]
    exact Option.some_ne_none _
  obtain ⟨cb, hcb, hdispatch⟩ : ∃ cb, Calls cb ev ∧ Quietly setup
      { k₂ with journal := k₂.journal ++ [cb] } (dispatchMarket setup ev k₂) :=
    dispatchMarket_spec ev hbook
  have hquiet :
      Quietly setup { k₂ with journal := k₂.journal ++ [cb] } (marketEvent setup ts ev k) :=
    (hdispatch.trans Quietly.processOutbox).trans (Quietly.sampleEquity ts ev)
  have hk₃ : OnTime setup { k₂ with journal := k₂.journal ++ [cb] } := ⟨hk₂.replays, hk₂.timely⟩
  have hmarket : cb.IsMarket := by
    cases hcb <;> exact trivial
  refine ⟨hk₃.quietly hquiet, hquiet.pending_eq, ?_, ⟨cb, hcb, ?_⟩, hquiet.expiries⟩
  · exact hquiet.between.dispatched.trans (dispatched_publish ev k)
  · refine hquiet.between.calls.trans ?_
    change marketCalls (k.journal ++ [cb]) = _
    simp [marketCalls, hmarket]

/-! ## The frontier -/

theorem exists_setTimer_of_mem_heap {ops : List CoreOp} {e : Timed TimerId}
    (he : e ∈ (historyOf setup ops).core.clock.heap.entries) :
    ∃ name, .setTimer name e.due ∈ ops := by
  induction ops using List.reverseRecOn with
  | nil => cases he
  | append_singleton ops op ih =>
    have hback : e ∈ (historyOf setup ops).core.clock.heap.entries
        ∨ ∃ name, op = .setTimer name e.due := by
      rw [historyOf, List.foldl_append] at he
      change e ∈ ((historyOf setup ops).core.step setup.config.brokerage op).clock.heap.entries
        at he
      generalize (historyOf setup ops).core = c at he
      cases op with
      | setTimer name ts =>
        rcases (List.mem_orderedInsert _).mp he with rfl | he
        · exact .inr ⟨name, rfl⟩
        · exact .inl he
      | popDue frontier =>
        change e ∈ (c.clock.popDue frontier).1.heap.entries at he
        rw [HistoricalClock.heap_popDue] at he
        exact .inl ((List.dropWhile_sublist _).subset he)
      | advance ts =>
        refine .inl ?_
        change e ∈ (c.clock.advanceTo ts).heap.entries at he
        unfold HistoricalClock.advanceTo at he
        split_ifs at he <;> exact he
      | applyNext => exact .inl ((Core.step_applyNext setup.config.brokerage c).2.1 ▸ he)
      | closeAt iid px now tagSuffix =>
        refine .inl ?_
        simp only [Core.step, Core.exec] at he
        split at he <;> exact he
      | _ => exact .inl he
    rcases hback with hold | ⟨name, rfl⟩
    · obtain ⟨name, hmem⟩ := ih hold
      exact ⟨name, List.mem_append_left _ hmem⟩
    · exact ⟨name, List.mem_append_right _ List.mem_cons_self⟩

omit [DecimalWidth] in
theorem frontier_le_due {feed : List MarketEvent} {ts : UnixNanos}
    (hfrontier : frontier feed k = some ts) : ∀ e ∈ k.core.oms.sim.queue.entries, ts ≤ e.due := by
  refine DueQueue.le_due_of_peekDue fun d hd ↦ (frontier_eq_some_iff.mp hfrontier).2 d ?_
  refine List.mem_append_right _ (List.mem_filterMap.mpr ⟨some d, ?_, rfl⟩)
  rw [← hd]
  exact List.mem_cons_self

omit [DecimalWidth] in
theorem frontier_eq_none_iff {feed : List MarketEvent} : frontier feed k = none ↔ feed = []
    ∧ k.core.oms.sim.queue.entries = []
    ∧ (∀ e ∈ k.core.clock.heap.entries, e.item ∈ k.core.clock.cancelled) ∧ k.expiries = [] := by
  have hall : frontier feed k = none ↔ feed.head?.map MarketEvent.tsEvent = none
      ∧ k.core.oms.sim.queue.peekDue = none ∧ k.core.clock.peekNextTimer = none
      ∧ k.expiries.head?.map Prod.fst = none := by
    simp [frontier, List.filterMap_eq_nil_iff]
  rw [hall]
  simp [DueQueue.peekDue, HistoricalClock.peekNextTimer, List.filter_eq_nil_iff]

/-! ## Whole runs -/

/-- Times that a strategy hands over are 64-bit. -/
def CoreOp.FitsU64 : CoreOp → Prop
  | .setTimer _ ts => ts ≤ u64Max
  | _ => True

instance : DecidablePred CoreOp.FitsU64 := fun op ↦
  match op with
  | .setTimer _ ts => inferInstanceAs (Decidable (ts ≤ u64Max))
  | .submit .. | .cancel .. | .process _ | .onMarket _ | .closeAt .. | .cancelTimer _ | .popDue _
  | .advance _ | .drain _ | .applyNext => isTrue trivial

variable (setup) in
/-- The times a run is given are 64-bit: those of the configuration, of the events and of the
timers. -/
structure FitsU64 (events : List MarketEvent) (ops : List CoreOp) : Prop where
  start : setup.config.startNs ≤ u64Max
  expiries : ∀ i ∈ setup.config.instruments, ∀ e ∈ i.expiryNs, e ≤ u64Max
  events : ∀ ev ∈ events, ev.tsEvent ≤ u64Max
  timers : ∀ op ∈ ops, CoreOp.FitsU64 op

variable (setup) in
/-- What holds whenever the loop looks for its next frontier. -/
structure LoopInv (events feed : List MarketEvent) (k : BacktestKernel σ) : Prop where
  onTime : OnTime setup k
  pending : k.core.pending = []
  feed : dispatched k.ops ++ feed = sortedEvents events
  calls : List.Forall₂ Calls (marketCalls k.journal) (dispatched k.ops)
  expiries : ∀ e ∈ k.expiries, e.1 ≤ u64Max

variable {events feed : List MarketEvent} {ts : UnixNanos}

theorem LoopInv.between (h : LoopInv setup events feed k) (hmove : Between setup k k')
    (hpending : k'.core.pending = []) : LoopInv setup events feed k' where
  onTime := hmove.onTime h.onTime
  pending := hpending
  feed := hmove.dispatched ▸ h.feed
  calls := by
    rw [hmove.calls, hmove.dispatched]
    exact h.calls
  expiries := fun e he ↦ h.expiries e (hmove.expiries.subset he)

theorem LoopInv.quietly (h : LoopInv setup events feed k) (hmove : Quietly setup k k') :
    LoopInv setup events feed k' :=
  h.between hmove.between (hmove.pending_eq.trans h.pending)

theorem loopInv_start (hexpiries : ∀ i ∈ setup.config.instruments, ∀ e ∈ i.expiryNs, e ≤ u64Max) :
    LoopInv setup events (sortedEvents events) (start setup) := by
  have hbuild : LoopInv setup events (sortedEvents events) (build setup) := by
    refine ⟨⟨replays_build, trivial⟩, rfl, rfl, .nil, fun e he ↦ ?_⟩
    obtain ⟨i, hi, hmap⟩ := List.mem_filterMap.mp ((List.perm_insertionSort _ _).subset he)
    obtain ⟨ns, hns, rfl⟩ := Option.map_eq_some_iff.mp hmap
    exact hexpiries i hi ns hns
  exact hbuild.quietly Quietly.start

theorem LoopInv.takeMarket (h : LoopInv setup events feed k) (ts : UnixNanos) :
    LoopInv setup events (takeMarket setup ts feed k).1 (takeMarket setup ts feed k).2 := by
  cases feed with
  | nil => exact h
  | cons ev rest =>
    simp only [BacktestKernel.takeMarket]
    split_ifs with hev
    · obtain ⟨honTime, hpending, hdispatched, ⟨cb, hcb, hcalls⟩, hexpiries⟩ :=
        marketEvent_spec ts ev h.onTime
      refine ⟨honTime, hpending.trans h.pending, ?_, ?_, fun e he ↦ ?_⟩
      · rw [hdispatched, List.append_assoc]
        exact h.feed
      · rw [hcalls, hdispatched]
        exact List.rel_append h.calls (.cons hcb .nil)
      · exact h.expiries e (hexpiries.subset he)
    · exact h

theorem LoopInv.frontier_le (h : LoopInv setup events feed k) (hfits : FitsU64 setup events k.ops)
    (hfrontier : frontier feed k = some ts) : ts ≤ u64Max := by
  have hcore : (historyOf setup k.ops).core = k.core :=
    (core_historyOf k.ops).trans h.onTime.replays.symm
  rcases List.mem_append.mp (frontier_eq_some_iff.mp hfrontier).1 with hmem | hmem
  · -- the next event
    obtain ⟨ev, hev, rfl⟩ := Option.map_eq_some_iff.mp (Option.mem_toList.mp hmem)
    have hsorted : ev ∈ sortedEvents events := by
      rw [← h.feed]
      exact List.mem_append_right _ (List.mem_of_mem_head? hev)
    exact hfits.events ev ((List.perm_insertionSort _ events).subset hsorted)
  · simp only [internalTimes, List.mem_filterMap, id, List.mem_cons, List.not_mem_nil,
      or_false] at hmem
    obtain ⟨a, rfl | rfl | rfl, ha⟩ := hmem
    · -- the next report
      obtain ⟨e, he, rfl⟩ := Option.map_eq_some_iff.mp ha
      refine ((inv_historyOf hfits.start h.onTime.timely).ahead e ?_).2
      rw [History.queue, hcore]
      exact List.mem_of_mem_head? he
    · -- the next timer
      obtain ⟨e, he, rfl⟩ := List.mem_map.mp (List.min?_mem ha)
      have hheap : e ∈ (historyOf setup k.ops).core.clock.heap.entries := by
        rw [hcore]
        exact List.mem_of_mem_filter he
      obtain ⟨name, hname⟩ := exists_setTimer_of_mem_heap hheap
      exact hfits.timers _ hname
    · -- the next expiry
      obtain ⟨e, he, rfl⟩ := Option.map_eq_some_iff.mp ha
      exact h.expiries e (List.mem_of_mem_head? he)

/-- **One iteration.** -/
theorem LoopInv.iterate (h : LoopInv setup events feed k) (hfits : FitsU64 setup events k.ops)
    (hfrontier : frontier feed k = some ts) :
    LoopInv setup events (iterate setup ts feed k).1 (iterate setup ts feed k).2 := by
  obtain ⟨htimers, hnil⟩ : Between setup _ _ ∧ _ :=
    between_timers h.pending (h.frontier_le hfits hfrontier) (frontier_le_due hfrontier)
  exact ((h.between htimers hnil).takeMarket ts).quietly
    ((Quietly.settleExpiries ts).trans (Quietly.checkLiquidation ts))

omit [DecimalWidth] in
theorem FitsU64.mono {ops ops' : List CoreOp} (h : FitsU64 setup events ops')
    (hinitial : ops <+: ops') : FitsU64 setup events ops :=
  { h with timers := fun op hop ↦ h.timers op (hinitial.subset hop) }

theorem Looped.inv (h : Looped setup events feed k) (hfits : FitsU64 setup events k.ops) :
    LoopInv setup events feed k := by
  induction h with
  | start => exact loopInv_start hfits.expiries
  | iterate hlooped hfrontier ih =>
    have hbefore := hfits.mono (ops_prefix_iterate _ _ _)
    exact (ih hbefore).iterate hbefore hfrontier

variable (setup) in
/-- What holds of a state, and of every point of the record that led to it. -/
structure InOrder (events : List MarketEvent) (k : BacktestKernel σ) : Prop where
  /-- The history of the record is that of the kernel's core. -/
  core : (historyOf setup k.ops).core = k.core
  /-- Market events are published in the order of the sorted input, without gap or repetition. -/
  events : ∀ front, front <+: k.ops → dispatched front <+: sortedEvents events
  /-- The strategy is called once for each. -/
  calls : List.Forall₂ Calls (marketCalls k.journal) (dispatched k.ops)
  /-- Reports are folded once, when they are due, in the order of their due times. -/
  reports : ∀ front, front <+: k.ops → (historyOf setup front).Delivered
  /-- The clock never moves backwards. -/
  clock : ∀ front front', front <+: front' → front' <+: k.ops →
    (historyOf setup front).now ≤ (historyOf setup front').now

variable (setup) in
/-- Nothing is left to do: every event is published, every scheduled report is folded, and a timer
that is left has been cancelled. -/
structure NothingLeft (events : List MarketEvent) (k : BacktestKernel σ) : Prop where
  events : dispatched k.ops = sortedEvents events
  queue : k.core.oms.sim.queue.entries = []
  reports : ((historyOf setup k.ops).delivered.map Prod.fst).Perm (historyOf setup k.ops).scheduled
  timers : ∀ e ∈ k.core.clock.heap.entries, e.item ∈ k.core.clock.cancelled

theorem LoopInv.inOrder (h : LoopInv setup events feed k)
    (hstart : setup.config.startNs ≤ u64Max) : InOrder setup events k where
  core := (core_historyOf k.ops).trans h.onTime.replays.symm
  events := fun front hfront ↦ (dispatched_mono hfront).trans ⟨feed, h.feed⟩
  calls := h.calls
  reports := by
    rintro front ⟨rest, hrest⟩
    have htimely := h.onTime.timely
    rw [← hrest] at htimely
    exact (inv_historyOf hstart (along_append.mp htimely).1).delivered
  clock := fun _ _ hle _ ↦ now_historyOf_mono hle

theorem LoopInv.nothingLeft (h : LoopInv setup events feed k)
    (hstart : setup.config.startNs ≤ u64Max) (hfrontier : frontier feed k = none) :
    NothingLeft setup events k := by
  obtain ⟨rfl, hqueue, htimers, -⟩ := frontier_eq_none_iff.mp hfrontier
  have hinv := inv_historyOf hstart h.onTime.timely
  have hcore : (historyOf setup k.ops).core = k.core :=
    (core_historyOf k.ops).trans h.onTime.replays.symm
  refine ⟨(List.append_nil _).symm.trans h.feed, hqueue, ?_, htimers⟩
  have hwaiting : (historyOf setup k.ops).waiting = [] := by
    have hpending := hinv.pending
    rwa [hcore, h.pending, List.map_eq_nil_iff] at hpending
  have honce := hinv.once
  rwa [hwaiting, History.queue, hcore, hqueue, List.append_nil, List.append_nil] at honce

/-- **Everything is delivered once and in order.** In every state of a run, and at every point of
the record that led to it, market events have been published in the order of the sorted input,
reports have been folded when they were due, and the clock has not moved backwards. The run ends
when nothing is left; what `onStop` does comes after that. -/
theorem delivery_in_order (events : List MarketEvent) (k : BacktestKernel σ)
    (hk : Reached setup events k) (hfits : FitsU64 setup events k.ops) :
    InOrder setup events k ∧ ∀ n, run setup n (sortedEvents events) (start setup) = some k →
      ∃ k₀, k = finish setup k₀ ∧ InOrder setup events k₀ ∧ NothingLeft setup events k₀ := by
  have hend (n : ℕ) (hrun : run setup n (sortedEvents events) (start setup) = some k) :
      InOrder setup events k
        ∧ ∃ k₀, k = finish setup k₀ ∧ InOrder setup events k₀ ∧ NothingLeft setup events k₀ := by
    obtain ⟨feed, k₀, hlooped, hfrontier, rfl⟩ := Looped.start.exists_of_run hrun
    have hfinish : Quietly setup k₀ (finish setup k₀) := Quietly.finish
    have hinv := hlooped.inv (hfits.mono hfinish.between.ops)
    exact ⟨(hinv.quietly hfinish).inOrder hfits.start, k₀, rfl, hinv.inOrder hfits.start,
      hinv.nothingLeft hfits.start hfrontier⟩
  refine ⟨?_, fun n hrun ↦ (hend n hrun).2⟩
  cases hk with
  | start => exact (loopInv_start hfits.expiries).inOrder hfits.start
  | iterate hmem =>
    obtain ⟨feed, hlooped⟩ := Looped.start.exists_of_mem_trace _ hmem
    exact (hlooped.inv hfits).inOrder hfits.start
  | finish hrun => exact (hend _ hrun).1

end Run

section Instances

open scoped RustDecimal

/-- On the first trade, the strategy buys at market and sets a timer for time four. Reports come
without latency. -/
def buyOnce : Setup Bool where
  config := ⟨[Position.perp false], ⟨"USDT", 2, two_le_maxPrecision⟩,
    ⟨100000, ⟨"USDT", 2, two_le_maxPrecision⟩⟩,
    .unlimited, ({ latencyNs := 0 } : DefaultBrokerageModel).brokerage, 0⟩
  strategyId := ⟨"S"⟩
  strategy := ⟨fun sent cb ↦ match sent, cb with
    | false, .trade _ => .submitMarket (Position.perp false).id .buy ⟨1, 0⟩ fun _ ↦
        .setTimer "reminder" 4 fun _ ↦ .done true
    | _, _ => .done sent⟩
  initial := false
  killed := false
  hash := .lastInserted

/-- The end of a run over two trades at one time. The order is acknowledged and filled at that time,
and a timer in the past fires. -/
def endOfTwo? : Option (BacktestKernel Bool) :=
  run buyOnce 9 (sortedEvents [tradeAt 7, tradeAt 7]) (start buyOnce)

theorem isSome_endOfTwo? : endOfTwo?.isSome = true := by decide +kernel

/-- Both reports are delivered at seven. -/
theorem delivery_in_order_twoTrades : ∃ k, Reached buyOnce [tradeAt 7, tradeAt 7] k
    ∧ FitsU64 buyOnce [tradeAt 7, tradeAt 7] k.ops
    ∧ (historyOf buyOnce k.ops).delivered.map (fun x ↦ (x.1.seq, x.2)) = [(1, 7), (2, 7)]
    ∧ InOrder buyOnce [tradeAt 7, tradeAt 7] k
    ∧ ∃ k₀, k = finish buyOnce k₀ ∧ InOrder buyOnce [tradeAt 7, tradeAt 7] k₀
      ∧ NothingLeft buyOnce [tradeAt 7, tradeAt 7] k₀ := by
  have hrun : run buyOnce 9 (sortedEvents [tradeAt 7, tradeAt 7]) (start buyOnce)
      = some (endOfTwo?.get isSome_endOfTwo?) := (Option.some_get isSome_endOfTwo?).symm
  have hfits : FitsU64 buyOnce [tradeAt 7, tradeAt 7] (endOfTwo?.get isSome_endOfTwo?).ops :=
    ⟨by decide, by decide, by decide, by decide +kernel⟩
  have hall := delivery_in_order [tradeAt 7, tradeAt 7] _ (.finish hrun) hfits
  exact ⟨_, .finish hrun, hfits, by decide +kernel, hall.1, hall.2 9 hrun⟩

end Instances

end BacktestKernel

end Coinext
