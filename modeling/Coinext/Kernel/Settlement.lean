import Coinext.Kernel.Loop

/-!
# The price that an expiring contract settles at

An iteration processes at most one market event and then settles what expires at its frontier. A
contract is settled in the first iteration at its expiry. By then the events before the expiry have
been processed, and of the events at the expiry only the first. So the price is final exactly when
the other events at the expiry would leave it where it is.
-/

namespace Coinext

/-! ## Marks -/

namespace Cache

theorem marks_process {c c' : Cache} (h : c.marks = c'.marks) (ev : MarketEvent) :
    (c.process ev).marks = (c'.process ev).marks := by
  cases ev with
  | quote q => exact congrArg (AList.insert q.instrumentId q.mid) h
  | trade t => exact congrArg (AList.insert t.instrumentId t.price) h
  | bar b => exact congrArg (AList.insert b.barType.instrumentId b.close) h
  | delta d => exact h

theorem marks_foldl_process {c c' : Cache} (h : c.marks = c'.marks) (l : List MarketEvent) :
    (l.foldl process c).marks = (l.foldl process c').marks := by
  induction l generalizing c c' with
  | nil => exact h
  | cons ev l ih => exact ih (marks_process h ev)

end Cache

section Marks

variable [DecimalWidth] (model : BrokerageModel)

theorem ExecutionEngine.marks_applyToOrder (id : ClientOrderId) (ev : OrderEvent) (s : Oms) :
    (applyToOrder id ev s).2.cache.marks = s.cache.marks :=
  applyToOrder_induction (I := fun s' ↦ s'.cache.marks = s.cache.marks) (fun _ _ _ h ↦ h) rfl id ev

theorem ExecutionEngine.marks_applyReport (report : ExecutionReport) (now : UnixNanos) (s : Oms) :
    (applyReport report now s).2.cache.marks = s.cache.marks := by
  refine applyReport_induction (I := fun s' ↦ s'.cache.marks = s.cache.marks) (fun _ _ _ h ↦ h)
    (fun _ _ h ↦ h) (fun s' f h ↦ ?_) rfl report now
  rw [← h]
  unfold foldPosition
  split <;> rfl

theorem Core.marks_step (c : Core) {op : CoreOp} (hop : op.processed? = none) :
    (c.step model op).oms.cache.marks = c.oms.cache.marks := by
  cases op with
  | process ev => cases hop
  | applyNext =>
    rcases c.applyNext_cases model with ⟨-, heq⟩ | ⟨r, rest, -, heq⟩
    · rw [heq]
    · rw [heq]
      exact ExecutionEngine.marks_applyReport r c.clock.now c.oms
  | submit risk portfolio order now =>
    change (ExecutionEngine.submit ..).2.cache.marks = _
    obtain heq | ⟨ev, s', heq, -, -, hcache, -⟩ :=
      ExecutionEngine.submit_cases risk portfolio model c.clock.now order now c.oms
    · rw [heq]
    · rw [heq, hcache]
      rfl
  | cancel id now => exact ExecutionEngine.marks_applyToOrder id (.pendingCancel now) c.oms
  | closeAt iid px now tagSuffix =>
    rcases c.closeAt_cases model iid px now tagSuffix with ⟨-, heq⟩ | ⟨inst, pos, f, -, heq⟩
    · rw [heq]
    · rw [heq]
      rfl
  | _ => rfl

theorem Core.marks_foldl_step (c : Core) (ops : List CoreOp) :
    (ops.foldl (Core.step model) c).oms.cache.marks
      = ((dispatched ops).foldl Cache.process c.oms.cache).marks := by
  induction ops generalizing c with
  | nil => rfl
  | cons op ops ih =>
    rw [List.foldl_cons, ih]
    cases hop : op.processed? with
    | none =>
      have hsame : dispatched (op :: ops) = dispatched ops := List.filterMap_cons_none hop
      rw [hsame]
      exact Cache.marks_foldl_process (c.marks_step model hop) _
    | some ev =>
      -- only the data engine publishes
      cases op <;> cases hop
      rfl

end Marks

namespace BacktestKernel

section Settlement

variable {σ : Type} [DecimalWidth]

theorem settlementPrice_congr {c c' : Cache} (h : c.marks = c'.marks) (inst : Instrument)
    (iid : InstrumentId) : settlementPrice c inst iid = settlementPrice c' inst iid := by
  have hmark : c.mark = c'.mark := funext fun id ↦ congrArg (AList.lookup id) h
  unfold settlementPrice
  rw [hmark]

/-- The cache after market events and nothing else. -/
def cacheAfter (config : BacktestConfig) (l : List MarketEvent) : Cache :=
  l.foldl Cache.process (initialCore config).oms.cache

variable (setup : Setup σ)

/-- In the run, `iid` with the expiry `expiry` is settled in the state `k`: it is due in some
iteration, and the contracts before it have been settled. -/
inductive Settles (events : List MarketEvent) (expiry : UnixNanos) (iid : InstrumentId) :
    BacktestKernel σ → Prop
  | due {feed : List MarketEvent} {k : BacktestKernel σ} {ts : UnixNanos}
      {front back : List (UnixNanos × InstrumentId)} :
    Looped setup events feed k → frontier feed k = some ts →
    ((untilMarket setup ts feed k).2.expiries.takeWhile fun e ↦ e.1 ≤ ts)
      = front ++ (expiry, iid) :: back →
    Settles events expiry iid (front.foldl (fun k e ↦ settleContract setup ts k e.2)
      { (untilMarket setup ts feed k).2 with
        expiries := (untilMarket setup ts feed k).2.expiries.dropWhile fun e ↦ e.1 ≤ ts })

/-- What holds of the expiries whenever the loop looks for its next frontier. -/
structure SettlementInv (events feed : List MarketEvent) (k : BacktestKernel σ) : Prop where
  feed : dispatched k.ops ++ feed = sortedEvents events
  sorted : k.expiries.Pairwise fun a b ↦ a.1 ≤ b.1
  /-- The events that were processed are before the expiries that are left. -/
  before : ∀ ev ∈ dispatched k.ops, ∀ e ∈ k.expiries, ev.tsEvent < e.1

variable {setup} {events feed : List MarketEvent} {k k' : BacktestKernel σ} {ts : UnixNanos}

variable (setup) in
theorem preserved_feed (events : List MarketEvent) (expiries : List (UnixNanos × InstrumentId)) :
    Preserved setup fun feed (k : BacktestKernel σ) ↦
      dispatched k.ops ++ feed = sortedEvents events ∧ k.expiries <:+ expiries := by
  have hexpiries : Preserved setup fun _ (k : BacktestKernel σ) ↦ k.expiries <:+ expiries :=
    ⟨fun _ _ _ _ hk ↦ hk, fun _ _ _ hk ↦ hk, fun _ _ _ hk ↦ hk,
      fun _ _ _ hmove hk ↦ hmove.expiries.trans hk⟩
  exact (preserved_dispatched setup events).and hexpiries

omit [DecimalWidth] in
theorem SettlementInv.le_expiry (h : SettlementInv events feed k)
    (hfrontier : frontier feed k = some ts) : ∀ e ∈ k.expiries, ts ≤ e.1 := by
  have hmin := (frontier_eq_some_iff.mp hfrontier).2
  intro e he
  cases hexpiries : k.expiries with
  | nil =>
    rw [hexpiries] at he
    cases he
  | cons first rest =>
    have hfirst : ts ≤ first.1 := by
      refine hmin first.1 (List.mem_append_right _ ?_)
      simp [internalTimes, hexpiries]
    have hsorted := h.sorted
    rw [hexpiries] at he hsorted
    rcases List.mem_cons.mp he with rfl | hrest
    · exact hfirst
    · exact hfirst.trans ((List.pairwise_cons.mp hsorted).1 e hrest)

omit [DecimalWidth] in
theorem SettlementInv.sorted_feed (h : SettlementInv events feed k) :
    feed.Pairwise fun a b ↦ a.tsEvent ≤ b.tsEvent := by
  have hsorted := sorted_sortedEvents events
  rw [← h.feed] at hsorted
  exact (List.pairwise_append.mp hsorted).2.1

omit [DecimalWidth] in
theorem SettlementInv.le_event (h : SettlementInv events feed k)
    (hfrontier : frontier feed k = some ts) : ∀ ev ∈ feed, ts ≤ ev.tsEvent := by
  have hmin := (frontier_eq_some_iff.mp hfrontier).2
  intro ev hev
  have hsorted := h.sorted_feed
  cases feed with
  | nil => cases hev
  | cons first rest =>
    have hfirst : ts ≤ first.tsEvent := hmin _ (List.mem_append_left _ (by simp))
    rcases List.mem_cons.mp hev with rfl | hrest
    · exact hfirst
    · exact hfirst.trans ((List.pairwise_cons.mp hsorted).1 ev hrest)

theorem feed_eq_take_append_takeMarket (hsorted : feed.Pairwise fun a b ↦ a.tsEvent ≤ b.tsEvent)
    (hle : ∀ ev ∈ feed, ts ≤ ev.tsEvent) (k : BacktestKernel σ) :
    feed = (feed.filter fun ev ↦ ev.tsEvent = ts).take 1 ++ (takeMarket setup ts feed k).1 := by
  cases feed with
  | nil => rfl
  | cons first rest =>
    simp only [takeMarket]
    by_cases hfirst : first.tsEvent = ts
    · rw [List.filter_cons_of_pos (by simpa using hfirst), if_pos hfirst]
      rfl
    · -- the others are no earlier than the first, which is past the frontier
      have hnone : (first :: rest).filter (fun ev ↦ ev.tsEvent = ts) = [] := by
        refine List.filter_eq_nil_iff.mpr fun ev hev ↦ ?_
        rw [decide_eq_true_eq]
        rintro rfl
        rcases List.mem_cons.mp hev with rfl | hrest
        · exact hfirst rfl
        · exact hfirst (le_antisymm ((List.pairwise_cons.mp hsorted).1 ev hrest)
            (hle first List.mem_cons_self))
      rw [hnone, if_neg hfirst]
      rfl

theorem SettlementInv.dispatched_untilMarket (h : SettlementInv events feed k)
    (hfrontier : frontier feed k = some ts) : dispatched (untilMarket setup ts feed k).2.ops
      = dispatched k.ops ++ (feed.filter fun ev ↦ ev.tsEvent = ts).take 1 := by
  have hfeed :=
    ((preserved_feed setup events k.expiries).untilMarket ts ⟨h.feed, List.suffix_rfl⟩).1
  have htaken : feed = (feed.filter fun ev ↦ ev.tsEvent = ts).take 1
      ++ (untilMarket setup ts feed k).1 :=
    feed_eq_take_append_takeMarket h.sorted_feed (h.le_event hfrontier) _
  have hall := h.feed
  rw [htaken, ← hfeed, ← List.append_assoc] at hall
  exact (List.append_cancel_right hall).symm

omit [DecimalWidth] in
theorem lt_of_mem_dropWhile {l : List (UnixNanos × InstrumentId)}
    (hsorted : l.Pairwise fun a b ↦ a.1 ≤ b.1) {e : UnixNanos × InstrumentId}
    (he : e ∈ l.dropWhile fun e ↦ e.1 ≤ ts) : ts < e.1 := by
  induction l with
  | nil => cases he
  | cons first rest ih =>
    obtain ⟨hfirst, hrest⟩ := List.pairwise_cons.mp hsorted
    rw [List.dropWhile_cons] at he
    split_ifs at he with hle
    · exact ih hrest he
    · have hlt : ts < first.1 := by simpa using hle
      rcases List.mem_cons.mp he with rfl | hmem
      · exact hlt
      · exact hlt.trans_le (hfirst e hmem)

/-- **One iteration.** -/
theorem SettlementInv.iterate (h : SettlementInv events feed k)
    (hfrontier : frontier feed k = some ts) :
    SettlementInv events (iterate setup ts feed k).1 (iterate setup ts feed k).2 := by
  have huntil := (preserved_feed setup events k.expiries).untilMarket ts ⟨h.feed, List.suffix_rfl⟩
  have hall := (preserved_feed setup events k.expiries).iterate ts ⟨h.feed, List.suffix_rfl⟩
  have hlater : (BacktestKernel.iterate setup ts feed k).2.expiries
      <:+ (untilMarket setup ts feed k).2.expiries.dropWhile fun e ↦ e.1 ≤ ts := by
    rw [iterate_eq]
    exact ((Quietly.foldl (fun _ e ↦ Quietly.settleContract ts (Prod.snd e)) _).trans
      (Quietly.checkLiquidation ts)).expiries
  refine ⟨hall.1, h.sorted.sublist hall.2.sublist, fun ev hev e he ↦ ?_⟩
  have hpast : ts < e.1 :=
    lt_of_mem_dropWhile (h.sorted.sublist huntil.2.sublist) (hlater.subset he)
  have hdispatched : dispatched (BacktestKernel.iterate setup ts feed k).2.ops
      = dispatched (untilMarket setup ts feed k).2.ops := by
    rw [iterate_eq]
    exact ((Quietly.settleExpiries ts).trans (Quietly.checkLiquidation ts)).dispatched_eq
  rw [hdispatched, h.dispatched_untilMarket hfrontier] at hev
  rcases List.mem_append.mp hev with hold | hnew
  · exact h.before ev hold e (hall.2.subset he)
  · have hat := (List.mem_filter.mp (List.mem_of_mem_take hnew)).2
    rw [decide_eq_true_eq] at hat
    exact hat.trans_lt hpast

theorem settlementInv_start (events : List MarketEvent) :
    SettlementInv events (sortedEvents events) (start setup) := by
  have hquiet : Quietly setup (build setup) (start setup) := Quietly.start
  have hnone : dispatched (start setup).ops = [] := hquiet.dispatched_eq
  have hschedule : (expirySchedule setup.config).Pairwise fun a b ↦ a.1 ≤ b.1 := by
    have : Std.Total fun a b : UnixNanos × InstrumentId ↦ a.1 ≤ b.1 := ⟨fun a b ↦ Nat.le_total _ _⟩
    have : IsTrans (UnixNanos × InstrumentId) fun a b ↦ a.1 ≤ b.1 := ⟨fun a b c ↦ Nat.le_trans⟩
    exact List.pairwise_insertionSort _ _
  refine ⟨?_, hschedule.sublist hquiet.expiries.sublist, fun ev hev ↦ ?_⟩
  · rw [hnone]
    rfl
  · rw [hnone] at hev
    cases hev

theorem Looped.settlementInv (h : Looped setup events feed k) : SettlementInv events feed k := by
  induction h with
  | start => exact settlementInv_start events
  | iterate _ hfrontier ih => exact ih.iterate hfrontier

/-! ## What a settlement has seen -/

variable {expiry : UnixNanos} {iid : InstrumentId}

/-- **A contract is settled when the events before its expiry and the first event at its expiry have
been published.** -/
theorem Settles.dispatched_eq (h : Settles setup events expiry iid k) : dispatched k.ops
    = (sortedEvents events).filter (fun ev ↦ ev.tsEvent < expiry)
      ++ ((sortedEvents events).filter fun ev ↦ ev.tsEvent = expiry).take 1 := by
  obtain @⟨feed, k, ts, front, back, hlooped, hfrontier, hdue⟩ := h
  have hinv := hlooped.settlementInv
  have huntil := (preserved_feed setup events k.expiries).untilMarket ts
    ⟨hinv.feed, List.suffix_rfl⟩
  have hmem : (expiry, iid)
      ∈ (untilMarket setup ts feed k).2.expiries.takeWhile fun e ↦ e.1 ≤ ts := by
    rw [hdue]
    exact List.mem_append_right _ List.mem_cons_self
  have hleft : (expiry, iid) ∈ k.expiries :=
    huntil.2.subset ((List.takeWhile_prefix _).subset hmem)
  -- the frontier is at the expiry
  obtain rfl : ts = expiry := by
    refine le_antisymm (hinv.le_expiry hfrontier _ hleft) ?_
    simpa using List.mem_takeWhile_imp hmem
  have hbefore : (sortedEvents events).filter (fun ev ↦ ev.tsEvent < ts) = dispatched k.ops := by
    rw [← hinv.feed, List.filter_append, List.filter_eq_self.mpr, List.filter_eq_nil_iff.mpr,
      List.append_nil]
    · intro ev hev
      simpa using hinv.le_event hfrontier ev hev
    · intro ev hev
      simpa using hinv.before ev hev _ hleft
  have htied : (sortedEvents events).filter (fun ev ↦ ev.tsEvent = ts)
      = feed.filter fun ev ↦ ev.tsEvent = ts := by
    rw [← hinv.feed, List.filter_append, List.filter_eq_nil_iff.mpr, List.nil_append]
    intro ev hev
    simpa using (hinv.before ev hev _ hleft).ne
  rw [hbefore, htied, ← hinv.dispatched_untilMarket hfrontier]
  exact (Quietly.foldl (fun _ e ↦ Quietly.settleContract ts (Prod.snd e)) front).dispatched_eq

theorem Settles.replays (h : Settles setup events expiry iid k) : Replays setup k := by
  obtain @⟨feed, k, ts, front, back, hlooped, hfrontier, -⟩ := h
  have huntil : Replays setup (untilMarket setup ts feed k).2 :=
    preserved_replays.untilMarket ts (hlooped.preserved preserved_replays replays_build)
  have hframe : Quietly setup (untilMarket setup ts feed k).2
      { (untilMarket setup ts feed k).2 with
        expiries := (untilMarket setup ts feed k).2.expiries.dropWhile fun e ↦ e.1 ≤ ts } :=
    .frame rfl rfl rfl (List.dropWhile_suffix _)
  exact huntil.quietly (hframe.trans
    (Quietly.foldl (fun _ e ↦ Quietly.settleContract ts (Prod.snd e)) front))

/-- Once the position is closed, the rest of a settlement is quiet. -/
theorem Quietly.after_close {inst : Instrument} {px : Price}
    (hinst : k.core.oms.cache.instrument iid = some inst)
    (hpx : settlementPrice k.core.oms.cache inst iid = some px) :
    Quietly setup (BacktestKernel.perform setup (.closeAt iid px ts "SETTLE") k).2
      (BacktestKernel.settleContract setup ts k iid) := by
  unfold BacktestKernel.settleContract
  simp only [hinst, hpx]
  refine Quietly.trans ?_ (Quietly.cancelAll ts _)
  exact Quietly.foldl (fun _ ev ↦ Quietly.notifyClosed ts ev) _

variable (setup) in
/-- The later events at the expiry leave the settlement price where the first one has put it. -/
def TiesKeepPrice (events : List MarketEvent) (expiry : UnixNanos) (inst : Instrument)
    (iid : InstrumentId) : Prop :=
  let before := (sortedEvents events).filter fun ev ↦ ev.tsEvent < expiry
  let tied := (sortedEvents events).filter fun ev ↦ ev.tsEvent = expiry
  settlementPrice (cacheAfter setup.config (before ++ tied.take 1)) inst iid
    = settlementPrice (cacheAfter setup.config (before ++ tied)) inst iid

omit [DecimalWidth] in
/-- In time order, the events up to a time are those before it and those at it. -/
theorem filter_le_eq_append {l : List MarketEvent}
    (hsorted : l.Pairwise fun a b ↦ a.tsEvent ≤ b.tsEvent) (t : UnixNanos) :
    l.filter (fun ev ↦ ev.tsEvent ≤ t)
      = l.filter (fun ev ↦ ev.tsEvent < t) ++ l.filter fun ev ↦ ev.tsEvent = t := by
  induction l with
  | nil => rfl
  | cons ev l ih =>
    obtain ⟨hfirst, htail⟩ := List.pairwise_cons.mp hsorted
    have hrest := ih htail
    rcases lt_trichotomy ev.tsEvent t with hlt | heq | hgt
    · simp [hlt, hlt.le, hlt.ne, hrest]
    · -- nothing after an event at the time is before it
      have hnone : l.filter (fun ev ↦ ev.tsEvent < t) = [] := by
        refine List.filter_eq_nil_iff.mpr fun e he ↦ ?_
        simpa [heq] using hfirst e he
      rw [hnone, List.nil_append] at hrest
      simp [heq, hnone, hrest]
    · simp [hgt.not_ge, hgt.not_gt, hgt.ne', hrest]

/-- **Final prices.** A settlement closes the position at the price that the marks of its moment
give. This is the price that the marks after all events up to the expiry give exactly when the
events at the expiry that come after the first do not move it. -/
theorem settles_at_final_price_iff (h : Settles setup events expiry iid k) {inst : Instrument}
    (hinst : k.core.oms.cache.instrument iid = some inst) :
    (∀ px, settlementPrice k.core.oms.cache inst iid = some px →
      ∃ rest, (settleContract setup expiry k iid).ops
        = k.ops ++ .closeAt iid px expiry "SETTLE" :: rest)
    ∧ (settlementPrice k.core.oms.cache inst iid
        = settlementPrice (cacheAfter setup.config
          ((sortedEvents events).filter fun ev ↦ ev.tsEvent ≤ expiry)) inst iid
      ↔ TiesKeepPrice setup events expiry inst iid) := by
  constructor
  · intro px hpx
    obtain ⟨rest, hops, -⟩ := (Quietly.after_close hinst hpx).run
    refine ⟨rest, hops.trans ?_⟩
    exact List.append_assoc k.ops [_] rest
  · have hmarks : k.core.oms.cache.marks = (cacheAfter setup.config (dispatched k.ops)).marks := by
      rw [h.replays]
      exact Core.marks_foldl_step _ _ _
    rw [settlementPrice_congr hmarks, h.dispatched_eq,
      filter_le_eq_append (sorted_sortedEvents events)]
    exact Iff.rfl

variable (setup events) in
/-- The loop after iterations at given frontiers. -/
def loopAt (frontiers : List UnixNanos) : List MarketEvent × BacktestKernel σ :=
  frontiers.foldl (fun x ts ↦ iterate setup ts x.1 x.2) (sortedEvents events, start setup)

theorem looped_loopAt {frontiers : List UnixNanos}
    (h : Along (fun x ts ↦ iterate setup ts x.1 x.2) (fun x ts ↦ frontier x.1 x.2 = some ts)
      (sortedEvents events, start setup) frontiers) :
    Looped setup events (loopAt setup events frontiers).1 (loopAt setup events frontiers).2 :=
  h.induction (I := fun x ↦ Looped setup events x.1 x.2) (fun _ _ hx hts ↦ hx.iterate hts) .start

end Settlement

section Instances

open scoped RustDecimal

/-- A contract that expires at ten. -/
def expiring : Instrument :=
  futuresContract ⟨⟨"IF2409"⟩, ⟨"CFFEX"⟩⟩ none ⟨"CNY", 2, two_le_maxPrecision⟩
    ⟨"CNY", 2, two_le_maxPrecision⟩ 0 0 ⟨1, 0⟩ ⟨1, 0⟩ none ⟨1, 0⟩ 0 0 10

/-- The strategy buys one contract on the first trade. Reports come without latency. -/
def holdOne : Setup Bool where
  config := ⟨[expiring], expiring.settlementCurrency, ⟨100000, expiring.settlementCurrency⟩,
    .unlimited, ({ latencyNs := 0 } : DefaultBrokerageModel).brokerage, 0⟩
  strategyId := ⟨"S"⟩
  strategy := ⟨fun sent cb ↦ match sent, cb with
    | false, .trade _ => .submitMarket expiring.id .buy ⟨1, 0⟩ fun _ ↦ .done true
    | _, _ => .done sent⟩
  initial := false
  killed := false
  hash := .lastInserted

/-- A trade of the contract. -/
def tradeOn (ts : UnixNanos) (px : ℤ) : MarketEvent :=
  .trade ⟨expiring.id, ⟨px, 0⟩, ⟨100, 0⟩, .buy, ⟨"T"⟩, ts, ts⟩

/-- Trades at five, at seven and, at the given prices, at ten. -/
def tradesToTen (pxs : List ℤ) : List MarketEvent :=
  [tradeOn 5 100, tradeOn 7 100] ++ pxs.map (tradeOn 10)

/-- The loop when it comes to the expiry: the order is sent and acknowledged at five, and filled at
seven. -/
def atTen (pxs : List ℤ) : List MarketEvent × BacktestKernel Bool :=
  loopAt holdOne (tradesToTen pxs) [5, 5, 7, 7]

/-- The state in which the contract is settled. -/
def settlingAt (pxs : List ℤ) : BacktestKernel Bool :=
  let k := (untilMarket holdOne 10 (atTen pxs).1 (atTen pxs).2).2
  { k with expiries := k.expiries.dropWhile fun e ↦ e.1 ≤ 10 }

/-- What is to be evaluated to see that the contract is settled there. -/
theorem settles_settlingAt {pxs : List ℤ}
    (hrun : Along (fun x ts ↦ iterate holdOne ts x.1 x.2) (fun x ts ↦ frontier x.1 x.2 = some ts)
      (sortedEvents (tradesToTen pxs), start holdOne) [5, 5, 7, 7])
    (hfrontier : frontier (atTen pxs).1 (atTen pxs).2 = some 10)
    (hexpiries : (untilMarket holdOne 10 (atTen pxs).1 (atTen pxs).2).2.expiries
      = [(10, expiring.id)]) :
    Settles holdOne (tradesToTen pxs) 10 expiring.id (settlingAt pxs) := by
  have hdue : ((untilMarket holdOne 10 (atTen pxs).1 (atTen pxs).2).2.expiries.takeWhile
      fun e ↦ e.1 ≤ 10) = [] ++ (10, expiring.id) :: [] := by
    rw [hexpiries]
    rfl
  exact Settles.due (looped_loopAt hrun) hfrontier hdue

/-- With one trade at the expiry, the contract is settled at its final price. -/
theorem settles_at_final_price_iff_oneTrade :
    ((settlingAt [110]).core.oms.cache.position expiring.id).map Position.quantity = some ⟨1, 0⟩
    ∧ settlementPrice (settlingAt [110]).core.oms.cache expiring expiring.id
      = settlementPrice (cacheAfter holdOne.config ((sortedEvents (tradesToTen [110])).filter
        fun ev ↦ ev.tsEvent ≤ 10)) expiring expiring.id := by
  refine ⟨by decide +kernel, ?_⟩
  have hsettles : Settles holdOne (tradesToTen [110]) 10 expiring.id (settlingAt [110]) :=
    settles_settlingAt (by decide) (by decide +kernel) (by decide +kernel)
  refine (settles_at_final_price_iff hsettles (by decide +kernel)).2.mpr ?_
  unfold TiesKeepPrice
  decide

/-- The contract trades at one hundred and ten and then at one hundred and twenty, both at its
expiry. The position is closed at the first price. -/
theorem not_final_price_of_two_trades :
    ∃ k, Settles holdOne (tradesToTen [110, 120]) 10 expiring.id k
      ∧ (k.core.oms.cache.position expiring.id).map Position.quantity = some ⟨1, 0⟩
      ∧ settlementPrice k.core.oms.cache expiring expiring.id = some ⟨110, 0⟩
      ∧ settlementPrice (cacheAfter holdOne.config ((sortedEvents (tradesToTen [110, 120])).filter
        fun ev ↦ ev.tsEvent ≤ 10)) expiring expiring.id = some ⟨120, 0⟩ :=
  ⟨settlingAt [110, 120], settles_settlingAt (by decide) (by decide +kernel)
    (by decide +kernel), by decide +kernel, by decide +kernel, by decide⟩

end Instances

end BacktestKernel

end Coinext
