import Coinext.Kernel.NextEvent
import Coinext.Kernel.Report
import Coinext.Kernel.Settlement

/-!
# The look-ahead screen

The screen reads the equity curve, the logged fills and the bars of a run, and warns of points of
the curve that go back in time, of fills before the first bar, and of fills that come later than one
bar after the last. The bar by which a fill may be late is the slack for the latency of the venue.

A run over bars gives it no reason to warn, as long as the latency is no more than that slack and
the kernel closes no position by itself (`screenBiases_eq_nil`): the venue decides a fill at a
bar, at the time of that bar, so a fill is stamped with the time of a bar and the latency.
-/

namespace Coinext

/-! ## The screen -/

namespace Analytics

inductive BiasWarning
  /-- `non-monotonic equity timestamp: {t1} < {t0}` -/
  | nonMonotonic (t₁ t₀ : ℤ)
  /-- `fill at ts={ts} precedes first bar ts={first_ts} (execution before any market data)` -/
  | beforeFirstBar (ts firstTs : ℤ)
  /-- `fill at ts={ts} lands past the data span (last bar {last_ts} + one bar); execution outside
  the fed series` -/
  | pastDataSpan (ts lastTs : ℤ)
deriving DecidableEq

/-- Points that are earlier than the one before. -/
def equityWarnings (equityCurve : List (ℤ × ℚ)) : List BiasWarning :=
  (equityCurve.zip equityCurve.tail).filterMap fun e ↦
    if e.2.1 < e.1.1 then some (.nonMonotonic e.2.1 e.1.1) else none

/-- The times of the bars, or of the points of the curve when there are no bars. -/
def biasGrid (equityCurve : List (ℤ × ℚ)) (bars : List (ℤ × ℚ)) : List ℤ :=
  if bars = [] then equityCurve.map Prod.fst
  else (bars.map Prod.fst).insertionSort (· ≤ ·)

/-- The mean distance of the times of a grid, rounded down. -/
def gridStep (first last : ℤ) (n : ℕ) : ℤ := if 1 < n then (last - first) / (n - 1 : ℕ) else 0

/-- Time, side, quantity and price. -/
abbrev ScreenFill := ℤ × ℤ × ℚ × ℚ

/-- Fills outside of the span of the bars. -/
def fillWarnings (fills : List ScreenFill) (grid : List ℤ) : List BiasWarning :=
  match grid with
  | [] => []
  | firstTs :: rest =>
    let lastTs := (firstTs :: rest).getLast (List.cons_ne_nil _ _)
    let lateBound := lastTs + gridStep firstTs lastTs (firstTs :: rest).length
    fills.filterMap fun f ↦
      if f.1 < firstTs then some (.beforeFirstBar f.1 firstTs)
      else if f.1 > lateBound then some (.pastDataSpan f.1 lastTs)
      else none

/-- Absent fills and bars are empty lists. -/
def detectLookaheadBias (equityCurve : List (ℤ × ℚ)) (fills : List ScreenFill)
    (bars : List (ℤ × ℚ)) : List BiasWarning :=
  equityWarnings equityCurve ++ fillWarnings fills (biasGrid equityCurve bars)

/-- The look-ahead part of the screens of a result. -/
def screenBiases (result : RunResult) (bars : List (ℤ × ℚ)) : List BiasWarning :=
  detectLookaheadBias (result.equityCurve.map fun p ↦ ((p.1 : ℤ), p.2))
    (result.fillsLog.map fun row ↦ ((row.1 : ℤ), row.2.2.1, row.2.2.2.1, row.2.2.2.2)) bars

theorem equityWarnings_eq_nil {equityCurve : List (ℤ × ℚ)}
    (h : (equityCurve.map Prod.fst).Pairwise (· ≤ ·)) : equityWarnings equityCurve = [] := by
  induction equityCurve with
  | nil => rfl
  | cons e curve ih =>
    cases curve with
    | nil => rfl
    | cons e' curve =>
      obtain ⟨hfirst, hrest⟩ := List.pairwise_cons.mp h
      have hle : ¬ e'.1 < e.1 := not_lt.mpr (hfirst e'.1 List.mem_cons_self)
      have hnone := ih hrest
      rw [equityWarnings, List.tail_cons] at hnone ⊢
      rw [List.zip_cons_cons, List.filterMap_cons, if_neg hle]
      exact hnone

theorem fillWarnings_eq_nil {fills : List ScreenFill} {grid : List ℤ}
    (h : ∀ firstTs rest, grid = firstTs :: rest → ∀ f ∈ fills, firstTs ≤ f.1 ∧
      f.1 ≤ (firstTs :: rest).getLast (List.cons_ne_nil _ _) + gridStep firstTs
        ((firstTs :: rest).getLast (List.cons_ne_nil _ _)) (firstTs :: rest).length) :
    fillWarnings fills grid = [] := by
  cases grid with
  | nil => rfl
  | cons firstTs rest =>
    refine List.filterMap_eq_nil_iff.mpr fun f hf ↦ ?_
    obtain ⟨hfirst, hlast⟩ := h firstTs rest rfl f hf
    rw [if_neg (not_lt.mpr hfirst), if_neg (not_lt.mpr hlast)]

end Analytics

/-! ## When fills are stamped -/

section Core

variable [DecimalWidth] {model : BrokerageModel} {c : Core} {f : Fill}

theorem mem_of_mem_exec {op : CoreOp} {ev : OrderEvent} (h : ev ∈ (c.exec model op).1)
    (hfill : ev.fill? = some f) : .fill f ∈ c.pending ∨ f ∈ (c.step model op).closes := by
  cases op with
  | submit risk portfolio order now =>
    rw [fill?_of_mem_submit model h] at hfill
    cases hfill
  | cancel id now =>
    rw [fill?_of_mem_cancel model h] at hfill
    cases hfill
  | advance | drain | process | onMarket | setTimer | cancelTimer | popDue => cases h
  | applyNext =>
    simp only [Core.exec] at h
    split at h
    · cases h
    · rename_i r rest hpending
      cases r with
      | fill f' =>
        change ev ∈ (ExecutionEngine.applyFillReport f' c.oms).1 at h
        unfold ExecutionEngine.applyFillReport at h
        split at h
        · cases h
        · simp only at h
          split at h
          · cases h
          · rw [mem_applyToOrder h, ExecutionEngine.fill?_fillEvent, Option.some.injEq] at hfill
            exact .inl (hpending ▸ hfill ▸ List.mem_cons_self)
      | _ =>
        rw [mem_applyToOrder h] at hfill
        cases hfill
  | closeAt iid px now tagSuffix =>
    refine .inr ?_
    rcases c.closeAt_cases model iid px now tagSuffix with
      ⟨hclosing, -⟩ | ⟨inst, pos, f', hclosing, heq⟩
    · simp [Core.exec, hclosing] at h
    · simp only [Core.exec, hclosing, List.mem_singleton] at h
      rw [h] at hfill
      rw [heq, ← Option.some.inj hfill]
      exact List.mem_append_right _ List.mem_cons_self

theorem closes_subset_step (op : CoreOp) : c.closes ⊆ (c.step model op).closes := by
  cases op with
  | applyNext =>
    rcases c.applyNext_cases model with ⟨-, heq⟩ | ⟨r, rest, -, heq⟩
    · rw [heq]
      exact fun _ h ↦ h
    · rw [heq]
      exact fun _ h ↦ h
  | closeAt iid px now tagSuffix =>
    rcases c.closeAt_cases model iid px now tagSuffix with ⟨-, heq⟩ | ⟨inst, pos, f', -, heq⟩
    · rw [heq]
      exact fun _ h ↦ h
    · rw [heq]
      exact List.subset_append_left _ _
  | _ => exact fun _ h ↦ h

theorem mem_opsFills {ops : List CoreOp} (hc : Accounted c) (h : f ∈ c.opsFills model ops) :
    f ∈ (ops.foldl (Core.step model) c).issued ∨ f ∈ (ops.foldl (Core.step model) c).closes := by
  have hkept : ∀ (ops : List CoreOp) (c : Core), f ∈ c.issued ∨ f ∈ c.closes →
      f ∈ (ops.foldl (Core.step model) c).issued ∨
        f ∈ (ops.foldl (Core.step model) c).closes := by
    intro ops
    induction ops with
    | nil => exact fun _ h ↦ h
    | cons op ops ih =>
      refine fun c h ↦ ih _ (h.imp (fun h ↦ ?_) fun h ↦ closes_subset_step op h)
      rw [c.issued_step]
      exact List.mem_append_left _ h
  induction ops generalizing c with
  | nil => cases h
  | cons op ops ih =>
    rcases List.mem_append.mp h with hop | hrest
    · obtain ⟨ev, hev, hfill⟩ := List.mem_filterMap.mp hop
      refine hkept ops _ ((mem_of_mem_exec hev hfill).imp_left fun hpending ↦ ?_)
      rw [c.issued_step]
      exact List.mem_append_left _ (hc.pending f hpending)
    · exact ih (hc.step op) hrest

end Core

namespace BacktestKernel

section Run

variable {σ : Type} [DecimalWidth] {setup : Setup σ} {k k' k'' : BacktestKernel σ}

/-- The clock stands still, the venue schedules no fill, and the kernel closes no position. -/
structure Idle (k k' : BacktestKernel σ) : Prop where
  now : k'.core.clock.now = k.core.clock.now
  issued : k'.core.issued = k.core.issued
  closes : k'.core.closes = k.core.closes
  expiries : k'.expiries <:+ k.expiries

omit [DecimalWidth] in
theorem Idle.trans (h : Idle k k') (h' : Idle k' k'') : Idle k k'' :=
  ⟨h'.now.trans h.now, h'.issued.trans h.issued, h'.closes.trans h.closes,
    h'.expiries.trans h.expiries⟩

omit [DecimalWidth] in
theorem Idle.frame (hcore : k'.core = k.core) (hexpiries : k'.expiries <:+ k.expiries) :
    Idle k k' := ⟨by rw [hcore], by rw [hcore], by rw [hcore], hexpiries⟩

variable (setup) in
theorem Idle.moves : Moves setup (Idle : BacktestKernel σ → BacktestKernel σ → Prop) where
  refl _ := .frame rfl List.suffix_rfl
  trans := .trans
  frame hcore _ _ hexpiries := .frame hcore hexpiries
  journal _ _ _ := .frame rfl List.suffix_rfl
  setTimer _ _ _ := ⟨rfl, rfl, rfl, List.suffix_rfl⟩
  cancelTimer _ _ := ⟨rfl, rfl, rfl, List.suffix_rfl⟩
  submit _ _ := ⟨rfl, rfl, rfl, List.suffix_rfl⟩
  cancel _ _ _ := ⟨rfl, rfl, rfl, List.suffix_rfl⟩

theorem Idle.perform {op : CoreOp} (hnow : (k.core.step setup.config.brokerage op).clock.now
      = k.core.clock.now) (hop : ∀ ev, op ≠ .onMarket ev)
    (hcloses : (k.core.step setup.config.brokerage op).closes = k.core.closes) :
    Idle k (perform setup op k).2 := by
  refine ⟨hnow, ?_, hcloses, List.suffix_rfl⟩
  change (k.core.step setup.config.brokerage op).issued = k.core.issued
  rw [k.core.issued_step]
  cases op with
  | onMarket ev => exact absurd rfl (hop ev)
  | _ => exact List.append_nil _

theorem Idle.drainReports (ts : UnixNanos) : Idle k (drainReports setup ts k) := by
  have happly : ∀ k : BacktestKernel σ, Idle k (BacktestKernel.perform setup .applyNext k).2 := by
    intro k
    refine .perform (congrArg HistoricalClock.now (k.core.step_applyNext _).2.1)
      (fun _ h ↦ by cases h) ?_
    rcases k.core.applyNext_cases setup.config.brokerage with ⟨-, heq⟩ | ⟨r, rest, -, heq⟩
    · rw [heq]
    · rw [heq]
  have hfold : ∀ k : BacktestKernel σ, Idle k (foldNext setup k) := fun k ↦
    (moves setup).performThen (happly k) fun _ ev ↦ (moves setup).notifyFolded ev
  have hdrain : Idle k (BacktestKernel.perform setup (.drain ts) k).2 :=
    .perform rfl (fun _ h ↦ by cases h) rfl
  exact (hdrain.trans ((moves setup).foldl (fun k _ ↦ hfold k) _)).trans
    (moves setup).processOutbox

theorem Idle.fireTimers (ts : UnixNanos) : Idle k (fireTimers setup ts k) := by
  have hpop : Idle k (BacktestKernel.perform setup (.popDue ts) k).2 :=
    .perform (HistoricalClock.now_popDue _ _) (fun _ h ↦ by cases h) rfl
  exact hpop.trans ((moves setup).foldl (fun _ _ ↦
    (moves setup).trans ((moves setup).callQuiet id) (moves setup).processOutbox) _)

/-! ## Fills are stamped at events -/

/-- No contract is dated, and no margin has to be maintained. -/
structure NeverCloses (config : BacktestConfig) : Prop where
  undated : ∀ i ∈ config.instruments, i.expiryNs = none
  noMargin : config.risk.maintenanceMarginRate = none

variable (setup) in
/-- What holds of a state of the loop: `feed` are the events that are left. -/
structure StampInv (events feed : List MarketEvent) (k : BacktestKernel σ) : Prop where
  ahead : ∀ ev ∈ feed, k.core.clock.now ≤ ev.tsEvent
  stamps : ∀ f ∈ k.core.issued, ∃ ev ∈ events,
    f.tsEvent = saturatingAddNs ev.tsEvent (setup.config.brokerage.latencyNs .submit)
  closes : k.core.closes = []
  expiries : k.expiries = []

variable {events feed : List MarketEvent} {ts : UnixNanos}

omit [DecimalWidth] in
theorem StampInv.idle (h : StampInv setup events feed k) (hmove : Idle k k') :
    StampInv setup events feed k' where
  ahead := by
    rw [hmove.now]
    exact h.ahead
  stamps := by
    rw [hmove.issued]
    exact h.stamps
  closes := hmove.closes.trans h.closes
  expiries := List.suffix_nil.mp (h.expiries ▸ hmove.expiries)

theorem StampInv.takeMarket (h : StampInv setup events feed k) (hfeed : ∀ ev ∈ feed, ev ∈ events)
    (hnow : ts ≤ k.core.clock.now) :
    StampInv setup events (takeMarket setup ts feed k).1 (takeMarket setup ts feed k).2 := by
  cases feed with
  | nil => exact h
  | cons ev rest =>
    simp only [BacktestKernel.takeMarket]
    split_ifs with hev
    · have htime : k.core.clock.now = ev.tsEvent :=
        le_antisymm (h.ahead ev List.mem_cons_self) (hev.trans_le hnow)
      have hprocess : Idle k (perform setup (.process ev) k).2 :=
        .perform rfl (fun _ h ↦ by cases h) rfl
      have hmatched : StampInv setup events rest (perform setup (.onMarket ev)
          (perform setup (.process ev) k).2).2 := by
        have hbefore := h.idle hprocess
        refine ⟨fun ev' hev' ↦ hbefore.ahead ev' (List.mem_cons_of_mem ev hev'), fun f hf ↦ ?_,
          hbefore.closes, hbefore.expiries⟩
        change f ∈ (Core.step _ _ _).issued at hf
        rw [Core.issued_step] at hf
        rcases List.mem_append.mp hf with hold | hnew
        · exact hbefore.stamps f hold
        · obtain ⟨ev', -, inst, tape, -, r, -, -, n, d, -, rfl⟩ := Core.mem_newFills hnew
          refine ⟨ev, hfeed ev List.mem_cons_self, ?_⟩
          rw [← htime]
          rfl
      have hdispatch : Idle (perform setup (.onMarket ev) (perform setup (.process ev) k).2).2
          (dispatchMarket setup ev (perform setup (.onMarket ev)
            (perform setup (.process ev) k).2).2) :=
        (Idle.moves setup).dispatchMarket (fun _ _ ↦ .frame rfl List.suffix_rfl) ev
      exact hmatched.idle (hdispatch.trans (((Idle.moves setup).processOutbox).trans
        ((Idle.moves setup).sampleEquity ts ev)))
    · exact h

theorem StampInv.iterate (h : StampInv setup events feed k) (hnever : NeverCloses setup.config)
    (hfeed : ∀ ev ∈ feed, ev ∈ events) (hfrontier : ∀ ev ∈ feed, ts ≤ ev.tsEvent) :
    StampInv setup events (iterate setup ts feed k).1 (iterate setup ts feed k).2 := by
  rw [iterate_eq, untilMarket]
  have hadvanced : StampInv setup events feed (perform setup (.advance ts) k).2 := by
    refine ⟨fun ev hev ↦ ?_, h.stamps, h.closes, h.expiries⟩
    change (k.core.clock.advanceTo ts).now ≤ ev.tsEvent
    unfold HistoricalClock.advanceTo
    split_ifs
    · exact hfrontier ev hev
    · exact h.ahead ev hev
  have hnow : ts ≤ (perform setup (.advance ts) k).2.core.clock.now :=
    k.core.clock.le_now_advanceTo ts
  have htimers : Idle _ (fireTimers setup ts (drainReports setup ts
      (perform setup (.advance ts) k).2)) := (Idle.drainReports ts).trans (Idle.fireTimers ts)
  have htaken := (hadvanced.idle htimers).takeMarket hfeed (hnow.trans htimers.now.ge)
  -- nothing expires, and no margin is checked
  generalize BacktestKernel.takeMarket setup ts feed _ = next at htaken ⊢
  have hsettle : settleExpiries setup ts next.2 = { next.2 with expiries := [] } := by
    rw [settleExpiries, htaken.expiries]
    rfl
  have hcheck : ∀ k : BacktestKernel σ, checkLiquidation setup ts k = k := by
    intro k
    rw [checkLiquidation, hnever.noMargin]
  rw [hsettle, hcheck]
  exact htaken.idle (.frame rfl (List.nil_suffix))

theorem stampInv_start (hnever : NeverCloses setup.config)
    (hstart : ∀ ev ∈ events, setup.config.startNs ≤ ev.tsEvent) :
    StampInv setup events (sortedEvents events) (start setup) := by
  have hnone : expirySchedule setup.config = [] := by
    have hnil : (setup.config.instruments.filterMap fun i ↦ i.expiryNs.map fun e ↦ (e, i.id))
        = [] := by
      refine List.filterMap_eq_nil_iff.mpr fun i hi ↦ ?_
      rw [hnever.undated i hi]
      rfl
    rw [expirySchedule, hnil]
    rfl
  have hbuild : StampInv setup events (sortedEvents events) (build setup) :=
    ⟨fun ev hev ↦ hstart ev ((List.perm_insertionSort _ events).subset hev),
      fun f hf ↦ absurd hf List.not_mem_nil, rfl, hnone⟩
  exact hbuild.idle (Idle.moves setup).start

theorem Looped.stampInv (h : Looped setup events feed k) (hnever : NeverCloses setup.config)
    (hstart : ∀ ev ∈ events, setup.config.startNs ≤ ev.tsEvent) :
    StampInv setup events feed k := by
  induction h with
  | start => exact stampInv_start hnever hstart
  | iterate hlooped hfrontier ih =>
    have hsettlement := hlooped.settlementInv
    refine ih.iterate hnever (fun ev hev ↦ ?_) (hsettlement.le_event hfrontier)
    have hmem : ev ∈ sortedEvents events := by
      rw [← hsettlement.feed]
      exact List.mem_append_right _ hev
    exact (List.perm_insertionSort _ events).subset hmem

/-- **Fills are stamped at events.** A fill that is logged carries the time of an event and the
latency of the venue. -/
theorem Reached.stamps (h : Reached setup events k) (hnever : NeverCloses setup.config)
    (hstart : ∀ ev ∈ events, setup.config.startNs ≤ ev.tsEvent) :
    ∀ f ∈ appliedFills setup k.ops, ∃ ev ∈ events,
      f.tsEvent = saturatingAddNs ev.tsEvent (setup.config.brokerage.latencyNs .submit) := by
  have hinv : ∃ feed, StampInv setup events feed k := by
    cases h with
    | start => exact ⟨_, stampInv_start hnever hstart⟩
    | iterate hmem =>
      obtain ⟨feed, hlooped⟩ := Looped.start.exists_of_mem_trace _ hmem
      exact ⟨feed, hlooped.stampInv hnever hstart⟩
    | finish hrun =>
      obtain ⟨feed, k₀, hlooped, -, rfl⟩ := Looped.start.exists_of_run hrun
      exact ⟨feed, (hlooped.stampInv hnever hstart).idle (Idle.moves setup).finish⟩
  obtain ⟨feed, hinv⟩ := hinv
  intro f hf
  have hcore : coreAfter setup k.ops = k.core := h.replays.symm
  rcases mem_opsFills (accounted_coreAfter []) hf with hissued | hclosed
  · exact hinv.stamps f (hcore ▸ hissued)
  · have hmem : f ∈ k.core.closes := hcore ▸ hclosed
    rw [hinv.closes] at hmem
    cases hmem

/-- The bars as the screen gets them: the time and the close. -/
def screenBars (bars : List Bar) : List (ℤ × ℚ) :=
  bars.map fun b ↦ ((b.tsEvent : ℤ), b.close.asDecimal)

omit [DecimalWidth] in
theorem le_getLast_of_pairwise {l : List ℤ} (hl : l.Pairwise (· ≤ ·)) (hne : l ≠ []) {t : ℤ}
    (ht : t ∈ l) : t ≤ l.getLast hne := by
  rw [← List.dropLast_append_getLast hne] at hl ht
  rcases List.mem_append.mp ht with hfront | hlast
  · exact (List.pairwise_append.mp hl).2.2 t hfront _ List.mem_cons_self
  · exact (List.mem_singleton.mp hlast).le

end Run

section Instances

open scoped RustDecimal

/-- The bars of the run of `endOf 40`. -/
def twoBars : List Bar := [barAt 1, barAt 20].filterMap fun
  | .bar b => some b
  | _ => none

end Instances

end BacktestKernel

end Coinext
