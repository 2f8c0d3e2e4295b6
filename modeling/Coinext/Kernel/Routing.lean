import Coinext.Kernel.Replay

/-!
# How a kernel submits

The risk gate and the portfolio that a submit consults are those over the cache as it stands, and
the order is submitted at the time of the clock. `Routed` says so of every submit in the record of a
run. It is proved for every relation that composes and holds across what the kernel does
(`LoopMoves`), of which it is one.
-/

namespace Coinext

/-- A submit reads the positions from the cache and the time from the clock. -/
def Core.Wired (c : Core) : CoreOp → Prop
  | .submit _ portfolio _ now => portfolio.position = c.oms.cache.position ∧ now = c.clock.now
  | _ => True

namespace BacktestKernel

variable {σ : Type} [DecimalWidth] (setup : Setup σ)

/-- A move that also holds across the steps of the loop and across the closing of positions. -/
structure LoopMoves (R : BacktestKernel σ → BacktestKernel σ → Prop) : Prop
    extends Moves setup R where
  closeAt : ∀ k iid px now tagSuffix, R k (perform setup (.closeAt iid px now tagSuffix) k).2
  loop : ∀ k op, ¬ op.IsQuiet → R k (perform setup op k).2
  marketCall : ∀ k cb, R k { k with journal := k.journal ++ [cb] }

variable {setup} {k k' k'' : BacktestKernel σ}

namespace LoopMoves

variable {R : BacktestKernel σ → BacktestKernel σ → Prop} (hR : LoopMoves setup R)
include hR

theorem dispatchMarket (ev : MarketEvent) : R k (dispatchMarket setup ev k) := by
  have hcall (cb : Callback) : R k (call setup cb k) := hR.trans (hR.marketCall k cb) (hR.call cb)
  unfold BacktestKernel.dispatchMarket
  split
  · exact hcall _
  · exact hcall _
  · exact hcall _
  · split
    · exact hcall _
    · exact hR.refl k

theorem marketEvent (frontier : UnixNanos) (ev : MarketEvent) :
    R k (marketEvent setup frontier ev k) := by
  have hmatched : R k (perform setup (.onMarket ev) (perform setup (.process ev) k).2).2 :=
    hR.trans (hR.loop k _ id) (hR.loop _ _ id)
  exact hR.trans (hR.trans (hR.trans hmatched (hR.dispatchMarket ev)) hR.processOutbox)
    (hR.sampleEquity frontier ev)

theorem drainReports (frontier : UnixNanos) : R k (drainReports setup frontier k) := by
  have hfold (k : BacktestKernel σ) : R k (foldNext setup k) :=
    hR.performThen (hR.loop k _ id) fun _ ev ↦ hR.notifyFolded ev
  refine hR.trans (hR.trans (hR.loop k (.drain frontier) id) ?_) hR.processOutbox
  exact hR.foldl (fun k _ ↦ hfold k) _

theorem fireTimers (frontier : UnixNanos) : R k (fireTimers setup frontier k) := by
  refine hR.trans (hR.loop k (.popDue frontier) id) (hR.foldl (fun _ _ ↦ ?_) _)
  exact hR.trans (hR.callQuiet id) hR.processOutbox

theorem untilMarket (frontier : UnixNanos) (feed : List MarketEvent) :
    R (perform setup (.advance frontier) k).2 (untilMarket setup frontier feed k).2 := by
  have hmarket (k : BacktestKernel σ) : R k (takeMarket setup frontier feed k).2 := by
    unfold takeMarket
    split
    · exact hR.refl k
    · split_ifs
      · exact hR.marketEvent frontier _
      · exact hR.refl k
  exact hR.trans (hR.trans (hR.drainReports frontier) (hR.fireTimers frontier)) (hmarket _)

theorem iterate (frontier : UnixNanos) (feed : List MarketEvent) :
    R k (iterate setup frontier feed k).2 := by
  have huntil : R k (BacktestKernel.untilMarket setup frontier feed k).2 :=
    hR.trans (hR.loop k _ id) (hR.untilMarket frontier feed)
  exact hR.trans (hR.trans huntil (hR.settleExpiries hR.closeAt frontier))
    (hR.checkLiquidation hR.closeAt frontier)

/-- **Run rule.** Every state of the loop is reached from the initial one by moves. -/
theorem looped {events feed : List MarketEvent} (h : Looped setup events feed k) :
    R (build setup) k := by
  induction h with
  | start => exact hR.start
  | iterate _ _ ih => exact hR.trans ih (hR.iterate _ _)

theorem reached {events : List MarketEvent} (h : Reached setup events k) : R (build setup) k := by
  cases h with
  | start => exact hR.start
  | iterate hmem =>
    obtain ⟨feed, hlooped⟩ := Looped.start.exists_of_mem_trace _ hmem
    exact hR.looped hlooped
  | finish hrun =>
    obtain ⟨feed, k₀, hlooped, -, rfl⟩ := Looped.start.exists_of_run hrun
    exact hR.trans (hR.looped hlooped) hR.finish

end LoopMoves

/-! ## Submits as they are routed -/

variable (setup)

/-- What an operation of the record looks like when it is a submit. -/
def Routed (c : Core) : CoreOp → Prop
  | .submit risk portfolio _ now =>
    risk = RiskGate.riskEngine c.oms.cache setup.config.risk setup.killed
      ∧ portfolio = PortfolioState.portfolio c.oms.cache setup.config.settle
      ∧ now = c.clock.now
  | _ => True

variable {setup} in
theorem Routed.wired {c : Core} {op : CoreOp} (h : Routed setup c op) : c.Wired op := by
  cases op with
  | submit risk portfolio order now =>
    obtain ⟨-, rfl, rfl⟩ := h
    exact ⟨rfl, rfl⟩
  | _ => exact trivial

/-- The record of the second state extends that of the first, and its submits are routed. -/
def Routes (k k' : BacktestKernel σ) : Prop :=
  ∃ l, k'.ops = k.ops ++ l ∧ k'.core = l.foldl (Core.step setup.config.brokerage) k.core
    ∧ Along (Core.step setup.config.brokerage) (Routed setup) k.core l

variable {setup}

theorem Routes.frame (hcore : k'.core = k.core) (hops : k'.ops = k.ops) : Routes setup k k' :=
  ⟨[], by simp [hops], hcore, trivial⟩

theorem Routes.trans (h : Routes setup k k') (h' : Routes setup k' k'') : Routes setup k k'' := by
  obtain ⟨l, hops, hcore, hrouted⟩ := h
  obtain ⟨l', hops', hcore', hrouted'⟩ := h'
  refine ⟨l ++ l', ?_, ?_, ?_⟩
  · rw [hops', hops, List.append_assoc]
  · rw [hcore', hcore, List.foldl_append]
  · rw [hcore] at hrouted'
    exact along_append.mpr ⟨hrouted, hrouted'⟩

theorem Routes.perform {op : CoreOp} (hop : Routed setup k.core op) :
    Routes setup k (perform setup op k).2 := ⟨[op], rfl, rfl, hop, trivial⟩

theorem routes_loopMoves : LoopMoves setup (Routes setup) where
  refl _ := .frame rfl rfl
  trans := .trans
  frame hcore hops _ _ := .frame hcore hops
  journal _ _ _ := .frame rfl rfl
  setTimer _ _ _ := .perform trivial
  cancelTimer _ _ := .perform trivial
  submit _ _ := .perform ⟨rfl, rfl, rfl⟩
  cancel _ _ _ := .perform trivial
  closeAt _ _ _ _ _ := .perform trivial
  loop _ op hop := .perform (by cases op <;> first | exact trivial | exact absurd trivial hop)
  marketCall _ _ := .frame rfl rfl

/-- **Every submit of a run is routed.** -/
theorem Reached.routed {events : List MarketEvent} (h : Reached setup events k) :
    Along (Core.step setup.config.brokerage) (Routed setup) (initialCore setup.config) k.ops := by
  obtain ⟨l, hops, -, hrouted⟩ := routes_loopMoves.reached h
  rw [hops]
  exact hrouted

end BacktestKernel

end Coinext
