import Coinext.Kernel.Backtest
import Coinext.Model.Pnl

/-!
# No look-ahead

Two runs of one setup over event lists that agree up to a time `t`. As long as the frontiers stay at
or before `t`, the runs go through the same iterations and the same states: no iteration reads an
event past its frontier.

This holds up to the first iteration past `t`, and not for every later iteration whose frontier is
back at or before `t`. The clock does not move backwards, but a handler may set a timer in the past,
and such a timer is a frontier. So a strategy that has seen an event after `t` can still cause an
iteration with a frontier before `t`.
-/

namespace Coinext

namespace BacktestKernel

section Agreement

variable {σ : Type} {t : UnixNanos}

/-! ## Feeds that agree up to a time -/

/-- The feeds start with the same events, and all that follows is past `t`. -/
def Agree (t : UnixNanos) (feed₁ feed₂ : List MarketEvent) : Prop :=
  ∃ shared rest₁ rest₂, feed₁ = shared ++ rest₁ ∧ feed₂ = shared ++ rest₂ ∧
    (∀ ev ∈ rest₁, t < ev.tsEvent) ∧ ∀ ev ∈ rest₂, t < ev.tsEvent

theorem filter_append_filter_of_sorted (t : UnixNanos) {l : List MarketEvent}
    (h : l.Pairwise fun a b ↦ a.tsEvent ≤ b.tsEvent) :
    l = l.filter (fun ev ↦ ev.tsEvent ≤ t) ++ l.filter (fun ev ↦ t < ev.tsEvent) := by
  induction l with
  | nil => rfl
  | cons ev l ih =>
    obtain ⟨hfirst, htail⟩ := List.pairwise_cons.mp h
    by_cases hev : ev.tsEvent ≤ t
    · rw [List.filter_cons_of_pos (by simpa using hev),
        List.filter_cons_of_neg (by simpa using hev), List.cons_append, ← ih htail]
    · -- nothing after an event past `t` is at or before `t`
      have hnone : l.filter (fun ev ↦ ev.tsEvent ≤ t) = [] := by
        refine List.filter_eq_nil_iff.mpr fun e he ↦ ?_
        rw [decide_eq_true_eq]
        exact fun hle ↦ hev ((hfirst e he).trans hle)
      have hrest := ih htail
      rw [hnone, List.nil_append] at hrest
      rw [List.filter_cons_of_neg (by simpa using hev),
        List.filter_cons_of_pos (by simpa using hev), hnone, List.nil_append, ← hrest]

theorem sorted_sortedEvents (events : List MarketEvent) :
    (sortedEvents events).Pairwise fun a b ↦ a.tsEvent ≤ b.tsEvent := by
  have : Std.Total fun a b : MarketEvent ↦ a.tsEvent ≤ b.tsEvent := ⟨fun a b ↦ Nat.le_total _ _⟩
  have : IsTrans MarketEvent fun a b ↦ a.tsEvent ≤ b.tsEvent := ⟨fun a b c ↦ Nat.le_trans⟩
  exact List.pairwise_insertionSort _ events

theorem agree_of_filter_eq {events₁ events₂ : List MarketEvent}
    (h : (sortedEvents events₁).filter (fun ev ↦ ev.tsEvent ≤ t)
      = (sortedEvents events₂).filter (fun ev ↦ ev.tsEvent ≤ t)) :
    Agree t (sortedEvents events₁) (sortedEvents events₂) := by
  refine ⟨_, _, _, filter_append_filter_of_sorted t (sorted_sortedEvents events₁),
    (filter_append_filter_of_sorted t (sorted_sortedEvents events₂)).trans (by rw [h]), ?_, ?_⟩
  · exact fun ev hev ↦ by simpa using (List.mem_filter.mp hev).2
  · exact fun ev hev ↦ by simpa using (List.mem_filter.mp hev).2

theorem Agree.symm {feed₁ feed₂ : List MarketEvent} (h : Agree t feed₁ feed₂) :
    Agree t feed₂ feed₁ := by
  obtain ⟨shared, rest₁, rest₂, h₁, h₂, hlate₁, hlate₂⟩ := h
  exact ⟨shared, rest₂, rest₁, h₂, h₁, hlate₂, hlate₁⟩

/-! ## One iteration -/

/-- The times other than that of the next market event. -/
def internalTimes (k : BacktestKernel σ) : List UnixNanos :=
  [k.core.oms.sim.queue.peekDue, k.core.clock.peekNextTimer,
    k.expiries.head?.map Prod.fst].filterMap id

theorem frontier_eq_some_iff {feed : List MarketEvent} {k : BacktestKernel σ} {ts : UnixNanos} :
    frontier feed k = some ts ↔
      ts ∈ (feed.head?.map MarketEvent.tsEvent).toList ++ internalTimes k ∧
        ∀ b ∈ (feed.head?.map MarketEvent.tsEvent).toList ++ internalTimes k, ts ≤ b := by
  have hsplit : frontier feed k
      = ((feed.head?.map MarketEvent.tsEvent).toList ++ internalTimes k).min? := by
    unfold frontier internalTimes
    cases feed.head?.map MarketEvent.tsEvent <;> rfl
  rw [hsplit, List.min?_eq_some_iff]

theorem frontier_of_late {feed : List MarketEvent} {k : BacktestKernel σ} {ts : UnixNanos}
    (hlate : ∀ ev ∈ feed, t < ev.tsEvent) (hts : ts ≤ t) :
    frontier feed k = some ts ↔ ts ∈ internalTimes k ∧ ∀ b ∈ internalTimes k, ts ≤ b := by
  rw [frontier_eq_some_iff]
  cases feed with
  | nil => simp
  | cons ev rest =>
    have hev := hlate ev List.mem_cons_self
    simp only [List.head?_cons, Option.map_some, Option.toList_some, List.singleton_append,
      List.mem_cons, forall_eq_or_imp]
    constructor
    · rintro ⟨rfl | hmem, -, hmin⟩
      · exact absurd hev hts.not_gt
      · exact ⟨hmem, hmin⟩
    · rintro ⟨hmem, hmin⟩
      exact ⟨.inr hmem, hts.trans hev.le, hmin⟩

theorem Agree.frontier {feed₁ feed₂ : List MarketEvent} (h : Agree t feed₁ feed₂)
    {k : BacktestKernel σ} {ts : UnixNanos} (hts : ts ≤ t)
    (hfrontier : frontier feed₁ k = some ts) : BacktestKernel.frontier feed₂ k = some ts := by
  obtain ⟨shared, rest₁, rest₂, rfl, rfl, hlate₁, hlate₂⟩ := h
  cases shared with
  | nil =>
    rw [List.nil_append] at hfrontier ⊢
    exact (frontier_of_late hlate₂ hts).mpr ((frontier_of_late hlate₁ hts).mp hfrontier)
  | cons ev shared => exact hfrontier

variable [DecimalWidth] (setup : Setup σ)

theorem takeMarket_of_late {ts : UnixNanos} (hts : ts ≤ t) {feed : List MarketEvent}
    (hlate : ∀ ev ∈ feed, t < ev.tsEvent) (k : BacktestKernel σ) :
    takeMarket setup ts feed k = (feed, k) := by
  cases feed with
  | nil => rfl
  | cons ev rest =>
    have hev := hlate ev List.mem_cons_self
    simp only [takeMarket]
    rw [if_neg (hts.trans_lt hev).ne']

/-- An iteration at or before `t` leaves the feeds agreeing and the kernels equal. -/
theorem Agree.iterate {feed₁ feed₂ : List MarketEvent} (h : Agree t feed₁ feed₂) {ts : UnixNanos}
    (hts : ts ≤ t) (k : BacktestKernel σ) :
    Agree t (iterate setup ts feed₁ k).1 (iterate setup ts feed₂ k).1 ∧
      (BacktestKernel.iterate setup ts feed₁ k).2
        = (BacktestKernel.iterate setup ts feed₂ k).2 := by
  have htake (k : BacktestKernel σ) :
      Agree t (takeMarket setup ts feed₁ k).1 (takeMarket setup ts feed₂ k).1 ∧
        (takeMarket setup ts feed₁ k).2 = (takeMarket setup ts feed₂ k).2 := by
    obtain ⟨shared, rest₁, rest₂, rfl, rfl, hlate₁, hlate₂⟩ := h
    cases shared with
    | nil =>
      simp only [List.nil_append, takeMarket_of_late setup hts hlate₁,
        takeMarket_of_late setup hts hlate₂, and_true]
      exact ⟨[], rest₁, rest₂, rfl, rfl, hlate₁, hlate₂⟩
    | cons ev shared =>
      simp only [List.cons_append, takeMarket]
      split_ifs
      · exact ⟨⟨shared, rest₁, rest₂, rfl, rfl, hlate₁, hlate₂⟩, rfl⟩
      · exact ⟨⟨ev :: shared, rest₁, rest₂, rfl, rfl, hlate₁, hlate₂⟩, rfl⟩
  obtain ⟨hagree, hkernel⟩ := htake
    (fireTimers setup ts (drainReports setup ts (perform setup (.advance ts) k).2))
  exact ⟨hagree, congrArg (fun k ↦ checkLiquidation setup ts (settleExpiries setup ts k)) hkernel⟩

/-! ## Whole runs -/

/-- A first iteration at or before `t` is kept, and the rest is treated alike. -/
theorem takeWhile_trace_succ {ts : UnixNanos} (hts : ts ≤ t) (n : ℕ) {feed : List MarketEvent}
    {k : BacktestKernel σ} (hf : frontier feed k = some ts) :
    (trace setup (n + 1) feed k).takeWhile (fun x ↦ x.1 ≤ t)
      = (ts, (iterate setup ts feed k).2) ::
        (trace setup n (iterate setup ts feed k).1 (iterate setup ts feed k).2).takeWhile
          fun x ↦ x.1 ≤ t := by
  rw [trace, hf]
  exact List.takeWhile_cons_of_pos (decide_eq_true hts)

theorem takeWhile_trace_of_late (n : ℕ) {feed : List MarketEvent} {k : BacktestKernel σ}
    (hlate : ∀ ts ≤ t, frontier feed k ≠ some ts) :
    (trace setup (n + 1) feed k).takeWhile (fun x ↦ x.1 ≤ t) = [] := by
  rw [trace]
  cases hf : frontier feed k with
  | none => rfl
  | some ts =>
    refine List.takeWhile_cons_of_neg ?_
    rw [decide_eq_true_eq]
    exact fun hle ↦ hlate ts hle hf

theorem takeWhile_trace_of_agree (n : ℕ) {feed₁ feed₂ : List MarketEvent} (h : Agree t feed₁ feed₂)
    (k : BacktestKernel σ) :
    (trace setup n feed₁ k).takeWhile (fun x ↦ x.1 ≤ t)
      = (trace setup n feed₂ k).takeWhile (fun x ↦ x.1 ≤ t) := by
  induction n generalizing feed₁ feed₂ k with
  | zero => rfl
  | succ n ih =>
    by_cases hf : ∃ ts ≤ t, frontier feed₁ k = some ts
    · obtain ⟨ts, hts, hf₁⟩ := hf
      obtain ⟨hagree, hkernel⟩ := h.iterate setup hts k
      refine (takeWhile_trace_succ setup hts n hf₁).trans
        (Eq.trans ?_ (takeWhile_trace_succ setup hts n (h.frontier hts hf₁)).symm)
      refine congrArg₂ List.cons (congrArg (Prod.mk ts) hkernel) ((ih hagree _).trans ?_)
      exact congrArg (fun k' ↦ (trace setup n (BacktestKernel.iterate setup ts feed₂ k).1
        k').takeWhile fun x ↦ x.1 ≤ t) hkernel
    · have hlate₁ : ∀ ts ≤ t, frontier feed₁ k ≠ some ts := fun ts hts hsome ↦ hf ⟨ts, hts, hsome⟩
      have hlate₂ : ∀ ts ≤ t, frontier feed₂ k ≠ some ts := fun ts hts hsome ↦
        hlate₁ ts hts (h.symm.frontier hts hsome)
      exact (takeWhile_trace_of_late setup n hlate₁).trans
        (takeWhile_trace_of_late setup n hlate₂).symm

/-- **No look-ahead.** Event lists that agree up to `t` give runs with the same iterations, up to
the first whose frontier is past `t`: the same frontiers, and after each of them the same kernel,
with its callbacks, orders, fills, positions and equity curve. -/
theorem trace_agrees_until (t : UnixNanos) (events₁ events₂ : List MarketEvent)
    (h : (sortedEvents events₁).filter (fun ev ↦ ev.tsEvent ≤ t)
      = (sortedEvents events₂).filter (fun ev ↦ ev.tsEvent ≤ t)) (n : ℕ) :
    (trace setup n (sortedEvents events₁) (start setup)).takeWhile (fun x ↦ x.1 ≤ t)
      = (trace setup n (sortedEvents events₂) (start setup)).takeWhile (fun x ↦ x.1 ≤ t) :=
  takeWhile_trace_of_agree setup n (agree_of_filter_eq h) (start setup)

end Agreement

/-! ## Timers in the past -/

/-- What a run shows of an iteration: its frontier, and the callbacks, fills, positions and equity
curve so far. Order events are among the callbacks. -/
structure Observation where
  frontier : UnixNanos
  callbacks : List Callback
  fillsLog : List (UnixNanos × Symbol × ℤ × Decimal × Decimal)
  positions : Map InstrumentId Position
  equityCurve : List (UnixNanos × Decimal)

def observe {σ : Type} (x : UnixNanos × BacktestKernel σ) : Observation :=
  ⟨x.1, x.2.journal, x.2.result.fillsLog, x.2.core.oms.cache.positions, x.2.result.equityCurve⟩

section Instances

open scoped RustDecimal

/-- On every trade, the strategy sets a timer for time four. -/
def remindAtFour : Setup Unit where
  config := ⟨[Position.perp false], ⟨"USDT", 2, two_le_maxPrecision⟩, ⟨100000,
    ⟨"USDT", 2, two_le_maxPrecision⟩⟩, .unlimited, ({} : DefaultBrokerageModel).brokerage, 0⟩
  strategyId := ⟨"S"⟩
  strategy := ⟨fun _ cb ↦ match cb with
    | .trade _ => .setTimer "reminder" 4 fun _ ↦ .done ()
    | _ => .done ()⟩
  initial := ()
  killed := false
  hash := .lastInserted

/-- A trade of the perpetual at ten. -/
def tradeAt (ts : UnixNanos) : MarketEvent :=
  .trade ⟨(Position.perp false).id, ⟨100, 1⟩, ⟨1, 0⟩, .buy, ⟨"T"⟩, ts, ts⟩

theorem trace_agrees_until_five :
    ((trace remindAtFour 9 (sortedEvents [tradeAt 7, tradeAt 3]) (start remindAtFour)).takeWhile
        fun x ↦ x.1 ≤ 5).length = 2 ∧
      (trace remindAtFour 9 (sortedEvents [tradeAt 7, tradeAt 3])
          (start remindAtFour)).takeWhile (fun x ↦ x.1 ≤ 5)
        = (trace remindAtFour 9 (sortedEvents [tradeAt 3]) (start remindAtFour)).takeWhile
          fun x ↦ x.1 ≤ 5 :=
  ⟨by decide, trace_agrees_until remindAtFour 5 [tradeAt 7, tradeAt 3] [tradeAt 3]
    (by decide) 9⟩

/-- A trade at seven makes the strategy set a timer for four, so an iteration at four follows, which
a run without the trade does not have. -/
theorem not_observations_agree_of_past_timer :
    ¬ ∀ (setup : Setup Unit) (t : UnixNanos) (events₁ events₂ : List MarketEvent),
      (sortedEvents events₁).filter (fun ev ↦ ev.tsEvent ≤ t)
        = (sortedEvents events₂).filter (fun ev ↦ ev.tsEvent ≤ t) →
      ∀ n₁ n₂, (run setup n₁ (sortedEvents events₁) (start setup)).isSome = true →
        (run setup n₂ (sortedEvents events₂) (start setup)).isSome = true →
        ((trace setup n₁ (sortedEvents events₁) (start setup)).filter fun x ↦ x.1 ≤ t).map observe
          = ((trace setup n₂ (sortedEvents events₂) (start setup)).filter
              fun x ↦ x.1 ≤ t).map observe := by
  intro h
  have hobs := h remindAtFour 5 [tradeAt 7] [] (by decide) 9 9 (by decide)
    (by decide)
  exact absurd (congrArg List.length hobs) (by decide)

end Instances

end BacktestKernel

end Coinext
