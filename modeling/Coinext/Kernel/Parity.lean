import Coinext.Engine.PriceLimit
import Coinext.Kernel.Live

/-!
# Submitting in a backtest and live

The backtest submits through `ExecutionEngine.submit`, the live kernel through its own branch of
`route`. Both drop an order that is tracked or whose instrument is unknown, and both ask the risk
gate. In between, the engine denies orders on expired contracts and applies the rules of the
mainland exchanges; the live branch does not. So the two agree on an order exactly when none of
these checks would have denied it.
-/

namespace Coinext

open ExecutionEngine

section

variable [DecimalWidth] {σ ε : Type}

/-! ## What each path does -/

/-- The checks before the risk gate pass. -/
def PassesPreChecks (portfolio : Portfolio) (inst : Instrument) (order : Order) (now : UnixNanos)
    (s : Oms) : Prop :=
  (∀ expiry ∈ inst.expiryNs, now < expiry)
    ∧ (order.side = .sell → isAshareEquity inst = true →
      order.quantity.asDecimal ≤ sellableQty s.ledger portfolio order.instrumentId now inst)
    ∧ (priceLimitViolation s.cache s.ledger inst order now).1 = none

omit [DecimalWidth] in
theorem preCheck_eq_none_iff {portfolio : Portfolio} {inst : Instrument} {order : Order}
    {now : UnixNanos} {s : Oms} : (preCheck portfolio inst order now s).1 = none
      ↔ PassesPreChecks portfolio inst order now s := by
  unfold preCheck PassesPreChecks
  simp only
  split_ifs with hexpired htplus
  · simp only [Option.any_eq_true, decide_eq_true_eq] at hexpired
    obtain ⟨expiry, hsome, hle⟩ := hexpired
    refine iff_of_false (by simp) fun h ↦ ?_
    exact absurd (h.1 expiry hsome) (not_lt.mpr hle)
  · refine iff_of_false (by simp) fun h ↦ ?_
    exact absurd (h.2.1 htplus.1 htplus.2.1) (not_le.mpr htplus.2.2)
  · have hlive : ∀ expiry ∈ inst.expiryNs, now < expiry := by
      intro expiry hsome
      by_contra hle
      refine hexpired ?_
      simp only [Option.any_eq_true, decide_eq_true_eq]
      exact ⟨expiry, hsome, not_lt.mp hle⟩
    refine ⟨fun h ↦ ⟨hlive, fun hside hashare ↦ ?_, h⟩, fun h ↦ h.2.2⟩
    by_contra hgt
    exact htplus ⟨hside, hashare, not_le.mp hgt⟩

omit [DecimalWidth] in
/-- A pre-check gives no reason that the risk gate gives. -/
theorem ne_display_of_preCheck {portfolio : Portfolio} {inst : Instrument} {order : Order}
    {now : UnixNanos} {s : Oms} {reason : Reason}
    (h : (preCheck portfolio inst order now s).1 = some reason) (deny : DenyReason) :
    reason ≠ .text deny.display := by
  rintro rfl
  unfold preCheck at h
  simp only at h
  split_ifs at h
  · cases deny <;> simp [DenyReason.display] at h
  · simp at h
  · obtain ⟨prev, refPx, -, hreason⟩ := violation_cases h
    cases hreason

/-- The events that the live branch records for a submitted order. -/
def LiveKernel.submitEvents (setup : LiveSetup σ ε) (now : UnixNanos) (order : Order)
    (k : LiveKernel σ ε) : List OrderEvent :=
  if (k.oms.cache.order order.clientOrderId).isSome then []
  else match k.oms.cache.instrument order.instrumentId with
    | none => []
    | some inst =>
      let risk := RiskGate.riskEngine k.oms.cache setup.config.risk setup.killed
      let portfolio := PortfolioState.portfolio k.oms.cache setup.config.settle
      match risk.check order portfolio inst with
      | .approved => [.submitted now]
      | .denied reason => [.denied (.text reason.display) now]

/-- Record an event of a submitted order, and send the order if that is its submission. -/
def LiveKernel.carryOut (setup : LiveSetup σ ε) (now : UnixNanos) (order : Order)
    (k : LiveKernel σ ε) (ev : OrderEvent) : LiveKernel σ ε :=
  if ev = .submitted now then sendOrder setup (order.applied ev) (trackOrder setup order ev k)
  else trackOrder setup order ev k

theorem LiveKernel.route_submit (setup : LiveSetup σ ε) (now : UnixNanos) (order : Order)
    {k : LiveKernel σ ε} (hrun : k.halted = none) : route setup now k (.submit order)
      = (submitEvents setup now order k).foldl (carryOut setup now order) k := by
  unfold route submitEvents
  rw [hrun, if_neg (by simp)]
  simp only
  split_ifs with htracked
  · rfl
  cases k.oms.cache.instrument order.instrumentId with
  | none => rfl
  | some inst =>
    simp only
    cases (RiskGate.riskEngine k.oms.cache setup.config.risk setup.killed).check order
        (PortfolioState.portfolio k.oms.cache setup.config.settle) inst with
    | approved => exact (if_pos rfl).symm
    | denied reason =>
      have hne : OrderEvent.denied (.text reason.display) now ≠ .submitted now := by
        intro h
        cases h
      simp only [List.foldl_cons, List.foldl_nil, carryOut, if_neg hne]

/-- The engine hands an order to the venue exactly when it records its submission. -/
theorem sim_submit (risk : RiskEngine) (portfolio : Portfolio) (model : BrokerageModel)
    (clockNow : UnixNanos) (order : Order) (now : UnixNanos) (s : Oms) :
    (submit risk portfolio model clockNow order now s).2.sim
      = if .submitted now ∈ (submit risk portfolio model clockNow order now s).1 then
          SimulatedExecutionClient.onSubmit model
            (submit risk portfolio model clockNow order now s).2.cache clockNow
            (order.applied (.submitted now)) s.sim
        else s.sim := by
  unfold submit
  by_cases htracked : (s.cache.order order.clientOrderId).isSome = true
  · simp [if_pos htracked]
  simp only [if_neg htracked]
  cases s.cache.instrument order.instrumentId with
  | none => simp
  | some inst =>
    simp only
    cases (preCheck portfolio inst order now s).1 with
    | some reason => simp [track]
    | none => cases risk.check order portfolio inst <;> simp [track]

/-! ## Parity -/

section Parity

variable (setup : LiveSetup σ ε) (model : BrokerageModel) (clockNow : UnixNanos) (order : Order)
  (now : UnixNanos) (k : LiveKernel σ ε)

/-- The submit of the backtest, on the state of a live kernel. -/
def backtestSubmit : List OrderEvent × Oms :=
  submit (RiskGate.riskEngine k.oms.cache setup.config.risk setup.killed)
    (PortfolioState.portfolio k.oms.cache setup.config.settle) model clockNow order now k.oms

/-- **Parity.** The events of either path say what it records and whether it sends the order. They
are the same exactly when the order is dropped by both, or passes the checks that only the backtest
makes. -/
theorem submit_parity_iff (hrun : k.halted = none) :
    LiveKernel.route setup now k (.submit order)
        = (LiveKernel.submitEvents setup now order k).foldl (LiveKernel.carryOut setup now order) k
      ∧ (backtestSubmit setup model clockNow order now k).2.sim
        = (if .submitted now ∈ (backtestSubmit setup model clockNow order now k).1 then
            SimulatedExecutionClient.onSubmit model
              (backtestSubmit setup model clockNow order now k).2.cache clockNow
              (order.applied (.submitted now)) k.oms.sim
          else k.oms.sim)
      ∧ ((backtestSubmit setup model clockNow order now k).1
          = LiveKernel.submitEvents setup now order k
        ↔ k.oms.cache.order order.clientOrderId ≠ none
          ∨ ∀ inst, k.oms.cache.instrument order.instrumentId = some inst →
            PassesPreChecks (PortfolioState.portfolio k.oms.cache setup.config.settle) inst order
              now k.oms) := by
  refine ⟨LiveKernel.route_submit setup now order hrun, sim_submit .., ?_⟩
  unfold backtestSubmit LiveKernel.submitEvents submit
  by_cases htracked : (k.oms.cache.order order.clientOrderId).isSome = true
  · rw [if_pos htracked, if_pos htracked]
    exact iff_of_true rfl (.inl (Option.isSome_iff_ne_none.mp htracked))
  rw [if_neg htracked, if_neg htracked]
  have hnew : ¬ k.oms.cache.order order.clientOrderId ≠ none :=
    fun h ↦ htracked (Option.isSome_iff_ne_none.mpr h)
  rw [or_iff_right hnew]
  cases k.oms.cache.instrument order.instrumentId with
  | none => simp
  | some inst =>
    simp only [Option.some.injEq, forall_eq', ← preCheck_eq_none_iff]
    rcases hpre : preCheck (PortfolioState.portfolio k.oms.cache setup.config.settle) inst order
      now k.oms with ⟨_ | reason, ledger⟩
    · -- both ask the risk gate
      refine iff_of_true ?_ rfl
      simp only
      cases (RiskGate.riskEngine k.oms.cache setup.config.risk setup.killed).check order
        (PortfolioState.portfolio k.oms.cache setup.config.settle) inst <;> rfl
    · have hdeny := ne_display_of_preCheck (congrArg Prod.fst hpre)
      refine iff_of_false ?_ (by simp)
      simp only
      cases (RiskGate.riskEngine k.oms.cache setup.config.risk setup.killed).check order
        (PortfolioState.portfolio k.oms.cache setup.config.settle) inst with
      | approved => simp
      | denied deny => simpa [track] using hdeny deny

end Parity

end

section Instances

open scoped RustDecimal

/-- A contract that expires at ten. -/
def datedFuture : Instrument :=
  futuresContract ⟨⟨"IF2409"⟩, ⟨"CFFEX"⟩⟩ none ⟨"CNY", 2, two_le_maxPrecision⟩
    ⟨"CNY", 2, two_le_maxPrecision⟩ 1 0 ⟨2, 1⟩ ⟨1, 0⟩ none ⟨300, 0⟩ 0 0 10

/-- A kernel that trades the contract, over a client that takes every order. -/
def futureSetup : LiveSetup Unit Unit where
  config := ⟨[datedFuture], datedFuture.settlementCurrency,
    Money.zero datedFuture.settlementCurrency, .unlimited,
    ({} : DefaultBrokerageModel).brokerage, 0⟩
  strategyId := ⟨"s"⟩
  strategy := ⟨fun _ _ ↦ .done ()⟩
  initial := ()
  killed := false
  client := ⟨fun _ e ↦ .ok e, fun _ _ e ↦ .ok e, fun e ↦ .ok ([], e), fun _ ↦ .empty⟩
  exec := ()
  clock n := n
  stop _ := false
  callbackFails _ _ := false

/-- An order to buy one contract at the market. -/
def futureOrder : Order :=
  .new ⟨"s"⟩ ⟨"a"⟩ datedFuture.id .buy .market ⟨1, 0⟩ none none .gtc {} 0

/-- Before the expiry, both submit the order. -/
theorem submit_parity_iff_beforeExpiry :
    (backtestSubmit futureSetup futureSetup.config.brokerage 5 futureOrder 5
        (LiveKernel.build futureSetup)).1
      = LiveKernel.submitEvents futureSetup 5 futureOrder (LiveKernel.build futureSetup)
    ∧ LiveKernel.submitEvents futureSetup 5 futureOrder (LiveKernel.build futureSetup)
      = [.submitted 5] := by
  refine ⟨(submit_parity_iff futureSetup futureSetup.config.brokerage 5 futureOrder 5
    (LiveKernel.build futureSetup) rfl).2.2.mpr (.inr fun inst hinst ↦ ?_), by decide⟩
  rw [← preCheck_eq_none_iff]
  have hknown : (LiveKernel.build futureSetup).oms.cache.instrument futureOrder.instrumentId
      = some datedFuture := by
    decide
  obtain rfl := Option.some.inj (hknown.symm.trans hinst)
  decide

/-- After the expiry, the backtest denies the order and keeps it; the live kernel submits it and
sends it to the venue. -/
theorem not_parity_of_expired :
    (backtestSubmit futureSetup futureSetup.config.brokerage 20 futureOrder 20
        (LiveKernel.build futureSetup)).1
      ≠ LiveKernel.submitEvents futureSetup 20 futureOrder (LiveKernel.build futureSetup)
      ∧ (backtestSubmit futureSetup futureSetup.config.brokerage 20 futureOrder 20
        (LiveKernel.build futureSetup)).1 = [.denied (.text "instrument expired") 20]
      ∧ LiveKernel.submitEvents futureSetup 20 futureOrder (LiveKernel.build futureSetup)
        = [.submitted 20]
      ∧ (backtestSubmit futureSetup futureSetup.config.brokerage 20 futureOrder 20
        (LiveKernel.build futureSetup)).2.sim.queue.items = []
      ∧ ((LiveKernel.route futureSetup 20 (LiveKernel.build futureSetup)
        (.submit futureOrder)).sent.map fun o ↦ o.2.clientOrderId) = [⟨"a"⟩] := by
  decide

end Instances

end Coinext
