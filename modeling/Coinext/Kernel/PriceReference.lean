import Coinext.Kernel.NextEvent
import Coinext.Support.DailyLog

/-!
# The reference of the daily price limit

The band of an A-share order is computed around the previous close, which the engine looks up in a
table of marks by session day. Marks come from market data, but the table is written only by the
price-limit check itself: a submit stores the mark that the cache holds at that moment. So the entry
of a day is the mark at the last check of the day, and the reference is the mark at the last check
of the forty days before. `reference_eq_previousClose_iff` says when this is the last mark.
-/

namespace Coinext

open ExecutionEngine

/-! ## What the table has seen -/

/-- The instrument whose mark a market event sets. -/
def MarketEvent.marks? : MarketEvent → Option InstrumentId
  | .quote q => some q.instrumentId
  | .trade t => some t.instrumentId
  | .bar b => some b.barType.instrumentId
  | .delta _ => none

/-- A submit gets as far as the price limit. -/
def Oms.ReachesLimit (s : Oms) (portfolio : Portfolio) (order : Order) (now : UnixNanos) : Prop :=
  s.cache.order order.clientOrderId = none
    ∧ (s.cache.instrument order.instrumentId).any fun inst ↦ isAshareEquity inst
      ∧ (inst.expiryNs.any fun expiry ↦ now ≥ expiry) = false
      ∧ ¬ (order.side = .sell
        ∧ order.quantity.asDecimal > sellableQty s.ledger portfolio order.instrumentId now inst)

instance (s : Oms) (portfolio : Portfolio) (order : Order) (now : UnixNanos) :
    Decidable (s.ReachesLimit portfolio order now) :=
  inferInstanceAs (Decidable (_ ∧ _))

namespace Core

/-- The mark of `iid` that an operation sets, with its session day. -/
def marked (iid : InstrumentId) (c : Core) : CoreOp → List (ℕ × Decimal)
  | .process ev =>
    if ev.marks? = some iid then
      ((c.oms.cache.process ev).mark iid).toList.map fun px ↦
        (dayKeyShanghai c.clock.now, px.asDecimal)
    else []
  | _ => []

/-- The mark of `iid` that an operation checks an order against, with its session day. -/
def checked (iid : InstrumentId) (c : Core) : CoreOp → List (ℕ × Decimal)
  | .submit _ portfolio order now =>
    if order.instrumentId = iid ∧ c.oms.ReachesLimit portfolio order now then
      (c.oms.cache.mark iid).toList.map fun px ↦ (dayKeyShanghai now, px.asDecimal)
    else []
  | _ => []

/-- A submit is made at the time of the clock. -/
def Stamped (c : Core) : CoreOp → Prop
  | .submit _ _ _ now => now = c.clock.now
  | _ => True

end Core

section Ledger

variable [DecimalWidth] (model : BrokerageModel)

theorem ExecutionEngine.closeByDay_applyReport (report : ExecutionReport) (now : UnixNanos)
    (s : Oms) : (applyReport report now s).2.ledger.closeByDay = s.ledger.closeByDay := by
  refine applyReport_induction (I := fun s' ↦ s'.ledger.closeByDay = s.ledger.closeByDay)
    (fun _ _ _ h ↦ h) (fun _ _ h ↦ h) (fun s' f h ↦ ?_) rfl report now
  rw [← h]
  unfold foldPosition recordBuy
  split
  · rfl
  · simp only
    split_ifs <;> rfl

omit [DecimalWidth] in
/-- What the checks of a submit do to the table. -/
theorem ExecutionEngine.closeByDay_preCheck (portfolio : Portfolio) (inst : Instrument)
    (order : Order) (now : UnixNanos) (s : Oms)
    (hnew : s.cache.order order.clientOrderId = none)
    (hinst : s.cache.instrument order.instrumentId = some inst) :
    (preCheck portfolio inst order now s).2.closeByDay
      = if s.ReachesLimit portfolio order now then
          (observeMark s.cache s.ledger order.instrumentId now).closeByDay
        else s.ledger.closeByDay := by
  unfold preCheck priceLimitViolation Oms.ReachesLimit
  simp only [hnew, hinst, Option.any_some]
  split_ifs <;> simp_all

omit [DecimalWidth] in
/-- Observing the mark of an A-share writes it under the session day. -/
theorem ExecutionEngine.lookup_observeMark {cache : Cache} {iid : InstrumentId} {inst : Instrument}
    (hinst : cache.instrument iid = some inst) (hashare : isAshareEquity inst = true)
    (ledger : ExecLedger) (now : UnixNanos) (day : ℕ) :
    (observeMark cache ledger iid now).closeByDay.lookup (iid, day)
      = (lastOn ((cache.mark iid).toList.map fun px ↦ (dayKeyShanghai now, px.asDecimal)) day).or
        (ledger.closeByDay.lookup (iid, day)) := by
  unfold observeMark
  cases cache.mark iid with
  | none => rfl
  | some px =>
    simp only [hinst, dayKeyForInst, hashare, if_pos, Option.toList_some, List.map_cons,
      List.map_nil, lastOn, lastWith_singleton]
    split_ifs with hday
    · rw [hday, AList.lookup_insert, Option.some_or]
    · rw [AList.lookup_insert_ne (fun heq ↦ hday (congrArg Prod.snd heq).symm), Option.none_or]

omit [DecimalWidth] in
theorem ExecutionEngine.lookup_observeMark_of_ne {cache : Cache} {iid iid' : InstrumentId}
    (hne : iid ≠ iid') (ledger : ExecLedger) (now : UnixNanos) (day : ℕ) :
    (observeMark cache ledger iid' now).closeByDay.lookup (iid, day)
      = ledger.closeByDay.lookup (iid, day) := by
  unfold observeMark
  split
  · rfl
  · exact AList.lookup_insert_ne fun heq ↦ hne (congrArg Prod.fst heq)

/-- The table after a submit is the one that its checks leave. -/
theorem ExecutionEngine.closeByDay_submit (risk : RiskEngine) (portfolio : Portfolio)
    (clockNow : UnixNanos) (order : Order) (now : UnixNanos) (s : Oms) :
    (submit risk portfolio model clockNow order now s).2.ledger.closeByDay
      = if s.ReachesLimit portfolio order now then
          (observeMark s.cache s.ledger order.instrumentId now).closeByDay
        else s.ledger.closeByDay := by
  unfold submit
  by_cases htracked : (s.cache.order order.clientOrderId).isSome = true
  · have hnot : ¬ s.ReachesLimit portfolio order now := by
      rintro ⟨hnew, -⟩
      simp [hnew] at htracked
    rw [if_pos htracked, if_neg hnot]
  rw [if_neg htracked]
  have hnew : s.cache.order order.clientOrderId = none := by simpa using htracked
  cases hinst : s.cache.instrument order.instrumentId with
  | none =>
    have hnot : ¬ s.ReachesLimit portfolio order now := by
      rintro ⟨-, hany⟩
      simp [hinst] at hany
    rw [if_neg hnot]
  | some inst =>
    rw [← closeByDay_preCheck portfolio inst order now s hnew hinst]
    rcases hpre : preCheck portfolio inst order now s with ⟨_ | reason, ledger⟩
    · simp only [hpre]
      cases risk.check order portfolio inst <;> rfl
    · simp only [hpre]
      rfl

/-- **One operation.** The table gains what an order is checked against. -/
theorem Core.lookup_closeByDay_step (c : Core) {iid : InstrumentId} {inst : Instrument}
    (hinst : c.oms.cache.instrument iid = some inst) (hashare : isAshareEquity inst = true)
    (op : CoreOp) (day : ℕ) :
    (c.step model op).oms.ledger.closeByDay.lookup (iid, day)
      = (lastOn (c.checked iid op) day).or (c.oms.ledger.closeByDay.lookup (iid, day)) := by
  cases op with
  | submit risk portfolio order now =>
    change (submit ..).2.ledger.closeByDay.lookup (iid, day) = _
    rw [closeByDay_submit, checked]
    by_cases hiid : order.instrumentId = iid
    · subst hiid
      simp only [true_and]
      split_ifs with hreaches
      · exact lookup_observeMark hinst hashare _ _ _
      · rfl
    · have hother : ¬ (order.instrumentId = iid ∧ c.oms.ReachesLimit portfolio order now) :=
        fun h ↦ hiid h.1
      rw [if_neg hother]
      split_ifs
      · exact lookup_observeMark_of_ne (Ne.symm hiid) _ _ _
      · rfl
  | applyNext =>
    cases hpending : c.pending with
    | nil =>
      simp only [step, exec, hpending]
      rfl
    | cons r rest =>
      simp only [step, exec, hpending, closeByDay_applyReport]
      rfl
  | cancel id now =>
    change (applyToOrder id (.pendingCancel now) c.oms).2.ledger.closeByDay.lookup _ = _
    rw [ledger_applyToOrder]
    rfl
  | closeAt iid px now tagSuffix =>
    cases hclosing : c.oms.closing iid px now tagSuffix with
    | none =>
      simp only [step, exec, hclosing]
      rfl
    | some x =>
      simp only [step, exec, hclosing]
      rfl
  | _ => rfl

/-- **Whole runs.** The entry of a day is the mark at the last check of the day. -/
theorem Core.lookup_closeByDay_foldl {c : Core} {iid : InstrumentId} {inst : Instrument}
    (hinst : c.oms.cache.instrument iid = some inst) (hashare : isAshareEquity inst = true)
    (hempty : c.oms.ledger.closeByDay = ∅) (ops : List CoreOp) (day : ℕ) :
    (ops.foldl (step model) c).oms.ledger.closeByDay.lookup (iid, day)
      = lastOn (logOf (step model) (checked iid) c ops) day := by
  induction ops using List.reverseRecOn with
  | nil =>
    rw [List.foldl_nil, hempty]
    rfl
  | append_singleton ops op ih =>
    have hsame : (ops.foldl (step model) c).oms.cache.instrument iid = some inst :=
      (instrument_foldl model c ops iid).trans hinst
    rw [List.foldl_append, List.foldl_cons, List.foldl_nil, logOf_concat, lastOn,
      lastWith_append, ← lastOn, ← lastOn, ← ih]
    exact lookup_closeByDay_step model _ hsame hashare op day

end Ledger

/-! ## The reference -/

section Reference

variable [DecimalWidth] (model : BrokerageModel) (config : BacktestConfig) (ops : List CoreOp)

/-- The previous close that the band of a submit is computed from. -/
def reference (s : Oms) (inst : Instrument) (iid : InstrumentId) (now : UnixNanos) :
    Option Decimal :=
  prevCloseFor (observeMark s.cache s.ledger iid now) iid (dayKeyForInst inst now)

/-- The marks of `iid` in a run, with their session days. -/
def marksOf (iid : InstrumentId) : List (ℕ × Decimal) :=
  logOf (Core.step model) (Core.marked iid) (BacktestKernel.initialCore config) ops

/-- The marks that orders on `iid` were checked against in a run, with their session days. -/
def checksOf (iid : InstrumentId) : List (ℕ × Decimal) :=
  logOf (Core.step model) (Core.checked iid) (BacktestKernel.initialCore config) ops

/-- The last mark on the latest of the forty session days before `day` that has one. -/
def previousClose (marks : List (ℕ × Decimal)) (day : ℕ) : Option Decimal :=
  lookBack 40 day (lastOn marks)

omit [DecimalWidth] in
theorem prevCloseFor_eq_lookBack (ledger : ExecLedger) (iid : InstrumentId) (day : ℕ) :
    prevCloseFor ledger iid day = lookBack 40 day fun d ↦
      (ledger.closeByDay.lookup (iid, d)).filter fun px ↦ decide (px > 0) := rfl

omit [DecimalWidth] in
theorem dayKeyShanghai_mono {a b : UnixNanos} (h : a ≤ b) :
    dayKeyShanghai a ≤ dayKeyShanghai b := by
  unfold dayKeyShanghai
  exact Nat.div_le_div_right (Nat.add_le_add_right (Nat.div_le_div_right h) _)

variable {model config ops} {iid : InstrumentId} {inst : Instrument}

theorem pairwise_marksOf (iid : InstrumentId) :
    (marksOf model config ops iid).Pairwise fun e e' ↦ e.1 ≤ e'.1 := by
  have hrun : Along (Core.step model) (fun _ _ ↦ True) (BacktestKernel.initialCore config) ops :=
    along_of_forall_mem fun _ _ ↦ trivial
  refine pairwise_logOf (t := fun c ↦ dayKeyShanghai c.clock.now) hrun
    (fun c op ↦ dayKeyShanghai_mono (Core.now_le_step model c op)) fun c op _ e he ↦ ?_
  cases op with
  | process ev =>
    rw [Core.marked] at he
    split_ifs at he
    · obtain ⟨px, -, rfl⟩ := List.mem_map.mp he
      rfl
    · cases he
  | _ => cases he

theorem pairwise_checksOf (hstamped : Along (Core.step model) Core.Stamped
    (BacktestKernel.initialCore config) ops) (iid : InstrumentId) :
    (checksOf model config ops iid).Pairwise fun e e' ↦ e.1 ≤ e'.1 := by
  refine pairwise_logOf (t := fun c ↦ dayKeyShanghai c.clock.now) hstamped
    (fun c op ↦ dayKeyShanghai_mono (Core.now_le_step model c op)) fun c op hop e he ↦ ?_
  cases op with
  | submit risk portfolio order now =>
    rw [Core.checked] at he
    split_ifs at he
    · obtain ⟨px, -, rfl⟩ := List.mem_map.mp he
      exact congrArg dayKeyShanghai hop
    · cases he
  | _ => cases he

omit [DecimalWidth] in
theorem previousClose_eq_lastWithin {marks : List (ℕ × Decimal)}
    (hsorted : marks.Pairwise fun e e' ↦ e.1 ≤ e'.1) (day : ℕ) :
    previousClose marks day = lastWithin 40 day marks := by
  unfold previousClose lastWithin
  rw [← lastWith_closes, ← lastWithin]
  exact lookBack_eq_lastWithin (pairwise_closes hsorted) (fun _ _ ↦ lastOn_eq_some_iff) 40 day

section

variable (hinst : (BacktestKernel.initialCore config).oms.cache.instrument iid = some inst)
  (hashare : isAshareEquity inst = true)
include hinst hashare

theorem lookup_observeMark_of_lt {now : UnixNanos} {day : ℕ} (hday : day < dayKeyShanghai now) :
    let s := (ops.foldl (Core.step model) (BacktestKernel.initialCore config)).oms
    (observeMark s.cache s.ledger iid now).closeByDay.lookup (iid, day)
      = lastOn (checksOf model config ops iid) day := by
  have hnow : lastOn (((ops.foldl (Core.step model)
      (BacktestKernel.initialCore config)).oms.cache.mark iid).toList.map fun px ↦
        (dayKeyShanghai now, px.asDecimal)) day = none := by
    refine lastWith_eq_none_iff.mpr fun e he ↦ ?_
    obtain ⟨px, -, rfl⟩ := List.mem_map.mp he
    exact hday.ne'
  simp only
  rw [lookup_observeMark ((Core.instrument_foldl model _ ops iid).trans hinst) hashare, hnow,
    Option.none_or]
  exact Core.lookup_closeByDay_foldl model hinst hashare rfl ops day

/-- **The reference is the last of the closes that were checked in the forty days before.** -/
theorem reference_eq_lastWithin
    (hstamped : Along (Core.step model) Core.Stamped (BacktestKernel.initialCore config) ops)
    (now : UnixNanos) :
    reference (ops.foldl (Core.step model) (BacktestKernel.initialCore config)).oms inst iid now
      = lastWithin 40 (dayKeyShanghai now)
        ((closes (checksOf model config ops iid)).filter fun e ↦ 0 < e.2) := by
  have hday : dayKeyForInst inst now = dayKeyShanghai now := if_pos hashare
  have htable : lookBack 40 (dayKeyShanghai now) _ = lookBack 40 (dayKeyShanghai now) fun d ↦
      (lastOn (checksOf model config ops iid) d).filter fun px ↦ decide (px > 0) :=
    lookBack_congr fun d hd ↦ congrArg _ (lookup_observeMark_of_lt hinst hashare hd)
  rw [reference, hday, prevCloseFor_eq_lookBack, htable]
  refine lookBack_eq_lastWithin ((pairwise_closes (pairwise_checksOf hstamped iid)).filter _)
    (fun d v ↦ ?_) 40 _
  rw [Option.filter_eq_some_iff, lastOn_eq_some_iff, List.mem_filter]

/-- **The reference of the price limit.** In a run of the engine, the band of a submit is computed
from the last mark of the latest session day with a mark, at most forty days back, exactly when the
last close that was checked in these forty days is the last mark in them. -/
theorem reference_eq_previousClose_iff
    (hstamped : Along (Core.step model) Core.Stamped (BacktestKernel.initialCore config) ops)
    (now : UnixNanos) :
    reference (ops.foldl (Core.step model) (BacktestKernel.initialCore config)).oms inst iid now
        = previousClose (marksOf model config ops iid) (dayKeyShanghai now)
      ↔ lastWithin 40 (dayKeyShanghai now)
          ((closes (checksOf model config ops iid)).filter fun e ↦ 0 < e.2)
        = lastWithin 40 (dayKeyShanghai now) (marksOf model config ops iid) := by
  rw [reference_eq_lastWithin hinst hashare hstamped,
    previousClose_eq_lastWithin (pairwise_marksOf iid)]

end

end Reference

section Instances

open scoped RustDecimal

def cny : Currency := ⟨"CNY", 2, two_le_maxPrecision⟩

/-- A share that is listed in Shanghai. -/
def ashare : Instrument where
  id := ⟨⟨"600000"⟩, ⟨"SSE"⟩⟩
  assetClass := .equity
  baseCurrency := cny
  quoteCurrency := cny
  settlementCurrency := cny
  pricePrecision := 2
  sizePrecision := 0
  priceIncrement := ⟨1, 2⟩
  sizeIncrement := ⟨100, 0⟩
  minNotional := none
  multiplier := unitMultiplier
  makerFee := 0
  takerFee := 0
  isInverse := false

/-- An account that trades the share without limits. -/
def ashareConfig : BacktestConfig :=
  ⟨[ashare], cny, ⟨100000000, cny⟩, .unlimited, ({} : DefaultBrokerageModel).brokerage, 0⟩

/-- The share trades at a price in cents. -/
def ashareTrade (cents : ℤ) : CoreOp :=
  .process (.trade ⟨ashare.id, ⟨cents, 2⟩, ⟨100, 0⟩, .buy, ⟨"T"⟩, 0, 0⟩)

/-- An order for one lot at the market. -/
def ashareOrder (side : OrderSide) (id : String) : Order :=
  .new ⟨"S"⟩ ⟨id⟩ ashare.id side .market ⟨100, 0⟩ none none .gtc {} 0

/-- A buy order is submitted on the first day. -/
def ashareSubmit : CoreOp :=
  .submit (RiskGate.riskEngine .new .unlimited false) (PortfolioState.portfolio .new cny)
    (ashareOrder .buy "a") 0

/-- The next session day. -/
def nextDay : UnixNanos := 86400000000000

/-- The state after operations of the first day. -/
def ashareAfter (ops : List CoreOp) : Core :=
  ops.foldl (Core.step ashareConfig.brokerage) (BacktestKernel.initialCore ashareConfig)

/-- An order is checked after the last trade of the day, at eleven. -/
theorem reference_eq_previousClose_iff_checkedLast :
    reference (ashareAfter [ashareTrade 1000, ashareTrade 1100, ashareSubmit]).oms ashare ashare.id
        nextDay = some 11
      ∧ previousClose (marksOf ashareConfig.brokerage ashareConfig
        [ashareTrade 1000, ashareTrade 1100, ashareSubmit] ashare.id) (dayKeyShanghai nextDay)
        = some 11 := by
  have hprevious : previousClose (marksOf ashareConfig.brokerage ashareConfig
      [ashareTrade 1000, ashareTrade 1100, ashareSubmit] ashare.id) (dayKeyShanghai nextDay)
      = some 11 := by
    decide +kernel
  have hstamped : Along (Core.step ashareConfig.brokerage) Core.Stamped
      (BacktestKernel.initialCore ashareConfig)
      [ashareTrade 1000, ashareTrade 1100, ashareSubmit] := ⟨trivial, trivial, rfl, trivial⟩
  have hreference : reference (ashareAfter [ashareTrade 1000, ashareTrade 1100, ashareSubmit]).oms
      ashare ashare.id nextDay = previousClose (marksOf ashareConfig.brokerage ashareConfig
        [ashareTrade 1000, ashareTrade 1100, ashareSubmit] ashare.id) (dayKeyShanghai nextDay) :=
    (reference_eq_previousClose_iff (by decide) (by decide) hstamped nextDay).mpr
      (by decide +kernel)
  exact ⟨hreference.trans hprevious, hprevious⟩

/-- The share closes at eleven, but the last order was checked at ten: on the next day, the band is
computed from ten. -/
theorem not_previousClose_of_later_trade :
    reference (ashareAfter [ashareTrade 1000, ashareSubmit, ashareTrade 1100]).oms ashare ashare.id
        nextDay = some 10
      ∧ previousClose (marksOf ashareConfig.brokerage ashareConfig
        [ashareTrade 1000, ashareSubmit, ashareTrade 1100] ashare.id) (dayKeyShanghai nextDay)
        = some 11 := by
  decide +kernel

end Instances

end Coinext
