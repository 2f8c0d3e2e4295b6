import Coinext.Engine.Cache
import Coinext.Engine.Ports

/-!
# Portfolio and pre-trade risk

The two ports the order-management engine consults, as the record of what their methods answer, and
the implementations the kernels wire in. Both implementations read the cache and write nothing.
-/

namespace Coinext

/-- What the consulted methods of the `Portfolio` trait return. -/
structure Portfolio where
  position : InstrumentId → Option Position
  grossExposure : Money
  equity : Money

/-- The `RiskEngine` trait. -/
structure RiskEngine where
  check : Order → Portfolio → Instrument → RiskDecision

/-! ## The portfolio over the cache -/

/-- A value in an instrument's settlement currency, in the portfolio's; `none` without a rate. -/
def convertToSettle (value : Money) (inst : Instrument) (mark : Price) (settle : Currency) :
    Option Decimal :=
  if value.currency = settle then some value.amount
  else if inst.isInverse = true ∧ inst.quoteCurrency = settle
      ∧ value.currency = inst.baseCurrency then
    some (value.amount * mark.asDecimal)
  else none

namespace PortfolioState

variable [DecimalWidth] (c : Cache) (settle : Currency)

/-- The settlement-currency amount of a total; zero when it cannot be converted. -/
def toMoney (total : Decimal) : Money :=
  match Money.fromDecimal total settle with
  | .ok m => m
  | .error _ => Money.zero settle

/-- The cached positions. -/
def positions : List Position := c.positions.entries.map fun e ↦ e.2

/-- Notional of one position, when its instrument, mark and rate are known. -/
def exposureOf (pos : Position) : Decimal :=
  match c.instrument pos.instrumentId, c.mark pos.instrumentId with
  | some inst, some mark =>
    (convertToSettle (pos.notional mark inst) inst mark settle).getD 0
  | _, _ => 0

def grossExposure : Money := toMoney settle ((positions c).map (exposureOf c settle)).sum

/-- Realized and unrealized profit of one position. -/
def profitOf (pos : Position) : Decimal :=
  let inst := c.instrument pos.instrumentId
  let mark := c.mark pos.instrumentId
  let realized :=
    if pos.realizedPnl.currency = settle then pos.realizedPnl.amount
    else match inst, mark with
      | some inst, some mark => (convertToSettle pos.realizedPnl inst mark settle).getD 0
      | _, _ => 0
  let unrealized := match inst, mark with
    | some inst, some mark =>
      (convertToSettle (pos.unrealizedPnl mark inst) inst mark settle).getD 0
    | _, _ => 0
  realized + unrealized

def equity : Money :=
  let balance := match c.account with
    | some balances => ((balances.lookup settle).getD (Money.zero settle)).amount
    | none => 0
  toMoney settle (balance + ((positions c).map (profitOf c settle)).sum)

/-- The portfolio facade over the cache as it stands. -/
def portfolio : Portfolio := ⟨c.position, grossExposure c settle, equity c settle⟩

end PortfolioState

/-! ## The risk gate -/

namespace RiskGate

/-- Signed size of the order's instrument. -/
def signedPositionQty (portfolio : Portfolio) (order : Order) : Decimal :=
  match portfolio.position order.instrumentId with
  | some p => p.signed
  | none => 0

/-- The limits that need a reference price. -/
def checkNotional (limits : RiskLimits) (order : Order) (inst : Instrument) (refPx : Option Price) :
    Option DenyReason :=
  match refPx with
  | none => none
  | some px =>
    let notional := px.asDecimal * order.quantity.asDecimal * inst.multiplier.asDecimal
    if inst.minNotional.any fun min ↦ notional < min.amount then some .minNotional
    else if limits.maxOrderNotional.any fun maxn ↦ notional > maxn.amount then
      some .maxOrderNotional
    else none

/-- The initial-margin gate, for orders that increase exposure. -/
def checkMargin (limits : RiskLimits) (portfolio : Portfolio) (inst : Instrument)
    (refPx : Option Price) (cur delta : Decimal) : Option DenyReason :=
  match limits.leverage, refPx with
  | some lev, some px =>
    let addedQty := |cur + delta| - |cur|
    if lev > 0 ∧ addedQty > 0 then
      let addedNotional := px.asDecimal * addedQty * inst.multiplier.asDecimal
      let used := portfolio.grossExposure.amount / lev
      let free := portfolio.equity.amount - used
      if addedNotional / lev > free then some .insufficientMargin else none
    else none
  | _, _ => none

def check (c : Cache) (limits : RiskLimits) (killed : Bool) (order : Order) (portfolio : Portfolio)
    (inst : Instrument) : RiskDecision :=
  if killed then .denied .killSwitchEngaged
  else
    let refPx := order.price.or (c.mark order.instrumentId)
    match checkNotional limits order inst refPx with
    | some reason => .denied reason
    | none =>
      let cur := signedPositionQty portfolio order
      let delta := order.side.sign * order.quantity.asDecimal
      if limits.maxPositionQty.any fun maxq ↦ |cur + delta| > maxq.asDecimal then
        .denied .maxPositionExceeded
      else if limits.maxGrossExposure.any fun maxg ↦
          portfolio.grossExposure.currency = maxg.currency
            ∧ portfolio.grossExposure.amount > maxg.amount then
        .denied .maxGrossExposureExceeded
      else match checkMargin limits portfolio inst refPx cur delta with
        | some reason => .denied reason
        | none => .approved

/-- **What passes the gate**, limit by limit. -/
theorem check_eq_approved_iff {c : Cache} {limits : RiskLimits} {killed : Bool} {order : Order}
    {portfolio : Portfolio} {inst : Instrument} :
    check c limits killed order portfolio inst = .approved ↔
      killed = false
        ∧ checkNotional limits order inst (order.price.or (c.mark order.instrumentId)) = none
        ∧ (∀ maxq ∈ limits.maxPositionQty, |signedPositionQty portfolio order
          + order.side.sign * order.quantity.asDecimal| ≤ maxq.asDecimal)
        ∧ (∀ maxg ∈ limits.maxGrossExposure, portfolio.grossExposure.currency = maxg.currency →
          portfolio.grossExposure.amount ≤ maxg.amount)
        ∧ checkMargin limits portfolio inst (order.price.or (c.mark order.instrumentId))
          (signedPositionQty portfolio order) (order.side.sign * order.quantity.asDecimal)
          = none := by
  dsimp only [check]
  cases killed with
  | true => simp
  | false =>
    cases checkNotional limits order inst (order.price.or (c.mark order.instrumentId)) with
    | some reason => simp
    | none =>
      simp only [Bool.false_eq_true, if_false, true_and]
      split_ifs with hposition hgross
      · obtain ⟨maxq, hmem, hover⟩ := Option.any_eq_true _ _ |>.mp hposition
        refine iff_of_false (by simp) fun h ↦ ?_
        exact (of_decide_eq_true hover).not_ge (h.1 maxq hmem)
      · obtain ⟨maxg, hmem, hover⟩ := Option.any_eq_true _ _ |>.mp hgross
        obtain ⟨hcurrency, hlt⟩ := of_decide_eq_true hover
        refine iff_of_false (by simp) fun h ↦ ?_
        exact hlt.not_ge (h.2.1 maxg hmem hcurrency)
      · have hq (maxq : Quantity) (hmem : maxq ∈ limits.maxPositionQty) :
            |signedPositionQty portfolio order + order.side.sign * order.quantity.asDecimal|
              ≤ maxq.asDecimal :=
          not_lt.mp fun hlt ↦ hposition (Option.any_eq_true _ _ |>.mpr
            ⟨maxq, hmem, decide_eq_true hlt⟩)
        have hg (maxg : Money) (hmem : maxg ∈ limits.maxGrossExposure)
            (hcurrency : portfolio.grossExposure.currency = maxg.currency) :
            portfolio.grossExposure.amount ≤ maxg.amount :=
          not_lt.mp fun hlt ↦ hgross (Option.any_eq_true _ _ |>.mpr
            ⟨maxg, hmem, decide_eq_true ⟨hcurrency, hlt⟩⟩)
        cases checkMargin limits portfolio inst (order.price.or (c.mark order.instrumentId))
            (signedPositionQty portfolio order) (order.side.sign * order.quantity.asDecimal) with
        | some reason => simp
        | none => exact iff_of_true rfl ⟨hq, hg, rfl⟩

/-- The gate over the cache as it stands. -/
def riskEngine (c : Cache) (limits : RiskLimits) (killed : Bool) : RiskEngine :=
  ⟨check c limits killed⟩

end RiskGate

end Coinext
