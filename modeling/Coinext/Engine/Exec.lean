import Coinext.Engine.Risk
import Coinext.Sim.Venue

/-!
# The order-management engine

`ExecutionEngine` routes order intents through the risk gate to the simulated venue, and folds the
venue's reports into the order log and the position. Its state is the shared cache, its own ledger,
and the venue behind it.

The ledger keeps the trade ids that were delivered, and the two A-share tables: what was bought on a
session day, and the last mark of a session day.
-/

namespace Coinext

structure ExecLedger where
  seenTradeIds : Finset TradeId
  boughtToday : Map (InstrumentId × ℕ) Decimal
  closeByDay : Map (InstrumentId × ℕ) Decimal

def ExecLedger.new : ExecLedger := ⟨∅, ∅, ∅⟩

/-- The state the engine's calls act on. -/
structure Oms where
  cache : Cache
  ledger : ExecLedger
  sim : SimState

/-- Write a cached order back under the key it was borrowed from. -/
def Oms.setOrder (s : Oms) (id : ClientOrderId) (o : Order) : Oms :=
  { s with cache := s.cache.setOrder id o }

/-- The position of an instrument, a flat one if it has none yet. -/
def Oms.positionOrFlat (s : Oms) (iid : InstrumentId) (inst : Instrument) : Position :=
  (s.cache.position iid).getD (Position.flat ⟨iid.display ++ "-POS"⟩ iid inst.pricePrecision
    inst.sizePrecision inst.settlementCurrency)

namespace ExecutionEngine

/-! ## A-share rules -/

/-- Cash equities of the two mainland exchanges. -/
def isAshareEquity (inst : Instrument) : Bool :=
  inst.assetClass = .equity ∧ (inst.id.venue.text = "SSE" ∨ inst.id.venue.text = "SZSE")

def dayKeyUtc (now : UnixNanos) : ℕ := now / 1000000000 / 86400

/-- Session day in Shanghai, eight hours ahead and without daylight saving. -/
def dayKeyShanghai (now : UnixNanos) : ℕ := (now / 1000000000 + 8 * 3600) / 86400

def dayKeyForInst (inst : Instrument) (now : UnixNanos) : ℕ :=
  if isAshareEquity inst then dayKeyShanghai now else dayKeyUtc now

/-- Daily limit: 5% for special-treatment names, 20% for ChiNext and STAR codes, else 10%. -/
def priceLimitPct (symbol : Symbol) : Decimal :=
  let s := symbol.text.toList.map Char.toUpper
  if "*ST".toList.isPrefixOf s ∨ "ST".toList.isPrefixOf s then 5 / 100
  else
    let digits := s.filter Char.isDigit
    let code := digits.drop (digits.length - 6)
    if digits.length ≥ 6 ∧ ("300".toList.isPrefixOf code ∨ "301".toList.isPrefixOf code
        ∨ "688".toList.isPrefixOf code ∨ "689".toList.isPrefixOf code) then 20 / 100
    else 10 / 100

/-- Store the session-day mark of an instrument, if it has one. -/
def observeMark (cache : Cache) (ledger : ExecLedger) (id : InstrumentId) (now : UnixNanos) :
    ExecLedger :=
  match cache.mark id with
  | none => ledger
  | some mark =>
    let day := match cache.instrument id with
      | some inst => dayKeyForInst inst now
      | none => dayKeyShanghai now
    { ledger with closeByDay := ledger.closeByDay.insert (id, day) mark.asDecimal }

/-- Last positive mark on one of the forty session days before `day`. -/
def prevCloseFor (ledger : ExecLedger) (id : InstrumentId) (day : ℕ) : Option Decimal :=
  (List.range' 1 40).findSome? fun back ↦
    if day < back then none
    else (ledger.closeByDay.lookup (id, day - back)).filter fun px ↦ decide (px > 0)

/-- Round half to even to two decimal places. -/
def roundCents (d : Decimal) : Decimal := mantissa d 2 * ulp 2

/-- The limit band an A-share order breaks, if it does. -/
def priceLimitViolation (cache : Cache) (ledger : ExecLedger) (inst : Instrument) (order : Order)
    (now : UnixNanos) : Option Reason × ExecLedger :=
  if isAshareEquity inst then
    let ledger' := observeMark cache ledger order.instrumentId now
    let reason := do
      let prev ← prevCloseFor ledger' order.instrumentId (dayKeyForInst inst now)
      let pct := priceLimitPct order.instrumentId.symbol
      let up := roundCents (prev * (1 + pct))
      let down := roundCents (prev * (1 - pct))
      let refPx ← match order.orderType with
        | .limit | .stopLimit => order.price.map Price.asDecimal
        | _ => (cache.mark order.instrumentId).map Price.asDecimal
      let ok : Bool := match order.side with
        | .buy => decide (refPx ≤ up)
        | .sell => decide (refPx ≥ down)
      if prev ≤ 0 ∨ ok then none else some (Reason.priceLimit refPx down up prev pct)
    (reason, ledger')
  else (none, ledger)

/-- What may be sold today: the long size less what was bought on this session day. -/
def sellableQty (ledger : ExecLedger) (portfolio : Portfolio) (id : InstrumentId) (now : UnixNanos)
    (inst : Instrument) : Decimal :=
  let long := match portfolio.position id with
    | some p => if p.side = .long then p.quantity.asDecimal else 0
    | none => 0
  let bought := (ledger.boughtToday.lookup (id, dayKeyForInst inst now)).getD 0
  max (long - bought) 0

variable [DecimalWidth]

/-! ## Submitting -/

/-- Track an order with an event applied; a failing event leaves the order as it was. -/
def track (order : Order) (ev : OrderEvent) (s : Oms) : Oms :=
  { s with cache := s.cache.addOrder (order.applied ev) }

/-- Why a submitted order is denied before the risk gate, and the ledger the check leaves. -/
def preCheck (portfolio : Portfolio) (inst : Instrument) (order : Order) (now : UnixNanos)
    (s : Oms) : Option Reason × ExecLedger :=
  if inst.expiryNs.any fun expiry ↦ now ≥ expiry then (some (.text "instrument expired"), s.ledger)
  else
    let sellable := sellableQty s.ledger portfolio order.instrumentId now inst
    if order.side = .sell ∧ isAshareEquity inst ∧ order.quantity.asDecimal > sellable then
      (some (.tPlusOne sellable order.quantity.asDecimal), s.ledger)
    else priceLimitViolation s.cache s.ledger inst order now

/-- Submit an order: run the pre-trade checks, then route it to the venue or deny it. `clockNow` is
the venue's clock. -/
def submit (risk : RiskEngine) (portfolio : Portfolio) (model : BrokerageModel)
    (clockNow : UnixNanos) (order : Order) (now : UnixNanos) (s : Oms) : List OrderEvent × Oms :=
  if (s.cache.order order.clientOrderId).isSome then ([], s)
  else match s.cache.instrument order.instrumentId with
    | none => ([], s)
    | some inst =>
      let (denial, ledger) := preCheck portfolio inst order now s
      let s := { s with ledger := ledger }
      match denial with
      | some reason => ([.denied reason now], track order (.denied reason now) s)
      | none =>
        match risk.check order portfolio inst with
        | .approved =>
          let s' := track order (.submitted now) s
          ([.submitted now], { s' with
            sim := SimulatedExecutionClient.onSubmit model s'.cache clockNow
              (order.applied (.submitted now)) s'.sim })
        | .denied reason =>
          let ev := OrderEvent.denied (.text reason.display) now
          ([ev], track order ev s)

/-! ## Cancelling and folding reports -/

/-- Apply an event to a cached order; the events applied are returned. -/
def applyToOrder (id : ClientOrderId) (ev : OrderEvent) (s : Oms) : List OrderEvent × Oms :=
  match s.cache.order id with
  | none => ([], s)
  | some o =>
    let (result, o') := (Order.apply ev).exec o
    (if result.isOk then [ev] else [], s.setOrder id o')

/-- Request cancellation of a resting order. -/
def cancel (model : BrokerageModel) (clockNow : UnixNanos) (id : ClientOrderId) (now : UnixNanos)
    (s : Oms) : List OrderEvent × Oms :=
  let (applied, s') := applyToOrder id (.pendingCancel now) s
  (applied, { s' with sim := SimulatedExecutionClient.onCancel model clockNow id s'.sim })

/-- The event a fill becomes: `Filled` when it covers what is left of the order. -/
def fillEvent (o : Order) (f : Fill) : OrderEvent :=
  if f.lastQty.asDecimal ≥ o.leavesQty.asDecimal then .filled f else .partiallyFilled f

omit [DecimalWidth] in
@[simp] theorem fill?_fillEvent (o : Order) (f : Fill) : (fillEvent o f).fill? = some f := by
  unfold fillEvent
  split_ifs <;> rfl

omit [DecimalWidth] in
theorem allowedFrom_fillEvent (o : Order) (f : Fill) :
    (fillEvent o f).allowedFrom = [.accepted, .partiallyFilled, .pendingUpdate] := by
  unfold fillEvent
  split_ifs <;> rfl

theorem effect_fillEvent (o : Order) (f : Fill) : o.effect (fillEvent o f) = o.fillEffect f := by
  unfold fillEvent
  split_ifs <;> rfl

/-- Record a same-day buy of an A-share. -/
def recordBuy (inst : Instrument) (f : Fill) (ledger : ExecLedger) : ExecLedger :=
  if f.side = .buy ∧ isAshareEquity inst then
    let key := (f.instrumentId, dayKeyForInst inst f.tsEvent)
    let bought := (ledger.boughtToday.lookup key).getD 0 + f.lastQty.asDecimal
    { ledger with boughtToday := ledger.boughtToday.insert key bought }
  else ledger

/-- Fold a fill the order has accepted into the position. A failing fold still writes back what it
assigned. -/
def foldPosition (f : Fill) (s : Oms) : Oms :=
  match s.cache.instrument f.instrumentId with
  | none => s
  | some inst =>
    { s with
      ledger := recordBuy inst f s.ledger
      cache := s.cache.upsertPosition ((s.positionOrFlat f.instrumentId inst).applied inst f) }

/-- The engine with the trade id of a fill marked as seen. -/
def markSeen (f : Fill) (s : Oms) : Oms :=
  { s with ledger := { s.ledger with seenTradeIds := insert f.tradeId s.ledger.seenTradeIds } }

/-- Fold a fill into its order and, if the order accepts it, into the position. The trade id counts
as seen whether the order accepts the fill or not. -/
def applyFillReport (f : Fill) (s : Oms) : List OrderEvent × Oms :=
  if f.tradeId ∈ s.ledger.seenTradeIds then ([], s)
  else
    let s := markSeen f s
    match s.cache.order f.clientOrderId with
    | none => ([], s)
    | some o =>
      let (applied, s') := applyToOrder f.clientOrderId (fillEvent o f) s
      (applied, if applied = [] then s' else foldPosition f s')

/-- Fold an execution report into the cached order and the position. -/
def applyReport (report : ExecutionReport) (now : UnixNanos) (s : Oms) : List OrderEvent × Oms :=
  match report with
  | .accepted id venueOrderId => applyToOrder id (.accepted venueOrderId now) s
  | .fill f => applyFillReport f s
  | .rejected id reason => applyToOrder id (.rejected reason now) s
  | .canceled id => applyToOrder id (.canceled now) s
  | .expired id => applyToOrder id (.expired now) s
  | .pendingUpdate id => applyToOrder id (.pendingUpdate now) s
  | .modified id quantity price => applyToOrder id (.updated quantity price now) s
  | .pendingCancel id => applyToOrder id (.pendingCancel now) s

end ExecutionEngine

end Coinext
