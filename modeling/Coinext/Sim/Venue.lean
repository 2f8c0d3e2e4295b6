import Coinext.Engine.Cache
import Coinext.Engine.Ports
import Coinext.Sim.Brokerage
import Coinext.Support.DueQueue

/-!
# The simulated execution venue

Acknowledgements and fills are scheduled at `now + latency` in a delayed queue, which the kernel
drains as its clock advances. A submitted order rests in the venue until market events have filled
it or it is cancelled; a marketable one rests `pendingOpen`, and is priced by the open of the next
event.

`onMarket` follows the two phases of the source. A first pass decides for each resting order, from
what it reads before the event, whether and how it fills (`verdict`). A second pass, in the same
order, schedules the fills, decrements what remains and drops the completed orders. Since a decision
depends on its own order only, the two passes are one fold over the resting orders (`matchOne`).
-/

namespace Coinext

structure TrailState where
  offset : Price
  extreme : Price
deriving DecidableEq

structure Resting where
  order : Order
  /-- Quantity still to fill. -/
  remaining : Quantity
  /-- Volume still ahead in the queue; `none` until the order is first crossable. -/
  queueAhead : Option Quantity
  venueOrderId : VenueOrderId
  trail : Option TrailState
  /-- Submitted marketable and not yet priced by an event. -/
  pendingOpen : Bool
deriving DecidableEq

structure SimState where
  queue : DueQueue ExecutionReport
  resting : List Resting
  lastBar : Map InstrumentId (Price × Price × Quantity)
  venueSeq : ℕ
  tradeSeq : ℕ

def SimState.new : SimState := ⟨.empty, [], ∅, 0, 0⟩

/-- The fills that wait in the venue's queue. -/
def SimState.fills (s : SimState) : List Fill := s.queue.items.filterMap ExecutionReport.fill?

/-- The venue id of the `n`-th accepted order. -/
def simVenueId (n : ℕ) : VenueOrderId := ⟨"SIM-" ++ pad20 n⟩

/-- The trade id of the `n`-th fill. -/
def simTradeId (n : ℕ) : TradeId := ⟨"SIM-T-" ++ pad20 n⟩

theorem append_pad20_injective (label : String) :
    Function.Injective fun n ↦ label ++ pad20 n := by
  intro m n h
  have hlist := congrArg String.toList h
  simp only [String.toList_append] at hlist
  exact pad20_injective (String.toList_inj.mp (List.append_cancel_left hlist))

theorem simVenueId_injective : Function.Injective simVenueId := fun _ _ h ↦
  append_pad20_injective "SIM-" (congrArg VenueOrderId.text h)

theorem simTradeId_injective : Function.Injective simTradeId := fun _ _ h ↦
  append_pad20_injective "SIM-T-" (congrArg TradeId.text h)

namespace SimulatedExecutionClient

variable (model : BrokerageModel) (cache : Cache) (now : UnixNanos)

/-- The side-appropriate quote, else the mark. -/
def referencePrice (id : InstrumentId) (side : OrderSide) : Option Price :=
  match cache.quote id with
  | some q => some (match side with
    | .buy => q.ask
    | .sell => q.bid)
  | none => cache.mark id

/-! ## Submitting and cancelling -/

/-- Whether an order would take liquidity at the reference price. -/
def marketable (order : Order) : Bool :=
  match order.orderType with
  | .market => true
  | .limit =>
    match order.price, referencePrice cache order.instrumentId order.side with
    | some limit, some rp => match order.side with
      | .buy => decide (rp ≤ limit)
      | .sell => decide (rp ≥ limit)
    | _, _ => false
  | _ => false

/-- The trailing distance and water mark of a fresh trailing stop. -/
def seedTrail (order : Order) : Option TrailState :=
  if order.orderType = .trailingStopMarket then
    match cache.mark order.instrumentId, order.trigger with
    | some mark, some trigger =>
      let offset := match order.side with
        | .sell => mark.checkedSub trigger
        | .buy => trigger.checkedSub mark
      match offset with
      | .ok o => if o.raw > 0 then some ⟨o, mark⟩ else none
      | .error _ => none
    | _, _ => none
  else none

/-- Submit an order: schedule its acknowledgement and let it rest. -/
def onSubmit (order : Order) (s : SimState) : SimState :=
  match cache.instrument order.instrumentId with
  | none => s
  | some _ =>
    let venueOrderId := simVenueId (s.venueSeq + 1)
    let ackAt := saturatingAddNs now (model.latencyNs .submit)
    let take := marketable cache order
    { s with
      venueSeq := s.venueSeq + 1
      queue := s.queue.push ackAt (.accepted order.clientOrderId venueOrderId)
      resting := s.resting ++ [{
        order := order
        remaining := order.quantity
        queueAhead := none
        venueOrderId := venueOrderId
        trail := if take then none else seedTrail cache order
        pendingOpen := take }] }

/-- Cancel a resting order, scheduling a `Canceled` report. -/
def onCancel (clientOrderId : ClientOrderId) (s : SimState) : SimState :=
  if s.resting.any fun r ↦ r.order.clientOrderId = clientOrderId then
    { s with
      resting := s.resting.eraseP fun r ↦ r.order.clientOrderId = clientOrderId
      queue := s.queue.push (saturatingAddNs now (model.latencyNs .cancel))
        (.canceled clientOrderId) }
  else s

/-! ## Matching against a market event -/

/-- What a market event offers to resting orders. -/
structure Tape where
  low : Price
  high : Price
  close : Price
  open_ : Price
  /-- Only bars carry the volume that caps fills. -/
  barVolume : Option Quantity
deriving DecidableEq

/-- Deltas offer nothing. -/
def tape? : MarketEvent → Option Tape
  | .bar b => some ⟨b.low, b.high, b.close, b.open_, some b.volume⟩
  | .trade t => some ⟨t.price, t.price, t.price, t.price, none⟩
  | .quote q => some ⟨q.bid, q.ask, q.mid, q.mid, none⟩
  | .delta _ => none

structure Decision where
  fillPx : Price
  fillQty : Quantity
  /-- The queue position to write back, for a passive limit order. -/
  newQueue : Option Quantity
  liquidity : LiquiditySide
deriving DecidableEq

/-- What an event means for one resting order. -/
structure Verdict where
  clearPending : Bool := false
  /-- A triggered stop-limit order becomes a limit order. -/
  activate : Bool := false
  /-- New water mark and trigger of a trailing stop. -/
  trail : Option (Price × Price) := none
  decision : Option Decision := none
deriving DecidableEq

variable (inst : Instrument) (tape : Tape) (r : Resting)

/-- What may fill now: capped by volume on a bar, everything on a tick. -/
def cappedQty : Quantity :=
  match tape.barVolume with
  | some v => model.fillableQty r.remaining v inst
  | none => r.remaining

/-- A taker fill at the model's price for `refPx`, when any quantity may fill. -/
def takerDecision (refPx : Price) (fillQty : Quantity) (cap : Price → Price) : Option Decision :=
  if fillQty.isPositive then
    some ⟨cap (model.fillPrice r.order refPx (some (tape.low, tape.high)) inst), fillQty, none,
      .taker⟩
  else none

/-- An order submitted marketable: it takes the open, unless the open gapped past its limit. -/
def pendingVerdict : Verdict :=
  let stillMarketable : Bool := match r.order.price with
    | none => true
    | some lim => match r.order.side with
      | .buy => decide (tape.open_ ≤ lim)
      | .sell => decide (tape.open_ ≥ lim)
  let cap (px : Price) : Price := match r.order.price with
    | some lim => match r.order.side with
      | .buy => min px lim
      | .sell => max px lim
    | none => px
  { clearPending := true
    decision := if stillMarketable then
        takerDecision model inst tape r tape.open_ (cappedQty model inst tape r) cap
      else none }

/-- Ratchet a trailing stop towards the favourable extreme. -/
def ratchet (t : TrailState) : Option (Price × Price) :=
  let extreme := match r.order.side with
    | .sell => max t.extreme tape.high
    | .buy => min t.extreme tape.low
  let trigger := match r.order.side with
    | .sell => extreme.checkedSub t.offset
    | .buy => extreme.checkedAdd t.offset
  match trigger with
  | .ok nt => some (extreme, nt)
  | .error _ => none

/-- Stop orders rest until the market crosses their trigger. -/
def stopVerdict : Verdict :=
  if r.order.orderType = .trailingStopMarket ∧ r.trail = none then {}
  else match r.order.trigger with
    | none => {}
    | some trigger =>
      let triggered : Bool := match r.order.side with
        | .buy => decide (tape.high ≥ trigger)
        | .sell => decide (tape.low ≤ trigger)
      let isMarketStop : Bool :=
        r.order.orderType = .stopMarket ∨ r.order.orderType = .trailingStopMarket
      if triggered ∧ isMarketStop then
        let refPx := match r.order.side with
          | .buy => max trigger tape.low
          | .sell => min trigger tape.high
        { decision := takerDecision model inst tape r refPx (cappedQty model inst tape r) id }
      else if triggered ∧ r.order.orderType = .stopLimit then { activate := true }
      else if ¬ triggered ∧ r.order.orderType = .trailingStopMarket then
        { trail := r.trail.bind (ratchet tape r) }
      else {}

/-- The rest of a market order takes liquidity on bars, which carry a volume to cap it. -/
def aggressiveVerdict : Verdict :=
  match tape.barVolume with
  | none => {}
  | some v =>
    { decision := takerDecision model inst tape r tape.close (model.fillableQty r.remaining v inst)
        id }

/-- Quantity filled and queue left when a bar of volume `v` touches, or trades through, a limit. -/
def queueShare (through : Bool) (v : Quantity) [DecimalWidth] : Quantity × Quantity :=
  let share := model.fillableQty r.remaining v inst
  let prec := share.precision
  let queue := r.queueAhead.getD (model.initialQueueAhead v inst)
  if through then (share, Quantity.zero prec)
  else
    let paid := match Quantity.fromDecimal (min share.asDecimal queue.asDecimal) prec with
      | .ok q => q
      | .error _ => Quantity.zero prec
    let nq := match queue.checkedSub paid with
      | .ok q => q
      | .error _ => Quantity.zero prec
    let fq := match share.checkedSub paid with
      | .ok q => q
      | .error _ => Quantity.zero prec
    (fq, nq)

/-- A passive limit order fills at its price, behind the queue when the price only touches it. -/
def limitVerdict [DecimalWidth] (limit : Price) : Verdict :=
  let through : Bool := match r.order.side with
    | .buy => decide (tape.low < limit)
    | .sell => decide (tape.high > limit)
  let touch : Bool := match r.order.side with
    | .buy => decide (tape.low = limit)
    | .sell => decide (tape.high = limit)
  if through ∨ touch then
    match tape.barVolume with
    | none =>
      if r.remaining.isPositive then { decision := some ⟨limit, r.remaining, none, .maker⟩ } else {}
    | some v =>
      let (fillQty, newQueue) := queueShare model inst r through v
      { decision := some ⟨limit, fillQty, some newQueue, .maker⟩ }
  else {}

/-- The first pass over one resting order of the event's instrument. -/
def verdict [DecimalWidth] : Verdict :=
  if r.pendingOpen then pendingVerdict model inst tape r
  else if r.order.orderType ≠ .market ∧ r.order.orderType ≠ .limit then
    stopVerdict model inst tape r
  else match r.order.price with
    | none => aggressiveVerdict model inst tape r
    | some limit => limitVerdict model inst tape r limit

/-- The flags, order type and trail a verdict writes back. -/
def applyVerdict (v : Verdict) : Resting :=
  { r with
    pendingOpen := if v.clearPending then false else r.pendingOpen
    order := { r.order with
      orderType := if v.activate then .limit else r.order.orderType
      trigger := match v.trail with
        | some (_, trigger) => some trigger
        | none => r.order.trigger }
    trail := match v.trail with
      | some (extreme, _) => r.trail.map fun t ↦ { t with extreme := extreme }
      | none => r.trail }

/-- The fill a decision schedules, as the `n`-th of the venue. -/
def makeFill (n : ℕ) (d : Decision) (ts : UnixNanos) : Fill where
  tradeId := simTradeId n
  clientOrderId := r.order.clientOrderId
  venueOrderId := r.venueOrderId
  instrumentId := r.order.instrumentId
  side := r.order.side
  lastPx := d.fillPx
  lastQty := d.fillQty
  fee := model.fee r.order d.fillPx d.fillQty d.liquidity inst
  liquidity := d.liquidity
  tsEvent := ts
  tsInit := ts

/-- The resting order once a decision has been carried out. -/
def fillResting (d : Decision) : Resting :=
  { r with
    remaining := if d.fillQty.isPositive then
        match r.remaining.checkedSub d.fillQty with
        | .ok q => q
        | .error _ => Quantity.zero d.fillQty.precision
      else r.remaining
    queueAhead := d.newQueue.or r.queueAhead }

/-- Schedule the fill of a decision, when it has any quantity. -/
def schedule (d : Decision) (s : SimState) : SimState :=
  if d.fillQty.isPositive then
    let ts := saturatingAddNs now (model.latencyNs .submit)
    { s with
      tradeSeq := s.tradeSeq + 1
      queue := s.queue.push ts (.fill (makeFill model inst r (s.tradeSeq + 1) d ts)) }
  else s

/-- Both passes for one resting order; `s.resting` are the orders kept so far. -/
def matchOne [DecimalWidth] (id : InstrumentId) (s : SimState) (r : Resting) : SimState :=
  if r.order.instrumentId ≠ id then { s with resting := s.resting ++ [r] }
  else
    let v := verdict model inst tape r
    let r' := applyVerdict r v
    match v.decision with
    | none => { s with resting := s.resting ++ [r'] }
    | some d =>
      let s' := schedule model now inst r d s
      let r'' := fillResting r' d
      if r''.remaining.isZero then s' else { s' with resting := s'.resting ++ [r''] }

/-- The bar remembered for the instrument of an event. -/
def rememberBar (ev : MarketEvent) (s : SimState) : SimState :=
  match ev with
  | .bar b =>
    { s with lastBar := s.lastBar.insert b.barType.instrumentId (b.low, b.high, b.volume) }
  | _ => s

/-- Match resting orders against a market event and schedule their fills. -/
def onMarket [DecimalWidth] (ev : MarketEvent) (s : SimState) : SimState :=
  match cache.instrument ev.instrumentId, tape? ev with
  | some inst, some tape =>
    s.resting.foldl (matchOne model now inst tape ev.instrumentId)
      { rememberBar ev s with resting := [] }
  | _, _ => s

end SimulatedExecutionClient

end Coinext
