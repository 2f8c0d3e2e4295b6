import Coinext.Model.Types

/-!
# The event-sourced order

An order is the fold of its event log. `Order.apply` is the only way to change one: it checks the
transition table, assigns the fields the event touches, and appends the event to the log. It is
written in the order of the source's assignments, so that what a failing call leaves behind is what
the program leaves behind.

The rest of the development does not look at the program again. `apply_exec` says what a call does
in terms of two pure functions of the order: `OrderEvent.allowedFrom`, the row of the transition
table, and `Order.effect`, the assignments.
-/

namespace Coinext

/-- Execution flags carried on an order. -/
structure OrderFlags where
  postOnly : Bool := false
  reduceOnly : Bool := false
  displayQty : Option Quantity := none
deriving DecidableEq

/-- The text of a denial or a rejection. The two texts that print decimals keep the decimals. -/
inductive Reason where
  | text (s : String)
  /-- `TPlusOne: sellable {sellable} < {quantity}` -/
  | tPlusOne (sellable quantity : Decimal)
  /-- `PriceLimit: px {px} outside [{down}, {up}] (prev_close={prev}, pct={pct})` -/
  | priceLimit (px down up prev pct : Decimal)
deriving DecidableEq

/-- The immutable events whose fold defines an order's state. -/
inductive OrderEvent where
  | initialized (clientOrderId : ClientOrderId) (instrumentId : InstrumentId) (side : OrderSide)
      (orderType : OrderType) (quantity : Quantity) (price trigger : Option Price)
      (tif : TimeInForce) (flags : OrderFlags) (ts : UnixNanos)
  | submitted (ts : UnixNanos)
  | accepted (venueOrderId : VenueOrderId) (ts : UnixNanos)
  | pendingUpdate (ts : UnixNanos)
  | updated (quantity : Option Quantity) (price : Option Price) (ts : UnixNanos)
  | pendingCancel (ts : UnixNanos)
  | partiallyFilled (fill : Fill)
  | filled (fill : Fill)
  | denied (reason : Reason) (ts : UnixNanos)
  | rejected (reason : Reason) (ts : UnixNanos)
  | canceled (ts : UnixNanos)
  | expired (ts : UnixNanos)
deriving DecidableEq

/-- The fill an event carries. -/
def OrderEvent.fill? : OrderEvent → Option Fill
  | .partiallyFilled f | .filled f => some f
  | _ => none

/-- The quantity an event amends an order to. -/
def OrderEvent.amendedQty? : OrderEvent → Option Quantity
  | .updated quantity _ _ => quantity
  | _ => none

/-- An order aggregate. -/
structure Order where
  strategyId : StrategyId
  clientOrderId : ClientOrderId
  venueOrderId : Option VenueOrderId
  instrumentId : InstrumentId
  side : OrderSide
  orderType : OrderType
  quantity : Quantity
  price : Option Price
  trigger : Option Price
  tif : TimeInForce
  flags : OrderFlags
  status : OrderStatus
  filledQty : Quantity
  avgPx : Option Price
  tsInit : UnixNanos
  tsLast : UnixNanos
  events : List OrderEvent
deriving DecidableEq

namespace Order

/-- A fresh order in `Initialized` status, recording the `Initialized` event. -/
def new (strategyId : StrategyId) (clientOrderId : ClientOrderId) (instrumentId : InstrumentId)
    (side : OrderSide) (orderType : OrderType) (quantity : Quantity) (price trigger : Option Price)
    (tif : TimeInForce) (flags : OrderFlags) (ts : UnixNanos) : Order where
  strategyId := strategyId
  clientOrderId := clientOrderId
  venueOrderId := none
  instrumentId := instrumentId
  side := side
  orderType := orderType
  quantity := quantity
  price := price
  trigger := trigger
  tif := tif
  flags := flags
  status := .initialized
  filledQty := Quantity.zero quantity.precision
  avgPx := none
  tsInit := ts
  tsLast := ts
  events := [.initialized clientOrderId instrumentId side orderType quantity price trigger tif
    flags ts]

/-- Whether an order is as `Order.new` makes it from its own terms. -/
def IsNew (o : Order) : Prop :=
  o = Order.new o.strategyId o.clientOrderId o.instrumentId o.side o.orderType o.quantity o.price
    o.trigger o.tif o.flags o.tsInit

instance (o : Order) : Decidable o.IsNew := inferInstanceAs (Decidable (_ = _))

theorem isNew_new {strategyId : StrategyId} {clientOrderId : ClientOrderId}
    {instrumentId : InstrumentId} {side : OrderSide} {orderType : OrderType} {quantity : Quantity}
    {price trigger : Option Price} {tif : TimeInForce} {flags : OrderFlags} {ts : UnixNanos} :
    (Order.new strategyId clientOrderId instrumentId side orderType quantity price trigger tif flags
      ts).IsNew := rfl

/-- Quantity not yet filled; zero when the subtraction fails. -/
def leavesQty (o : Order) : Quantity :=
  match o.quantity.checkedSub o.filledQty with
  | .ok q => q
  | .error _ => Quantity.zero o.quantity.precision

def isTerminal (o : Order) : Bool := o.status.isTerminal

/-- The fills in the log, oldest first. -/
def fills (o : Order) : List Fill := o.events.filterMap OrderEvent.fill?

/-! ## Applying an event -/

def ensure (allowed : List OrderStatus) (ev : String) : Mutation ModelError Order Unit := do
  let o ← get
  if o.status ∈ allowed then pure ()
  else throw (.invalidTransition (ev ++ " not allowed from " ++ o.status.debug))

/-- The volume-weighted average fill price once `fill` has brought the filled quantity to
`newFilled`. -/
def fillAverage (o : Order) (fill : Fill) (newFilled : Quantity) : Decimal :=
  let prevNotional := match o.avgPx with
    | some p => p.asDecimal * o.filledQty.asDecimal
    | none => 0
  let addNotional := fill.lastPx.asDecimal * fill.lastQty.asDecimal
  let totalQty := newFilled.asDecimal
  if totalQty = 0 then fill.lastPx.asDecimal else (prevNotional + addNotional) / totalQty

/-- Accumulate a fill: the filled quantity and the average fill price. -/
def applyFill [DecimalWidth] (fill : Fill) : Mutation ModelError Order Unit := do
  let o ← get
  let newFilled ← o.filledQty.checkedAdd fill.lastQty
  let avgPx ← Price.fromDecimal (o.fillAverage fill newFilled) fill.lastPx.precision
  modify fun o ↦ { o with avgPx := some avgPx }
  modify fun o ↦ { o with filledQty := newFilled }

/-- The assignments of one fill, for an order that may take it. -/
def foldFill [DecimalWidth] (fill : Fill) : Mutation ModelError Order Unit := do
  ensure [.accepted, .partiallyFilled, .pendingUpdate] "Fill"
  applyFill fill
  modify fun o ↦
    { o with status := if o.leavesQty.isZero then .filled else .partiallyFilled }
  modify fun o ↦ { o with tsLast := fill.tsEvent }

/-- Apply an event, enforcing the transition table, then append it to the log. -/
def apply [DecimalWidth] (ev : OrderEvent) : Mutation ModelError Order Unit := do
  match ev with
  | .initialized .. =>
    throw (.invalidTransition "Initialized can only occur at construction")
  | .submitted ts => do
    ensure [.initialized] "Submitted"
    modify fun o ↦ { o with status := .submitted, tsLast := ts }
  | .accepted venueOrderId ts => do
    ensure [.submitted] "Accepted"
    modify fun o ↦
      { o with venueOrderId := some venueOrderId, status := .accepted, tsLast := ts }
  | .pendingUpdate ts => do
    ensure [.accepted, .partiallyFilled] "PendingUpdate"
    modify fun o ↦ { o with status := .pendingUpdate, tsLast := ts }
  | .updated quantity price ts => do
    ensure [.pendingUpdate] "Updated"
    modify fun o ↦ { o with quantity := quantity.getD o.quantity }
    modify fun o ↦ { o with price := price.or o.price }
    modify fun o ↦
      { o with
        status := if o.filledQty.isPositive then .partiallyFilled else .accepted
        tsLast := ts }
  | .pendingCancel ts => do
    ensure [.accepted, .partiallyFilled, .pendingUpdate] "PendingCancel"
    modify fun o ↦ { o with status := .pendingCancel, tsLast := ts }
  | .partiallyFilled fill => foldFill fill
  | .filled fill => foldFill fill
  | .denied _ ts => do
    ensure [.initialized] "Denied"
    modify fun o ↦ { o with status := .denied, tsLast := ts }
  | .rejected _ ts => do
    ensure [.submitted, .pendingUpdate] "Rejected"
    modify fun o ↦ { o with status := .rejected, tsLast := ts }
  | .canceled ts => do
    ensure [.accepted, .partiallyFilled, .pendingCancel] "Canceled"
    modify fun o ↦ { o with status := .canceled, tsLast := ts }
  | .expired ts => do
    ensure [.accepted, .partiallyFilled] "Expired"
    modify fun o ↦ { o with status := .expired, tsLast := ts }
  modify fun o ↦ { o with events := o.events ++ [ev] }

end Order

/-! ## What a call does -/

/-- The row of the transition table: the statuses from which an event is accepted. -/
def OrderEvent.allowedFrom : OrderEvent → List OrderStatus
  | .initialized .. => []
  | .submitted _ | .denied .. => [.initialized]
  | .accepted .. => [.submitted]
  | .pendingUpdate _ | .expired _ => [.accepted, .partiallyFilled]
  | .updated .. => [.pendingUpdate]
  | .pendingCancel _ | .partiallyFilled _ | .filled _ =>
    [.accepted, .partiallyFilled, .pendingUpdate]
  | .rejected .. => [.submitted, .pendingUpdate]
  | .canceled _ => [.accepted, .partiallyFilled, .pendingCancel]

namespace Order

/-- The order once a fill has been accumulated, its status excepted. -/
def withFill (o : Order) (filledQty : Quantity) (avgPx : Price) (ts : UnixNanos) : Order :=
  { o with filledQty := filledQty, avgPx := some avgPx, tsLast := ts }

/-- What an accepted fill assigns. -/
def fillEffect [DecimalWidth] (o : Order) (fill : Fill) : Except ModelError Order := do
  let newFilled ← o.filledQty.checkedAdd fill.lastQty
  let avgPx ← Price.fromDecimal (o.fillAverage fill newFilled) fill.lastPx.precision
  let o' := o.withFill newFilled avgPx fill.tsEvent
  .ok { o' with status := if o'.leavesQty.isZero then .filled else .partiallyFilled }

/-- What an accepted event assigns, the log excepted. -/
def effect [DecimalWidth] (o : Order) : OrderEvent → Except ModelError Order
  | .initialized .. => .error (.invalidTransition "Initialized can only occur at construction")
  | .submitted ts => .ok { o with status := .submitted, tsLast := ts }
  | .accepted v ts => .ok { o with venueOrderId := some v, status := .accepted, tsLast := ts }
  | .pendingUpdate ts => .ok { o with status := .pendingUpdate, tsLast := ts }
  | .updated quantity price ts => .ok
    { o with
      quantity := quantity.getD o.quantity
      price := price.or o.price
      status := if o.filledQty.isPositive then .partiallyFilled else .accepted
      tsLast := ts }
  | .pendingCancel ts => .ok { o with status := .pendingCancel, tsLast := ts }
  | .partiallyFilled fill | .filled fill => o.fillEffect fill
  | .denied _ ts => .ok { o with status := .denied, tsLast := ts }
  | .rejected _ ts => .ok { o with status := .rejected, tsLast := ts }
  | .canceled ts => .ok { o with status := .canceled, tsLast := ts }
  | .expired ts => .ok { o with status := .expired, tsLast := ts }

/-- The order with `ev` appended to its log. -/
def record (o : Order) (ev : OrderEvent) : Order := { o with events := o.events ++ [ev] }

theorem exec_ensure (o : Order) (allowed : List OrderStatus) (name : String) :
    (ensure allowed name).exec o =
      if o.status ∈ allowed then (.ok (), o)
      else (.error (.invalidTransition (name ++ " not allowed from " ++ o.status.debug)), o) := by
  unfold ensure
  simp only [Mutation.exec_bind, Mutation.exec_get]
  split_ifs <;> rfl

theorem exec_foldFill [DecimalWidth] (o : Order) (fill : Fill) (hmem : o.status ∈
    [OrderStatus.accepted, .partiallyFilled, .pendingUpdate]) :
    (foldFill fill).exec o = match o.fillEffect fill with
      | .ok o' => (.ok (), o')
      | .error e => (.error e, o) := by
  unfold foldFill applyFill fillEffect
  simp only [Mutation.exec_bind, exec_ensure, if_pos hmem, Mutation.exec_get,
    Mutation.exec_liftM]
  cases hadd : o.filledQty.checkedAdd fill.lastQty with
  | error e => rfl
  | ok newFilled =>
    cases hpx : Price.fromDecimal (o.fillAverage fill newFilled) fill.lastPx.precision with
    | error e => simp [hpx, bind, Except.bind]
    | ok avgPx =>
      simp only [hpx, bind, Except.bind]
      rfl

theorem apply_of_notMem [DecimalWidth] {o : Order} {ev : OrderEvent}
    (hmem : o.status ∉ ev.allowedFrom) : ∃ e, (apply ev).exec o = (.error e, o) := by
  cases ev with
  | initialized => exact ⟨_, rfl⟩
  | _ =>
    simp only [OrderEvent.allowedFrom] at hmem
    simp only [apply, foldFill, Mutation.exec_bind, exec_ensure, if_neg hmem, Prod.mk.injEq,
      Except.error.injEq, and_true, exists_eq']

/-- From a status of its row an event does what its effect says, and a fill whose arithmetic fails
leaves the order as it was. -/
theorem apply_of_mem [DecimalWidth] {o : Order} {ev : OrderEvent}
    (hmem : o.status ∈ ev.allowedFrom) :
    (apply ev).exec o = match o.effect ev with
      | .ok o' => (.ok (), o'.record ev)
      | .error e => (.error e, o) := by
  cases ev with
  | initialized => cases hmem
  | partiallyFilled f | filled f =>
    simp only [apply, Mutation.exec_bind, exec_foldFill o f hmem, effect]
    cases o.fillEffect f <;> rfl
  | _ =>
    simp only [OrderEvent.allowedFrom] at hmem
    simp only [apply, Mutation.exec_bind, exec_ensure, if_pos hmem]
    rfl

/-- The order accepts the event and becomes `o'`. -/
def Accepts [DecimalWidth] (o : Order) (ev : OrderEvent) (o' : Order) : Prop :=
  ∃ p, o.status ∈ ev.allowedFrom ∧ o.effect ev = .ok p ∧ o' = p.record ev

/-- **What a call does.** Either the order accepts the event, or the call fails and the order is as
it was. -/
theorem apply_exec [DecimalWidth] (o : Order) (ev : OrderEvent) :
    (∃ o', (apply ev).exec o = (.ok (), o') ∧ o.Accepts ev o') ∨
      ∃ e, (apply ev).exec o = (.error e, o) ∧ ∀ o', ¬ o.Accepts ev o' := by
  by_cases hmem : o.status ∈ ev.allowedFrom
  · cases heff : o.effect ev with
    | ok p => exact .inl ⟨_, by rw [apply_of_mem hmem, heff], p, hmem, heff, rfl⟩
    | error e =>
      refine .inr ⟨e, by rw [apply_of_mem hmem, heff], ?_⟩
      rintro o' ⟨p, -, hp, -⟩
      rw [heff] at hp
      cases hp
  · obtain ⟨e, he⟩ := apply_of_notMem hmem
    exact .inr ⟨e, he, fun o' h ↦ hmem h.choose_spec.1⟩

theorem apply_eq_ok_iff [DecimalWidth] {o o' : Order} {ev : OrderEvent} :
    (apply ev).exec o = (.ok (), o') ↔ o.Accepts ev o' := by
  rcases apply_exec o ev with ⟨p, hp, hacc⟩ | ⟨e, he, hno⟩
  · rw [hp]
    refine ⟨fun h ↦ by cases h; exact hacc, fun h ↦ ?_⟩
    obtain ⟨q, -, hq, rfl⟩ := hacc
    obtain ⟨r, -, hr, rfl⟩ := h
    rw [hq] at hr
    cases hr
    rfl
  · rw [he]
    exact ⟨fun h ↦ (by cases h), fun h ↦ absurd h (hno o')⟩

instance [DecimalWidth] (o : Order) (ev : OrderEvent) :
    Decidable (∃ o', o.Accepts ev o') :=
  decidable_of_iff (((apply ev).exec o).1.isOk = true) <| by
    rcases apply_exec o ev with ⟨o', h, hacc⟩ | ⟨e, h, hno⟩
    · simp only [h, Except.isOk, Except.toBool, true_iff]
      exact ⟨o', hacc⟩
    · simp only [h, Except.isOk, Except.toBool, Bool.false_eq_true, false_iff]
      exact fun ⟨o', hacc⟩ ↦ hno o' hacc

/-- The order as a call of `apply` leaves it, whether it succeeds or not. -/
def applied [DecimalWidth] (o : Order) (ev : OrderEvent) : Order := ((apply ev).exec o).2

theorem applied_cases [DecimalWidth] (o : Order) (ev : OrderEvent) :
    o.Accepts ev (o.applied ev) ∨ o.applied ev = o := by
  rcases apply_exec o ev with ⟨o', h, hacc⟩ | ⟨e, h, -⟩
  · left
    rwa [applied, h]
  · right
    rw [applied, h]

theorem applied_of_mem [DecimalWidth] {o p : Order} {ev : OrderEvent}
    (hmem : o.status ∈ ev.allowedFrom) (heff : o.effect ev = .ok p) :
    o.applied ev = p.record ev := by
  rw [applied, apply_of_mem hmem, heff]

theorem IsNew.status {o : Order} (h : o.IsNew) : o.status = .initialized := by
  rw [h]
  rfl

/-! ## What an accepted event keeps and what it changes -/

/-- The fields no event assigns. -/
structure SameTerms (o o' : Order) : Prop where
  strategyId : o'.strategyId = o.strategyId
  clientOrderId : o'.clientOrderId = o.clientOrderId
  instrumentId : o'.instrumentId = o.instrumentId
  side : o'.side = o.side
  orderType : o'.orderType = o.orderType
  trigger : o'.trigger = o.trigger
  tif : o'.tif = o.tif
  flags : o'.flags = o.flags
  tsInit : o'.tsInit = o.tsInit

theorem SameTerms.refl (o : Order) : SameTerms o o := ⟨rfl, rfl, rfl, rfl, rfl, rfl, rfl, rfl, rfl⟩

variable [DecimalWidth] {o o' : Order} {ev : OrderEvent} {f : Fill}

theorem fillEffect_eq_ok_iff {p : Order} :
    o.fillEffect f = .ok p ↔ ∃ newFilled avgPx, o.filledQty.checkedAdd f.lastQty = .ok newFilled ∧
      Price.fromDecimal (o.fillAverage f newFilled) f.lastPx.precision = .ok avgPx ∧
      p = { o.withFill newFilled avgPx f.tsEvent with
        status := if (o.withFill newFilled avgPx f.tsEvent).leavesQty.isZero then .filled
          else .partiallyFilled } := by
  simp only [fillEffect, Except.bind_eq_ok_iff, Except.ok.injEq, exists_and_left,
    eq_comm (a := p)]

namespace Accepts

theorem status_mem (h : o.Accepts ev o') : o.status ∈ ev.allowedFrom := h.choose_spec.1

theorem sameTerms (h : o.Accepts ev o') : SameTerms o o' := by
  obtain ⟨p, -, heff, rfl⟩ := h
  cases ev with
  | initialized => cases heff
  | partiallyFilled f | filled f =>
    obtain ⟨newFilled, avgPx, -, -, rfl⟩ := fillEffect_eq_ok_iff.mp heff
    exact ⟨rfl, rfl, rfl, rfl, rfl, rfl, rfl, rfl, rfl⟩
  | _ =>
    cases heff
    exact ⟨rfl, rfl, rfl, rfl, rfl, rfl, rfl, rfl, rfl⟩

theorem events (h : o.Accepts ev o') : o'.events = o.events ++ [ev] := by
  obtain ⟨p, -, heff, rfl⟩ := h
  cases ev with
  | initialized => cases heff
  | partiallyFilled f | filled f =>
    obtain ⟨newFilled, avgPx, -, -, rfl⟩ := fillEffect_eq_ok_iff.mp heff
    rfl
  | _ =>
    cases heff
    rfl

theorem fills (h : o.Accepts ev o') : o'.fills = o.fills ++ ev.fill?.toList := by
  rw [Order.fills, Order.fills, h.events, List.filterMap_append]
  cases hev : ev.fill? with
  | none => simp [hev]
  | some f => simp [hev]

theorem filledQty_of_fill?_eq_none (h : o.Accepts ev o') (hev : ev.fill? = none) :
    o'.filledQty = o.filledQty ∧ o'.avgPx = o.avgPx := by
  obtain ⟨p, -, heff, rfl⟩ := h
  cases ev with
  | initialized => cases heff
  | partiallyFilled f | filled f => cases hev
  | _ =>
    cases heff
    exact ⟨rfl, rfl⟩

/-- An accepted fill adds its quantity to the filled quantity, and completes the order exactly when
nothing is left. -/
theorem of_fill (h : o.Accepts ev o') (hev : ev.fill? = some f) :
    o.status ∈ [OrderStatus.accepted, .partiallyFilled, .pendingUpdate] ∧
      o.filledQty.checkedAdd f.lastQty = .ok o'.filledQty ∧ o'.quantity = o.quantity ∧
      o'.status = if o'.leavesQty.isZero then .filled else .partiallyFilled := by
  obtain ⟨p, hmem, heff, rfl⟩ := h
  cases ev with
  | partiallyFilled g | filled g =>
    cases hev
    obtain ⟨newFilled, avgPx, hadd, -, rfl⟩ := fillEffect_eq_ok_iff.mp heff
    exact ⟨hmem, hadd, rfl, rfl⟩
  | _ => cases hev

theorem fills_of_fill?_eq_none (h : o.Accepts ev o') (hev : ev.fill? = none) :
    o'.fills = o.fills := by
  rw [h.fills, hev, Option.toList_none, List.append_nil]

theorem fills_of_fill (h : o.Accepts ev o') {f : Fill} (hev : ev.fill? = some f) :
    o'.fills = o.fills ++ [f] := by
  rw [h.fills, hev, Option.toList_some]

end Accepts

theorem sameTerms_applied (o : Order) (ev : OrderEvent) : SameTerms o (o.applied ev) := by
  rcases o.applied_cases ev with hacc | hsame
  · exact hacc.sameTerms
  · rw [hsame]
    exact .refl o

theorem fills_applied (o : Order) {ev : OrderEvent} (hev : ev.fill? = none) :
    (o.applied ev).fills = o.fills := by
  rcases o.applied_cases ev with hacc | hsame
  · exact hacc.fills_of_fill?_eq_none hev
  · rw [hsame]

end Order

end Coinext
