import Coinext.Model.Pnl
import Coinext.Sim.Matching
import Coinext.Support.DueHistory
import Coinext.Support.Run

/-!
# Sessions of the venue

A session is a sequence of calls of the venue: submits, cancels, market events and drains, each with
the cache and the time it is made at. What it leaves is the venue, the reports drained so far and
the orders placed so far.

`log` is every report the venue has scheduled, in the order of scheduling, whether it has been
drained or not. What one call appends to it is `log_step`; what an event does to the orders that
rest is `onMarket_eq`: each order of its instrument becomes its `survivor`, if it has one, and the
fills are numbered on.
-/

namespace Coinext

namespace SimulatedExecutionClient

/-- How the `n`-th accepted order rests. -/
def placedResting (cache : Cache) (n : ℕ) (order : Order) : Resting where
  order := order
  remaining := order.quantity
  queueAhead := none
  venueOrderId := simVenueId n
  trail := if marketable cache order then none else seedTrail cache order
  pendingOpen := marketable cache order

/-! ## One event, order by order -/

section Event

variable [DecimalWidth] (model : BrokerageModel) (now : UnixNanos) (inst : Instrument) (tape : Tape)
  (id : InstrumentId)

/-- The fill an event of instrument `id` offers to a resting order, when it has any quantity. -/
def offered (r : Resting) : Option Decision :=
  if r.order.instrumentId = id then
    (verdict model inst tape r).decision.filter fun d ↦ d.fillQty.isPositive
  else none

/-- What an event of instrument `id` leaves of a resting order. -/
def survivor (r : Resting) : Option Resting :=
  if r.order.instrumentId = id then
    let r' := applyVerdict r (verdict model inst tape r)
    match (verdict model inst tape r).decision with
    | none => some r'
    | some d => if (fillResting r' d).remaining.isZero then none else some (fillResting r' d)
  else some r

/-- The fills an event schedules, numbered on from `n`. -/
def eventFills : ℕ → List Resting → List Fill
  | _, [] => []
  | n, r :: rs => match offered model inst tape id r with
    | some d => makeFill model inst r (n + 1) d (saturatingAddNs now (model.latencyNs .submit))
        :: eventFills (n + 1) rs
    | none => eventFills n rs

/-- Schedule fills one after the other. -/
def pushFills (fills : List Fill) (q : DueQueue ExecutionReport) : DueQueue ExecutionReport :=
  fills.foldl (fun q f ↦ q.push (saturatingAddNs now (model.latencyNs .submit)) (.fill f)) q

variable {model now inst tape id}

theorem matchOne_eq (s : SimState) (r : Resting) :
    matchOne model now inst tape id s r = { s with
      resting := s.resting ++ (survivor model inst tape id r).toList
      tradeSeq := s.tradeSeq + (eventFills model now inst tape id s.tradeSeq [r]).length
      queue := pushFills model now (eventFills model now inst tape id s.tradeSeq [r])
        s.queue } := by
  by_cases hid : r.order.instrumentId = id
  · cases hdecision : (verdict model inst tape r).decision with
    | none => simp [matchOne, hid, hdecision, survivor, eventFills, offered, pushFills]
    | some d =>
      by_cases hpos : d.fillQty.isPositive = true
      · simp only [matchOne, hid, hdecision, survivor, eventFills, offered, pushFills, schedule,
          hpos, Option.filter_some, if_true, ne_eq, not_true, if_false, List.length_singleton,
          List.foldl_cons, List.foldl_nil]
        split_ifs <;> simp
      · simp only [matchOne, hid, hdecision, survivor, eventFills, offered, pushFills, schedule,
          hpos, Option.filter_some, if_true, ne_eq, not_true, if_false, List.length_nil,
          List.foldl_nil, Nat.add_zero, Bool.false_eq_true]
        split_ifs <;> simp
  · simp [matchOne, hid, survivor, eventFills, offered, pushFills]

theorem eventFills_cons (n : ℕ) (r : Resting) (rs : List Resting) :
    eventFills model now inst tape id n (r :: rs) = eventFills model now inst tape id n [r]
      ++ eventFills model now inst tape id
        (n + (eventFills model now inst tape id n [r]).length) rs := by
  cases hoffered : offered model inst tape id r <;> simp [eventFills, hoffered]

theorem foldl_matchOne_eq (rs : List Resting) (s : SimState) :
    rs.foldl (matchOne model now inst tape id) s = { s with
      resting := s.resting ++ rs.filterMap (survivor model inst tape id)
      tradeSeq := s.tradeSeq + (eventFills model now inst tape id s.tradeSeq rs).length
      queue := pushFills model now (eventFills model now inst tape id s.tradeSeq rs) s.queue } := by
  induction rs generalizing s with
  | nil => simp [eventFills, pushFills]
  | cons r rs ih =>
    rw [List.foldl_cons, ih, matchOne_eq, eventFills_cons s.tradeSeq r rs, List.filterMap_cons]
    simp only [pushFills, List.foldl_append, List.length_append, Nat.add_assoc]
    cases survivor model inst tape id r <;> simp

/-- **What an event does.** -/
theorem onMarket_eq {cache : Cache} {ev : MarketEvent} (hinst : cache.instrument ev.instrumentId
      = some inst) (htape : tape? ev = some tape) (s : SimState) :
    onMarket model cache now ev s = { rememberBar ev s with
      resting := s.resting.filterMap (survivor model inst tape ev.instrumentId)
      tradeSeq := s.tradeSeq
        + (eventFills model now inst tape ev.instrumentId s.tradeSeq s.resting).length
      queue := pushFills model now
        (eventFills model now inst tape ev.instrumentId s.tradeSeq s.resting) s.queue } := by
  have hseq : (rememberBar ev s).tradeSeq = s.tradeSeq := by cases ev <;> rfl
  have hqueue : (rememberBar ev s).queue = s.queue := by cases ev <;> rfl
  rw [onMarket, hinst, htape]
  simp only [foldl_matchOne_eq, hseq, hqueue, List.nil_append]

theorem onMarket_of_no_offer {cache : Cache} {ev : MarketEvent}
    (h : cache.instrument ev.instrumentId = none ∨ tape? ev = none) (s : SimState) :
    onMarket model cache now ev s = s := by
  unfold onMarket
  rcases h with h | h
  · rw [h]
  · rw [h]
    cases cache.instrument ev.instrumentId <;> rfl

/-- The terms of an order that no event changes. -/
structure SameOrder (r r' : Resting) : Prop where
  clientOrderId : r'.order.clientOrderId = r.order.clientOrderId
  instrumentId : r'.order.instrumentId = r.order.instrumentId
  side : r'.order.side = r.order.side
  quantity : r'.order.quantity = r.order.quantity
  price : r'.order.price = r.order.price
  venueOrderId : r'.venueOrderId = r.venueOrderId

omit [DecimalWidth] in
theorem SameOrder.refl (r : Resting) : SameOrder r r := ⟨rfl, rfl, rfl, rfl, rfl, rfl⟩

theorem sameOrder_of_survivor {r r' : Resting} (h : survivor model inst tape id r = some r') :
    SameOrder r r' := by
  unfold survivor at h
  split_ifs at h
  · simp only at h
    split at h
    · cases h
      exact ⟨rfl, rfl, rfl, rfl, rfl, rfl⟩
    · split_ifs at h
      cases h
      exact ⟨rfl, rfl, rfl, rfl, rfl, rfl⟩
  · cases h
    exact .refl r

end Event

end SimulatedExecutionClient

/-! ## Sessions -/

/-- A call of the venue, with the cache and the time of the clock. -/
inductive VenueCall where
  | submit (cache : Cache) (now : UnixNanos) (order : Order)
  | cancel (now : UnixNanos) (id : ClientOrderId)
  | market (cache : Cache) (now : UnixNanos) (ev : MarketEvent)
  /-- Drain the reports due at the frontier. -/
  | drain (frontier : UnixNanos)

/-- The venue, the reports drained from it, and the orders it has accepted. -/
structure VenueSession where
  sim : SimState
  drained : List (Timed ExecutionReport)
  placed : List Order

namespace VenueSession

open SimulatedExecutionClient

def start : VenueSession := ⟨.new, [], []⟩

/-- Whether the venue accepts an order: it ignores one of an unknown instrument. -/
def Known (cache : Cache) (order : Order) : Prop :=
  (cache.instrument order.instrumentId).isSome = true

instance (cache : Cache) (order : Order) : Decidable (Known cache order) :=
  inferInstanceAs (Decidable (_ = _))

/-- The times at which reports were due, with the reports: what `drainDue` pops. -/
def log (s : VenueSession) : List ExecutionReport :=
  (DueQueue.history s.drained s.sim.queue).map Timed.item

/-- The fills scheduled so far. -/
def logFills (s : VenueSession) : List Fill := s.log.filterMap ExecutionReport.fill?

variable [DecimalWidth] (model : BrokerageModel)

/-- One call. -/
def step (s : VenueSession) : VenueCall → VenueSession
  | .submit cache now order => { s with
      sim := onSubmit model cache now order s.sim
      placed := if Known cache order then s.placed ++ [order] else s.placed }
  | .cancel now id => { s with sim := onCancel model now id s.sim }
  | .market cache now ev => { s with sim := onMarket model cache now ev s.sim }
  | .drain frontier => { s with
      sim := { s.sim with queue := (s.sim.queue.drainDue frontier).2 }
      drained := s.drained ++ s.sim.queue.due frontier }

/-- The session after some calls. -/
def run (calls : List VenueCall) : VenueSession := calls.foldl (step model) start

/-! ## What one call adds -/

/-- The fills an event schedules. -/
def fillsAt (s : VenueSession) (cache : Cache) (now : UnixNanos) (ev : MarketEvent) : List Fill :=
  match cache.instrument ev.instrumentId, tape? ev with
  | some inst, some tape =>
    eventFills model now inst tape ev.instrumentId s.sim.tradeSeq s.sim.resting
  | _, _ => []

/-- The reports a call schedules. -/
def reports (s : VenueSession) : VenueCall → List ExecutionReport
  | .submit cache _ order => if Known cache order then
      [.accepted order.clientOrderId (simVenueId (s.sim.venueSeq + 1))] else []
  | .cancel _ id => if s.sim.resting.any fun r ↦ r.order.clientOrderId = id then [.canceled id]
      else []
  | .market cache now ev => (fillsAt model s cache now ev).map .fill
  | .drain _ => []

/-- The orders that rest after a call. -/
def restingAfter (s : VenueSession) : VenueCall → List Resting
  | .submit cache _ order => if Known cache order then
      s.sim.resting ++ [placedResting cache (s.sim.venueSeq + 1) order] else s.sim.resting
  | .cancel _ id => s.sim.resting.eraseP fun r ↦ r.order.clientOrderId = id
  | .market cache _ ev => match cache.instrument ev.instrumentId, tape? ev with
    | some inst, some tape => s.sim.resting.filterMap (survivor model inst tape ev.instrumentId)
    | _, _ => s.sim.resting
  | .drain _ => s.sim.resting

variable {model} {s : VenueSession}

theorem run_concat (calls : List VenueCall) (call : VenueCall) :
    run model (calls ++ [call]) = step model (run model calls) call :=
  List.foldl_append

omit [DecimalWidth] in
theorem onSubmit_of_known {cache : Cache} {order : Order} (h : Known cache order)
    (now : UnixNanos) (s : SimState) : onSubmit model cache now order s = { s with
      venueSeq := s.venueSeq + 1
      queue := s.queue.push (saturatingAddNs now (model.latencyNs .submit))
        (.accepted order.clientOrderId (simVenueId (s.venueSeq + 1)))
      resting := s.resting ++ [placedResting cache (s.venueSeq + 1) order] } := by
  obtain ⟨inst, hinst⟩ := Option.isSome_iff_exists.mp h
  simp only [onSubmit, hinst, placedResting]

omit [DecimalWidth] in
theorem onSubmit_of_not_known {cache : Cache} {order : Order} (h : ¬ Known cache order)
    (now : UnixNanos) (s : SimState) : onSubmit model cache now order s = s := by
  have hnone : cache.instrument order.instrumentId = none := by simpa [Known] using h
  simp only [onSubmit, hnone]

/-- An event of a known instrument offers something, or it changes nothing. -/
theorem offers_or_idle (model : BrokerageModel) (cache : Cache) (now : UnixNanos)
    (ev : MarketEvent) (s : VenueSession) :
    (∃ inst tape, cache.instrument ev.instrumentId = some inst ∧ tape? ev = some tape ∧
      fillsAt model s cache now ev
        = eventFills model now inst tape ev.instrumentId s.sim.tradeSeq s.sim.resting ∧
      restingAfter model s (.market cache now ev)
        = s.sim.resting.filterMap (survivor model inst tape ev.instrumentId)) ∨
    (fillsAt model s cache now ev = [] ∧
      restingAfter model s (.market cache now ev) = s.sim.resting ∧
      onMarket model cache now ev s.sim = s.sim) := by
  cases hinst : cache.instrument ev.instrumentId with
  | none =>
    refine .inr ⟨?_, ?_, onMarket_of_no_offer (.inl hinst) _⟩
    · simp only [fillsAt, hinst]
    · simp only [restingAfter, hinst]
  | some inst =>
    cases htape : tape? ev with
    | none =>
      refine .inr ⟨?_, ?_, onMarket_of_no_offer (.inr htape) _⟩
      · simp only [fillsAt, hinst, htape]
      · simp only [restingAfter, hinst, htape]
    | some tape =>
      refine .inl ⟨inst, tape, rfl, rfl, ?_, ?_⟩
      · simp only [fillsAt, hinst, htape]
      · simp only [restingAfter, hinst, htape]

theorem resting_step (s : VenueSession) (call : VenueCall) :
    (step model s call).sim.resting = restingAfter model s call := by
  cases call with
  | submit cache now order =>
    simp only [step, restingAfter]
    split_ifs with hknown
    · rw [onSubmit_of_known hknown]
    · rw [onSubmit_of_not_known hknown]
  | cancel now id =>
    simp only [step, restingAfter, onCancel]
    split_ifs with hany
    · rfl
    · rw [List.eraseP_of_forall_not]
      simpa using hany
  | market cache now ev =>
    rcases offers_or_idle model cache now ev s with
      ⟨inst, tape, hinst, htape, -, hresting⟩ | ⟨-, hresting, hidle⟩
    · rw [hresting]
      simp only [step, onMarket_eq hinst htape]
    · rw [hresting]
      simp only [step, hidle]
  | drain frontier => rfl

omit [DecimalWidth] in
theorem numbered_pushFills {popped : List (Timed ExecutionReport)} {now : UnixNanos}
    (fills : List Fill) {q : DueQueue ExecutionReport} (h : DueQueue.Numbered popped q) :
    DueQueue.Numbered popped (pushFills model now fills q) ∧
      (DueQueue.history popped (pushFills model now fills q)).map Timed.item
        = (DueQueue.history popped q).map Timed.item ++ fills.map .fill := by
  induction fills generalizing q with
  | nil => exact ⟨h, (List.append_nil _).symm⟩
  | cons f fills ih =>
    obtain ⟨hnumbered, hlog⟩ :=
      ih (h.push (saturatingAddNs now (model.latencyNs .submit)) (.fill f))
    refine ⟨hnumbered, ?_⟩
    change (DueQueue.history popped (pushFills model now fills (q.push _ _))).map Timed.item = _
    rw [hlog, h.history_push, List.map_append, List.append_assoc]
    rfl

/-- **What a call appends to the log.** -/
theorem log_step (model : BrokerageModel) (h : DueQueue.Numbered s.drained s.sim.queue)
    (call : VenueCall) :
    DueQueue.Numbered (step model s call).drained (step model s call).sim.queue ∧
      (step model s call).log = s.log ++ reports model s call := by
  cases call with
  | submit cache now order =>
    simp only [step, reports, log]
    split_ifs with hknown
    · rw [onSubmit_of_known hknown]
      refine ⟨h.push _ _, ?_⟩
      rw [h.history_push, List.map_append]
      rfl
    · rw [onSubmit_of_not_known hknown]
      exact ⟨h, (List.append_nil _).symm⟩
  | cancel now id =>
    simp only [step, reports, log, onCancel]
    split_ifs with hany
    · refine ⟨h.push _ _, ?_⟩
      rw [h.history_push, List.map_append]
      rfl
    · exact ⟨h, (List.append_nil _).symm⟩
  | market cache now ev =>
    simp only [reports]
    rcases offers_or_idle model cache now ev s with
      ⟨inst, tape, hinst, htape, hfills, -⟩ | ⟨hfills, -, hidle⟩
    · rw [hfills]
      simp only [step, log, onMarket_eq hinst htape]
      exact numbered_pushFills _ h
    · rw [hfills]
      simp only [step, hidle]
      exact ⟨h, (List.append_nil _).symm⟩
  | drain frontier =>
    simp only [step, reports, log, DueQueue.drainDue]
    refine ⟨h.rest frontier, ?_⟩
    rw [DueQueue.history_rest, List.append_nil]

/-! ## Whole sessions -/

/-- The id and the venue id of an acknowledgement. -/
def acceptance? : ExecutionReport → Option (ClientOrderId × VenueOrderId)
  | .accepted id v => some (id, v)
  | _ => none

/-- What holds of every session: acknowledgements and fills carry the ids of the venue, numbered in
the order in which they were scheduled. -/
structure Sound (s : VenueSession) : Prop where
  numbered : DueQueue.Numbered s.drained s.sim.queue
  venueSeq_eq : s.sim.venueSeq = s.placed.length
  acceptances : s.log.filterMap acceptance?
    = s.placed.mapIdx fun k o ↦ (o.clientOrderId, simVenueId (k + 1))
  tradeIds : s.logFills.map Fill.tradeId = (List.range' 1 s.sim.tradeSeq).map simTradeId

theorem tradeIds_eventFills {now : UnixNanos} {inst : Instrument} {tape : Tape} {id : InstrumentId}
    (n : ℕ) (rs : List Resting) :
    (eventFills model now inst tape id n rs).map Fill.tradeId
      = (List.range' (n + 1) (eventFills model now inst tape id n rs).length).map simTradeId := by
  induction rs generalizing n with
  | nil => rfl
  | cons r rs ih =>
    simp only [eventFills]
    split
    · rw [List.map_cons, List.length_cons, List.range'_succ, List.map_cons, ih]
      rfl
    · exact ih n

omit [DecimalWidth] in
theorem sound_start : Sound start := ⟨DueQueue.numbered_empty, rfl, rfl, rfl⟩

omit [DecimalWidth] in
/-- A call that accepts no order, and schedules some fills. -/
theorem Sound.of_fills (h : Sound s) {s' : VenueSession} (fills : List Fill)
    (hnumbered : DueQueue.Numbered s'.drained s'.sim.queue)
    (hlog : s'.log = s.log ++ fills.map .fill) (hplaced : s'.placed = s.placed)
    (hvenue : s'.sim.venueSeq = s.sim.venueSeq)
    (htrade : s'.sim.tradeSeq = s.sim.tradeSeq + fills.length)
    (hids : fills.map Fill.tradeId
      = (List.range' (s.sim.tradeSeq + 1) fills.length).map simTradeId) : Sound s' := by
  have hnone : (fills.map ExecutionReport.fill).filterMap acceptance? = [] := by
    rw [List.filterMap_map]
    exact List.filterMap_eq_nil_iff.mpr fun _ _ ↦ rfl
  refine ⟨hnumbered, ?_, ?_, ?_⟩
  · rw [hvenue, hplaced, h.venueSeq_eq]
  · rw [hlog, List.filterMap_append, hnone, List.append_nil, hplaced, h.acceptances]
  · rw [logFills, hlog, List.filterMap_append, ExecutionReport.filterMap_map_fill, List.map_append,
      hids, htrade, List.range'_append_1.symm, List.map_append, Nat.add_comm 1]
    exact congrArg (· ++ _) h.tradeIds

theorem Sound.step (h : Sound s) (call : VenueCall) : Sound (step model s call) := by
  obtain ⟨hnumbered, hlog⟩ := log_step model h.numbered call
  cases call with
  | submit cache now order =>
    by_cases hknown : Known cache order
    · have hsim : (VenueSession.step model s (.submit cache now order)).sim = _ :=
        onSubmit_of_known hknown now s.sim
      have hplaced : (VenueSession.step model s (.submit cache now order)).placed
          = s.placed ++ [order] := if_pos hknown
      simp only [reports, if_pos hknown] at hlog
      refine ⟨hnumbered, ?_, ?_, ?_⟩
      · rw [hsim, hplaced, List.length_append, ← h.venueSeq_eq]
        rfl
      · rw [hlog, List.filterMap_append, h.acceptances, hplaced, List.mapIdx_concat,
          ← h.venueSeq_eq]
        rfl
      · rw [logFills, hlog, List.filterMap_append, hsim, List.map_append]
        exact (List.append_nil _).trans h.tradeIds
    · have hsame : VenueSession.step model s (.submit cache now order) = s := by
        simp only [VenueSession.step, if_neg hknown, onSubmit_of_not_known hknown]
      rw [hsame]
      exact h
  | cancel now id =>
    simp only [reports] at hlog
    simp only [VenueSession.step, onCancel] at hnumbered hlog ⊢
    split_ifs at hnumbered hlog ⊢ with hany
    · refine ⟨hnumbered, h.venueSeq_eq, ?_, ?_⟩
      · rw [hlog, List.filterMap_append]
        exact (List.append_nil _).trans h.acceptances
      · rw [logFills, hlog, List.filterMap_append, List.map_append]
        exact (List.append_nil _).trans h.tradeIds
    · exact h
  | market cache now ev =>
    rcases offers_or_idle model cache now ev s with
      ⟨inst, tape, hinst, htape, hfills, -⟩ | ⟨-, -, hidle⟩
    · simp only [reports, hfills] at hlog
      refine h.of_fills _ hnumbered hlog rfl ?_ ?_ (tradeIds_eventFills _ _)
      · simp only [VenueSession.step, onMarket_eq hinst htape]
        cases ev <;> rfl
      · simp only [VenueSession.step, onMarket_eq hinst htape]
    · have hsame : VenueSession.step model s (.market cache now ev) = s := by
        simp only [VenueSession.step, hidle]
      rw [hsame]
      exact h
  | drain frontier =>
    exact h.of_fills [] hnumbered hlog rfl rfl rfl rfl

theorem sound_run (calls : List VenueCall) : Sound (run model calls) :=
  foldl_induction (fun _ call h ↦ h.step call) sound_start calls

/-! ## Instances -/

section Instances

/-- A venue lists one perpetual. -/
def listed : Cache := Cache.new.addInstrument (Position.perp false)

/-- An order for the perpetual, its prices in tenths. -/
def perpOrder (id : String) (side : OrderSide) (orderType : OrderType) (qty : ℕ)
    (price trigger : Option ℤ) : Order :=
  .new ⟨"S"⟩ ⟨id⟩ (Position.perp false).id side orderType ⟨qty, 0⟩ (price.map (⟨·, 1⟩))
    (trigger.map (⟨·, 1⟩)) .gtc {} 0

/-- A bar of the perpetual, its prices in tenths. -/
def perpBar (low high open_ close : ℤ) (volume : ℕ) : MarketEvent :=
  .bar { barType := ⟨(Position.perp false).id, ⟨1, .minute, .last⟩, .external⟩, open_ := ⟨open_, 1⟩,
         high := ⟨high, 1⟩, low := ⟨low, 1⟩, close := ⟨close, 1⟩, volume := ⟨volume, 0⟩,
         tsEvent := 0, tsInit := 0 }

/-- A trade of the perpetual, its price in tenths. -/
def perpTrade (px : ℤ) : MarketEvent :=
  .trade ⟨(Position.perp false).id, ⟨px, 1⟩, ⟨1, 0⟩, .buy, ⟨"T"⟩, 0, 0⟩

end Instances

end VenueSession

end Coinext
