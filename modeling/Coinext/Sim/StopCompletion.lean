import Coinext.Sim.Evolution

/-!
# When a triggered stop completes

A stop order that the market crosses takes liquidity at the market, capped by the volume of the bar,
and what the cap leaves of it rests on. The venue does not remember that it was triggered: at the
next bar it asks again whether the range crosses the trigger. So a triggered stop keeps filling bar
after bar exactly as long as the bars cross its trigger again (`completes_iff`), and it stalls when
the price moves back.
-/

namespace Coinext

namespace SimulatedExecutionClient

/-- An order that takes liquidity at the market once its trigger is crossed. -/
def IsMarketStop (r : Resting) : Prop :=
  r.order.orderType = .stopMarket ∨ r.order.orderType = .trailingStopMarket ∧ r.trail ≠ none

/-- The range of the event crosses the trigger of the order. -/
def crosses (tape : Tape) (r : Resting) : Bool :=
  r.order.trigger.any fun trigger ↦ match r.order.side with
    | .buy => decide (tape.high ≥ trigger)
    | .sell => decide (tape.low ≤ trigger)

/-- A stop order waits for no open. -/
def StopWaits (r : Resting) : Prop :=
  r.order.orderType ≠ .market → r.order.orderType ≠ .limit → r.pendingOpen = false

theorem stopWaits_placedResting (cache : Cache) (n : ℕ) (o : Order) :
    StopWaits (placedResting cache n o) := by
  intro hmarket hlimit
  simp only [placedResting, marketable]
  cases htype : o.orderType with
  | market => exact absurd htype hmarket
  | limit => exact absurd htype hlimit
  | _ => rfl

variable [DecimalWidth] {model : BrokerageModel} {inst : Instrument} {tape : Tape}
  {id : InstrumentId} {r r' : Resting}

theorem StopWaits.survivor (h : StopWaits r) (hr : survivor model inst tape id r = some r') :
    StopWaits r' := by
  rcases left_of_survivor hr with ⟨-, rfl⟩ | ⟨-, hleft⟩
  · exact h
  · intro hmarket hlimit
    rw [hleft.order] at hmarket hlimit
    rw [hleft.pendingOpen]
    simp only [applyVerdict] at hmarket hlimit ⊢
    split_ifs at hmarket hlimit
    · exact absurd rfl hlimit
    · rw [h hmarket hlimit]
      split_ifs <;> rfl

/-! ## The verdict on a market stop -/

theorem verdict_of_isMarketStop (h : IsMarketStop r) (hwaits : StopWaits r) :
    verdict model inst tape r = stopVerdict model inst tape r := by
  have hmarket : r.order.orderType ≠ .market := by
    rcases h with h | h
    · simp [h]
    · simp [h.1]
  have hlimit : r.order.orderType ≠ .limit := by
    rcases h with h | h
    · simp [h]
    · simp [h.1]
  simp only [verdict, hwaits hmarket hlimit, Bool.false_eq_true, if_false, hmarket, hlimit, ne_eq,
    not_false_eq_true, and_self, if_true]

omit [DecimalWidth] in
theorem IsMarketStop.type (h : IsMarketStop r) :
    r.order.orderType = .stopMarket ∨ r.order.orderType = .trailingStopMarket :=
  h.imp (fun htype ↦ htype) And.left

omit [DecimalWidth] in
theorem IsMarketStop.armed (h : IsMarketStop r) :
    ¬ (r.order.orderType = .trailingStopMarket ∧ r.trail = none) := by
  rintro ⟨htype, htrail⟩
  rcases h with h | h
  · cases h.symm.trans htype
  · exact h.2 htrail

omit [DecimalWidth] in
/-- A market stop that is crossed takes liquidity. -/
theorem stopVerdict_of_crosses (model : BrokerageModel) (inst : Instrument) (h : IsMarketStop r)
    (hcross : crosses tape r = true) :
    ∃ refPx, stopVerdict model inst tape r =
      { decision :=
          takerDecision model inst tape r refPx (cappedQty model inst tape r) fun px ↦ px } := by
  unfold crosses at hcross
  cases htrigger : r.order.trigger with
  | none =>
    rw [htrigger] at hcross
    cases hcross
  | some trigger =>
    cases hside : r.order.side with
    | buy =>
      simp only [htrigger, hside, Option.any_some] at hcross
      simp only [stopVerdict, if_neg h.armed, htrigger, hside, hcross, h.type, decide_true,
        and_self, if_true]
      exact ⟨_, rfl⟩
    | sell =>
      simp only [htrigger, hside, Option.any_some] at hcross
      simp only [stopVerdict, if_neg h.armed, htrigger, hside, hcross, h.type, decide_true,
        and_self, if_true]
      exact ⟨_, rfl⟩

omit [DecimalWidth] in
/-- A market stop that is not crossed rests; a trailing stop ratchets. -/
theorem stopVerdict_of_not_crosses (model : BrokerageModel) (inst : Instrument)
    (h : IsMarketStop r) (hcross : crosses tape r = false) :
    stopVerdict model inst tape r
      = if r.order.orderType = .trailingStopMarket ∧ r.order.trigger ≠ none then
          { trail := r.trail.bind (ratchet tape r) } else {} := by
  unfold crosses at hcross
  cases htrigger : r.order.trigger with
  | none => simp [stopVerdict, h.armed, htrigger]
  | some trigger =>
    cases hside : r.order.side with
    | buy =>
      simp only [htrigger, hside, Option.any_some] at hcross
      simp only [stopVerdict, if_neg h.armed, htrigger, hside, hcross, Bool.false_eq_true,
        false_and, if_false, not_false_eq_true, true_and, ne_eq, reduceCtorEq, and_true]
    | sell =>
      simp only [htrigger, hside, Option.any_some] at hcross
      simp only [stopVerdict, if_neg h.armed, htrigger, hside, hcross, Bool.false_eq_true,
        false_and, if_false, not_false_eq_true, true_and, ne_eq, reduceCtorEq, and_true]

theorem IsMarketStop.survivor (h : IsMarketStop r) (hwaits : StopWaits r)
    (hr : survivor model inst tape id r = some r') : IsMarketStop r' := by
  rcases eq_of_survivor hr with ⟨-, rfl⟩ | ⟨-, remaining, queueAhead, rfl⟩
  · exact h
  · have hactivate : (verdict model inst tape r).activate = false := by
      rw [verdict_of_isMarketStop h hwaits]
      cases hcross : crosses tape r with
      | true =>
        obtain ⟨refPx, hverdict⟩ := stopVerdict_of_crosses model inst h hcross
        rw [hverdict]
      | false =>
        rw [stopVerdict_of_not_crosses model inst h hcross]
        split_ifs <;> rfl
    refine h.imp (fun htype ↦ ?_) fun ⟨htype, htrail⟩ ↦ ⟨?_, ?_⟩
    · simp only [applyVerdict, hactivate]
      exact htype
    · simp only [applyVerdict, hactivate]
      exact htype
    · simp only [applyVerdict]
      split
      · simpa using htrail
      · exact htrail

/-- What an event offers a market stop of its instrument. -/
theorem offered_of_isMarketStop (h : IsMarketStop r) (hwaits : StopWaits r)
    (hid : r.order.instrumentId = id) :
    ((offered model inst tape id r).map Decision.fillQty).toList
      = if crosses tape r then [cappedQty model inst tape r].filter Quantity.isPositive
        else [] := by
  unfold offered
  rw [if_pos hid, verdict_of_isMarketStop h hwaits]
  cases hcross : crosses tape r with
  | true =>
    obtain ⟨refPx, hverdict⟩ := stopVerdict_of_crosses model inst h hcross
    rw [hverdict]
    simp only [takerDecision, if_true, List.filter_cons, List.filter_nil]
    split_ifs with hpos
    · simp [hpos]
    · rfl
  | false =>
    rw [stopVerdict_of_not_crosses model inst h hcross]
    split_ifs <;> simp_all

end SimulatedExecutionClient

namespace VenueSession

open SimulatedExecutionClient

variable [DecimalWidth] {model : BrokerageModel}

/-! ## Completion -/

/-- An event of the session has triggered the market stop with the venue id. -/
def Triggered (model : BrokerageModel) (calls : List VenueCall) (v : VenueOrderId) : Prop :=
  ∃ front cache now ev back inst tape r, calls = front ++ .market cache now ev :: back ∧
    Offers cache ev inst tape ∧ r ∈ (run model front).sim.resting ∧ r.venueOrderId = v ∧
    r.order.instrumentId = ev.instrumentId ∧ IsMarketStop r ∧ crosses tape r = true

/-- A bar that an order of its instrument meets after it has been triggered. -/
structure MeetsBar (model : BrokerageModel) (calls front : List VenueCall) (cache : Cache)
    (now : UnixNanos) (b : Bar) (inst : Instrument) (r : Resting) : Prop where
  split : ∃ back, calls = front ++ .market cache now (.bar b) :: back
  inst : cache.instrument b.barType.instrumentId = some inst
  rests : r ∈ (run model front).sim.resting
  instrumentId : r.order.instrumentId = b.barType.instrumentId
  triggered : Triggered model front r.venueOrderId

/-- What a bar offers, as a tape. -/
def barTape (b : Bar) : Tape := ⟨b.low, b.high, b.close, b.open_, some b.volume⟩

/-- **A triggered stop completes:** every later bar fills its share of what remains. -/
def Completes (model : BrokerageModel) (calls : List VenueCall) : Prop :=
  ∀ front cache now b inst r, MeetsBar model calls front cache now b inst r →
    filledBy model (run model front) r.venueOrderId (.market cache now (.bar b))
      = [model.fillableQty r.remaining b.volume inst].filter Quantity.isPositive

/-- Every later bar with a share for a triggered stop crosses its trigger again. -/
def Recrosses (model : BrokerageModel) (calls : List VenueCall) : Prop :=
  ∀ front cache now b inst r, MeetsBar model calls front cache now b inst r →
    (model.fillableQty r.remaining b.volume inst).isPositive = true → crosses (barTape b) r = true

theorem stopWaits_of_rests (calls : List VenueCall) {r : Resting}
    (hr : r ∈ (run model calls).sim.resting) : StopWaits r := by
  have htracked : Tracked (fun _ r ↦ StopWaits r) (fun _ _ ↦ True) (run model calls) := by
    refine tracked_run (fun cache now o _ n ↦ stopWaits_placedResting cache n o) ?_
    intro cache now ev _ inst tape _ o r hwaits
    exact ⟨fun r' hr' ↦ hwaits.survivor hr', fun d _ n ts ↦ trivial⟩
  obtain ⟨o, -, hwaits⟩ := htracked.resting r hr
  exact hwaits

theorem Triggered.isMarketStop {calls : List VenueCall} {r : Resting}
    (h : Triggered model calls r.venueOrderId) (hr : r ∈ (run model calls).sim.resting) :
    IsMarketStop r := by
  obtain ⟨front, cache, now, ev, back, inst, tape, r₀, rfl, -, hr₀, hid, -, hstop, -⟩ := h
  have hevolution := evolution_of_rests hr₀ hr hid.symm
  have hboth : IsMarketStop r ∧ StopWaits r :=
    of_evolution (P := fun r ↦ IsMarketStop r ∧ StopWaits r) hevolution
      ⟨hstop, stopWaits_of_rests front hr₀⟩
      fun inst tape id r r' ⟨hstop, hwaits⟩ hr' ↦ ⟨hstop.survivor hwaits hr', hwaits.survivor hr'⟩
  exact hboth.1

/-- **When a triggered stop completes.** -/
theorem completes_iff (model : BrokerageModel) (calls : List VenueCall) :
    Completes model calls ↔ Recrosses model calls := by
  have hfilled {front : List VenueCall} {cache : Cache} {now : UnixNanos} {b : Bar}
      {inst : Instrument} {r : Resting} (h : MeetsBar model calls front cache now b inst r) :
      filledBy model (run model front) r.venueOrderId (.market cache now (.bar b))
        = if crosses (barTape b) r then
            [model.fillableQty r.remaining b.volume inst].filter Quantity.isPositive else [] := by
    have hoffers : Offers cache (.bar b) inst (barTape b) := ⟨h.inst, rfl⟩
    rw [filledBy_market h.rests hoffers now]
    exact offered_of_isMarketStop (h.triggered.isMarketStop h.rests)
      (stopWaits_of_rests front h.rests) h.instrumentId
  constructor
  · intro hcompletes front cache now b inst r h hpos
    have hall := hcompletes front cache now b inst r h
    rw [hfilled h, List.filter_cons_of_pos hpos] at hall
    by_contra hcross
    rw [if_neg hcross] at hall
    cases hall
  · intro hrecrosses front cache now b inst r h
    rw [hfilled h]
    by_cases hpos : (model.fillableQty r.remaining b.volume inst).isPositive = true
    · rw [if_pos (hrecrosses front cache now b inst r h hpos)]
    · rw [List.filter_cons_of_neg hpos]
      split_ifs <;> rfl

end VenueSession

/-! ## Instances -/

namespace VenueSession

open SimulatedExecutionClient

section Instances

open scoped RustDecimal

/-- A stop loss at 95. -/
def stopLoss : Order := perpOrder "a" .sell .stopMarket 5 none (some 950)

/-- A thin bar crosses the stop. -/
def crossed : List VenueCall :=
  [.submit listed 0 stopLoss, .market listed 1 (perpBar 940 1000 1000 1000 8)]

/-- What the thin bar leaves of it. -/
def stalledRest : Resting :=
  { placedResting listed 1 stopLoss with remaining := ⟨3, 0⟩ }

/-- A bar of the perpetual with volume in plenty, above the stop. -/
def reversal : Bar :=
  { barType := ⟨(Position.perp false).id, ⟨1, .minute, .last⟩, .external⟩, open_ := ⟨1000, 1⟩,
    high := ⟨1000, 1⟩, low := ⟨960, 1⟩, close := ⟨1000, 1⟩, volume := ⟨100, 0⟩, tsEvent := 0,
    tsInit := 0 }

theorem meetsBar_reversal : MeetsBar ({} : DefaultBrokerageModel).brokerage
    (crossed ++ [.market listed 2 (.bar reversal)]) crossed listed 2 reversal
    (Position.perp false) stalledRest := by
  have hlisted : listed.instrument (Position.perp false).id = some (Position.perp false) :=
    AList.lookup_insert _
  refine ⟨⟨[], rfl⟩, hlisted, by decide +kernel, rfl, ?_⟩
  exact ⟨[.submit listed 0 stopLoss], listed, 1, perpBar 940 1000 1000 1000 8, [],
    Position.perp false, ⟨⟨940, 1⟩, ⟨1000, 1⟩, ⟨1000, 1⟩, ⟨1000, 1⟩, some ⟨8, 0⟩⟩,
    placedResting listed 1 stopLoss, rfl, ⟨hlisted, rfl⟩, by decide, rfl, rfl, .inl rfl,
    by decide⟩

/-- **A stop stalls** when the price moves back: the bar could fill the three units left, and fills
nothing. -/
theorem not_completes_reversal : ¬ ∀ (m : DefaultBrokerageModel) (calls : List VenueCall),
    Completes m.brokerage calls := by
  intro h
  have hfilled := h {} _ crossed listed 2 reversal _ stalledRest meetsBar_reversal
  exact absurd hfilled (by decide +kernel)

end Instances

end VenueSession

end Coinext
