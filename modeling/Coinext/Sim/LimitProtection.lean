import Coinext.Sim.Provenance

/-!
# A limit is kept

A limit order passes through several branches of the matching: at the open when it is submitted
marketable, as a passive limit order otherwise, and as both when the open gaps past its limit or the
volume caps the fill. A stop-limit order joins it when it is activated. `Guards` is what all these
have in common: the order on the book has the terms of the order submitted, and either it is a limit
order or it waits for its activation. Every fill of such an order is within its limit.
-/

namespace Coinext

/-- A limit order, or one that becomes a limit order. -/
def Order.IsLimitOrStopLimit (o : Order) : Prop :=
  o.orderType = .limit ∨ o.orderType = .stopLimit

theorem Order.WithinLimit.congr {o o' : Order} {px : Price} (h : o.WithinLimit px)
    (hside : o.side = o'.side) (hprice : o.price = o'.price) : o'.WithinLimit px := by
  intro limit hlimit
  rw [← hside]
  exact h limit (hprice.trans hlimit)

/-- At one precision, a price within the limit has a value within the limit. -/
theorem Order.WithinLimit.asDecimal {o : Order} {px limit : Price} (h : o.WithinLimit px)
    (hlimit : o.price = some limit) (hprec : px.precision = limit.precision) :
    match o.side with
    | .buy => px.asDecimal ≤ limit.asDecimal
    | .sell => limit.asDecimal ≤ px.asDecimal := by
  have hwithin := h limit hlimit
  cases hside : o.side with
  | buy =>
    rw [hside] at hwithin
    exact (Price.asDecimal_le_iff hprec).mpr hwithin
  | sell =>
    rw [hside] at hwithin
    exact (Price.asDecimal_le_iff hprec.symm).mpr hwithin

/-- The default model quotes prices at the precision of the instrument. -/
theorem DefaultBrokerageModel.precision_fillPrice [DecimalWidth] (m : DefaultBrokerageModel)
    (order : Order) (refPx : Price) (barRange : Option (Price × Price)) (inst : Instrument)
    (h : refPx.precision = inst.pricePrecision) :
    (m.fillPrice order refPx barRange inst).precision = inst.pricePrecision := by
  unfold fillPrice
  simp only
  split
  · rename_i p hp
    obtain ⟨-, -, -, -, rfl⟩ := Price.fromDecimal_eq_ok_iff.mp hp
    rfl
  · exact h

namespace SimulatedExecutionClient

/-- What rests of a limit or stop-limit order: a limit order with its terms, or the stop-limit order
itself. -/
structure Guards (o : Order) (r : Resting) : Prop where
  instrumentId : r.order.instrumentId = o.instrumentId
  side : r.order.side = o.side
  price : r.order.price = o.price
  kind : r.order.orderType = .limit ∨ r.order.orderType = .stopLimit ∧ r.pendingOpen = false

theorem guards_placedResting {o : Order} (h : o.IsLimitOrStopLimit) (cache : Cache) (n : ℕ) :
    Guards o (placedResting cache n o) := by
  refine ⟨rfl, rfl, rfl, h.imp id fun hstop ↦ ⟨hstop, ?_⟩⟩
  change o.orderType = .stopLimit at hstop
  simp only [placedResting, marketable, hstop]

variable [DecimalWidth] {model : BrokerageModel} {inst : Instrument} {tape : Tape}
  {id : InstrumentId} {o : Order} {r r' : Resting} {d : Decision}

omit [DecimalWidth] in
/-- A stop-limit order never fills: at most it is activated. -/
theorem stopVerdict_of_stopLimit (h : r.order.orderType = .stopLimit) :
    (stopVerdict model inst tape r).decision = none ∧
      (stopVerdict model inst tape r).clearPending = false := by
  unfold stopVerdict
  simp only [h]
  cases r.order.trigger with
  | none => simp
  | some trigger =>
    simp only [reduceCtorEq, false_and, if_false, or_self, decide_false, and_false, and_true,
      Bool.false_eq_true]
    split_ifs <;> exact ⟨rfl, rfl⟩

theorem verdict_of_stopLimit (model : BrokerageModel) (inst : Instrument) (tape : Tape)
    (h : r.order.orderType = .stopLimit) (hpending : r.pendingOpen = false) :
    (verdict model inst tape r).decision = none ∧
      (applyVerdict r (verdict model inst tape r)).pendingOpen = false ∧
      ((applyVerdict r (verdict model inst tape r)).order.orderType = .limit ∨
        (applyVerdict r (verdict model inst tape r)).order.orderType = .stopLimit) := by
  have hverdict : verdict model inst tape r = stopVerdict model inst tape r := by
    simp [verdict, h, hpending]
  obtain ⟨hdecision, hclear⟩ : (stopVerdict model inst tape r).decision = none ∧
    (stopVerdict model inst tape r).clearPending = false := stopVerdict_of_stopLimit h
  rw [hverdict]
  refine ⟨hdecision, ?_, ?_⟩
  · simp [applyVerdict, hclear, hpending]
  · simp only [applyVerdict, h]
    split_ifs
    · exact .inl rfl
    · exact .inr rfl

theorem Guards.survivor (h : Guards o r) (hr : survivor model inst tape id r = some r') :
    Guards o r' := by
  have hsame := sameOrder_of_survivor hr
  refine ⟨hsame.instrumentId.trans h.instrumentId, hsame.side.trans h.side,
    hsame.price.trans h.price, ?_⟩
  rcases left_of_survivor hr with ⟨-, rfl⟩ | ⟨-, hleft⟩
  · exact h.kind
  · rw [hleft.order, hleft.pendingOpen]
    rcases h.kind with hlimit | ⟨hstop, hpending⟩
    · rw [(applyVerdict_of_isMarketOrLimit (.inr hlimit)).1]
      exact .inl hlimit
    · obtain ⟨-, hclear, hkind⟩ := verdict_of_stopLimit model inst tape hstop hpending
      exact hkind.imp (fun hlimit ↦ hlimit) fun hstop ↦ ⟨hstop, hclear⟩

theorem Guards.priced (h : Guards o r) (hd : offered model inst tape id r = some d) :
    ∃ first, Priced model inst tape r.order first d.fillPx d.liquidity := by
  obtain ⟨-, hdecision, -⟩ := decision_of_offered hd
  rcases h.kind with hlimit | ⟨hstop, hpending⟩
  · exact ⟨_, priced_of_verdict (.inr hlimit) hdecision⟩
  · rw [(verdict_of_stopLimit model inst tape hstop hpending).1] at hdecision
    cases hdecision

omit [DecimalWidth] in
/-- At one precision, the price of a limit order is at that precision. -/
theorem Priced.precision {order : Order} {first : Bool} {px limit : Price}
    {liquidity : LiquiditySide} (h : Priced model inst tape order first px liquidity)
    (hlimit : order.price = some limit)
    (hmodel : (model.fillPrice order tape.open_ (some (tape.low, tape.high)) inst).precision
      = limit.precision) : px.precision = limit.precision := by
  cases h with
  | atOpen =>
    simp only [Order.capped, hlimit]
    cases order.side with
    | buy => rcases min_choice _ limit with heq | heq <;> rw [heq]; exact hmodel
    | sell => rcases max_choice _ limit with heq | heq <;> rw [heq]; exact hmodel
  | atLimit px' hpx =>
    rw [Option.some.inj (hpx.symm.trans hlimit)]
  | atClose hnone => cases hnone.symm.trans hlimit

end SimulatedExecutionClient

namespace VenueSession

open SimulatedExecutionClient

variable [DecimalWidth]

/-- All prices that an order meets are at the precision of its limit. -/
structure OnePrecision (model : BrokerageModel) (calls : List VenueCall) (o : Order)
    (limit : Price) : Prop where
  /-- The brokerage model keeps the precision of the instrument. -/
  model : ∀ order refPx barRange inst, refPx.precision = inst.pricePrecision →
    (model.fillPrice order refPx barRange inst).precision = inst.pricePrecision
  events : ∀ cache now ev, VenueCall.market cache now ev ∈ calls →
    ev.instrumentId = o.instrumentId → ∀ inst tape, Offers cache ev inst tape →
      inst.pricePrecision = limit.precision ∧ tape.open_.precision = limit.precision

/-- **Limit protection.** Every fill of a limit or stop-limit order is within its limit. -/
theorem withinLimit_run (model : BrokerageModel) (calls : List VenueCall) {o : Order}
    {v : VenueOrderId} (hplaced : (run model calls).PlacedAs o v) (htype : o.IsLimitOrStopLimit)
    {f : Fill} (hf : f ∈ (run model calls).logFills) (hid : f.venueOrderId = v) :
    o.WithinLimit f.lastPx ∧
      ∀ limit, o.price = some limit → OnePrecision model calls o limit →
        match o.side with
        | .buy => f.lastPx.asDecimal ≤ limit.asDecimal
        | .sell => limit.asDecimal ≤ f.lastPx.asDecimal := by
  have htracked : Tracked (fun o r ↦ o.IsLimitOrStopLimit → Guards o r)
      (fun o f ↦ o.IsLimitOrStopLimit → o.WithinLimit f.lastPx ∧ ∀ limit, o.price = some limit →
        OnePrecision model calls o limit → f.lastPx.precision = limit.precision)
      (run model calls) := by
    refine tracked_run (fun cache now o _ n htype ↦ guards_placedResting htype cache n) ?_
    intro cache now ev hev inst tape hoffers o r hguards
    refine ⟨fun r' hr' htype ↦ (hguards htype).survivor hr', fun d hd n ts htype ↦ ?_⟩
    have hguard := hguards htype
    obtain ⟨first, hpriced⟩ := hguard.priced hd
    refine ⟨hpriced.withinLimit.congr hguard.side hguard.price, fun limit hlimit hone ↦ ?_⟩
    have hinst : ev.instrumentId = o.instrumentId :=
      (decision_of_offered hd).1.symm.trans hguard.instrumentId
    obtain ⟨hprec, hopen⟩ := hone.events cache now ev hev hinst inst tape hoffers
    refine hpriced.precision (hguard.price.trans hlimit) ?_
    rw [hone.model _ _ _ _ (hopen.trans hprec.symm), hprec]
  obtain ⟨o', hplaced', hQ⟩ := htracked.fills f hf
  rw [hid] at hplaced'
  cases hplaced.eq hplaced'
  obtain ⟨hwithin, hprec⟩ := hQ htype
  exact ⟨hwithin, fun limit hlimit hone ↦ hwithin.asDecimal hlimit (hprec limit hlimit hone)⟩

end VenueSession

/-! ## Instances -/

namespace VenueSession

open SimulatedExecutionClient

section Instances

open scoped RustDecimal

/-- A marketable limit order at 105: the market opens at 110, falls through the limit on a thin
bar, and trades at 100. -/
def gapped : List VenueCall :=
  [.submit (listed.setMark (Position.perp false).id ⟨1000, 1⟩) 0
      (perpOrder "a" .buy .limit 5 (some 1050) none),
    .market listed 1 (perpBar 1090 1110 1100 1100 100),
    .market listed 2 (perpBar 1040 1110 1100 1045 12), .market listed 3 (perpTrade 1000)]

theorem onePrecision_gapped : OnePrecision ({} : DefaultBrokerageModel).brokerage gapped
    (perpOrder "a" .buy .limit 5 (some 1050) none) ⟨1050, 1⟩ := by
  refine ⟨fun order refPx barRange inst h ↦
    DefaultBrokerageModel.precision_fillPrice {} order refPx barRange inst h, ?_⟩
  intro cache now ev hev hid inst tape hoffers
  have hlisted : listed.instrument (Position.perp false).id = some (Position.perp false) :=
    AList.lookup_insert _
  have hcache : cache = listed ∧ ∃ tape, tape? ev = some tape ∧ tape.open_.precision = 1 := by
    simp only [gapped, List.mem_cons, reduceCtorEq, VenueCall.market.injEq, List.not_mem_nil,
      or_false, false_or] at hev
    rcases hev with ⟨rfl, -, rfl⟩ | ⟨rfl, -, rfl⟩ | ⟨rfl, -, rfl⟩ <;> exact ⟨rfl, _, rfl, rfl⟩
  obtain ⟨rfl, tape', htape', hopen⟩ := hcache
  obtain ⟨hinst, htape⟩ := hoffers
  have hperp : (perpOrder "a" .buy .limit 5 (some 1050) none).instrumentId
      = (Position.perp false).id := rfl
  rw [hid, hperp, hlisted] at hinst
  cases hinst
  cases htape'.symm.trans htape
  exact ⟨rfl, hopen⟩

theorem withinLimit_gapped :
    (run ({} : DefaultBrokerageModel).brokerage gapped).logFills.length = 2 ∧
      ∀ f ∈ (run ({} : DefaultBrokerageModel).brokerage gapped).logFills,
        f.lastPx.asDecimal ≤ (⟨1050, 1⟩ : Price).asDecimal := by
  refine ⟨by decide +kernel, fun f hf ↦ ?_⟩
  have hids : ∀ f ∈ (run ({} : DefaultBrokerageModel).brokerage gapped).logFills,
      f.venueOrderId = simVenueId 1 := by decide +kernel
  exact (withinLimit_run _ gapped (o := perpOrder "a" .buy .limit 5 (some 1050) none)
    ⟨0, by decide, rfl⟩ (.inl rfl) hf (hids f hf)).2 _ rfl onePrecision_gapped

end Instances

end VenueSession

end Coinext
