import Coinext.Kernel.FillConservation
import Coinext.Kernel.VenueRun
import Coinext.Sim.Trailing

/-!
# When a trailing stop arms

A strategy asks for a trailing stop by an offset, but an order has no field for it. The context
turns the offset into a trigger with the mark that it reads, and the venue takes the offset back
from the trigger with the mark that it has. If there is no mark, the context leaves the offset in
the place of the trigger, and the venue leaves the order without a trail. Nothing arms it later
(`armed_iff_seeded`): what the order rests with is decided when the venue accepts it, so a trailing
stop arms exactly when its offset survives the two conversions (`OffsetKept`).
-/

namespace Coinext

open SimulatedExecutionClient

/-! ## From the offset to the trigger and back -/

/-- The trigger that a trailing stop is submitted with, from the mark that the context reads. -/
def trailingTrigger (m : Option Price) (side : OrderSide) (offset : Price) : Price :=
  match m, side with
  | some m, .sell => match m.checkedSub offset with
    | .ok p => p
    | .error _ => offset
  | some m, .buy => match m.checkedAdd offset with
    | .ok p => p
    | .error _ => offset
  | none, _ => offset

/-- The order that a call for a trailing stop submits. -/
def trailingStopOrder (factory : OrderFactory) (iid : InstrumentId) (side : OrderSide)
    (qty : Quantity) (offset : Price) (m : Option Price) (ts : UnixNanos) : Order :=
  (factory.make (.trailingStop iid side qty (trailingTrigger m side offset) ts)).1

/-- The context can compute the stop: there is a mark, at the scale of the offset, and the stop does
not overflow. -/
def Computes (side : OrderSide) (offset : Price) (m : Option Price) : Prop :=
  ∃ mark, m = some mark ∧ (stopAt side mark offset).Fits offset.precision

/-- The offset survives, if the context reads `m` and the venue has `m'`: both read one mark. Where
the context cannot compute a stop, the offset itself may stand by chance where the stop belongs. -/
def OffsetKept (side : OrderSide) (offset : Price) (m m' : Option Price) : Prop :=
  ∃ mark, m' = some mark ∧ mark.precision = offset.precision ∧
    (m = some mark ∧ Computes side offset m ∨
      ¬ Computes side offset m ∧ offset = stopAt side mark offset)

variable {side : OrderSide} {offset : Price} {m : Option Price}

theorem trailingTrigger_of_computes {mark : Price} (h : m = some mark)
    (hfits : (stopAt side mark offset).Fits offset.precision) :
    trailingTrigger m side offset = stopAt side mark offset := by
  subst h
  cases side with
  | sell =>
    have hsub : mark.checkedSub offset = .ok (stopAt .sell mark offset) :=
      Price.checkedSub_eq_ok_iff.mpr ⟨hfits.precision, hfits.min_le, hfits.le_max, rfl⟩
    simp only [trailingTrigger, hsub]
  | buy =>
    have hadd : mark.checkedAdd offset = .ok (stopAt .buy mark offset) :=
      Price.checkedAdd_eq_ok_iff.mpr ⟨hfits.precision, hfits.min_le, hfits.le_max, rfl⟩
    simp only [trailingTrigger, hadd]

theorem trailingTrigger_of_not_computes (h : ¬ Computes side offset m) :
    trailingTrigger m side offset = offset := by
  cases m with
  | none => rfl
  | some mark =>
    cases side with
    | sell =>
      simp only [trailingTrigger]
      split
      · rename_i stop hsub
        obtain ⟨hprec, hmin, hmax, -⟩ := Price.checkedSub_eq_ok_iff.mp hsub
        exact absurd ⟨mark, rfl, hprec, hmin, hmax⟩ h
      · rfl
    | buy =>
      simp only [trailingTrigger]
      split
      · rename_i stop hadd
        obtain ⟨hprec, hmin, hmax, -⟩ := Price.checkedAdd_eq_ok_iff.mp hadd
        exact absurd ⟨mark, rfl, hprec, hmin, hmax⟩ h
      · rfl

theorem stopAt_injective (side : OrderSide) (offset : Price) :
    Function.Injective fun mark ↦ stopAt side mark offset := by
  rintro ⟨raw, prec⟩ ⟨raw', prec'⟩ h
  cases side with
  | sell =>
    simp only [stopAt, Price.mk.injEq] at h
    rw [h.2, (Int.sub_left_inj offset.raw).mp h.1]
  | buy =>
    simp only [stopAt, Price.mk.injEq] at h
    rw [h.2, (Int.add_left_inj offset.raw).mp h.1]

/-- The venue takes the offset back exactly when it survives. -/
theorem seeded_iff_offsetKept {cache : Cache} {o : Order}
    (htype : o.orderType = .trailingStopMarket) (hpos : 0 < offset.raw) (hmax : offset.raw ≤ i64Max)
    (htrigger : o.trigger = some (trailingTrigger m o.side offset)) :
    (∃ extreme, seedTrail cache o = some ⟨offset, extreme⟩) ↔
      OffsetKept o.side offset m (cache.mark o.instrumentId) := by
  have hseed (extreme : Price) : seedTrail cache o = some ⟨offset, extreme⟩ ↔
      cache.mark o.instrumentId = some extreme ∧ extreme.precision = offset.precision ∧
        trailingTrigger m o.side offset = stopAt o.side extreme offset := by
    rw [seedTrail_eq_some_iff htype, htrigger, Option.some.injEq, eq_comm (a := offset.precision)]
    constructor
    · rintro ⟨-, hmark, hstop, hprec, -⟩
      exact ⟨hmark, hprec, hstop⟩
    · rintro ⟨hmark, hprec, hstop⟩
      exact ⟨hpos, hmark, hstop, hprec, hmax⟩
  refine exists_congr fun mark ↦ (hseed mark).trans (and_congr_right fun hmark ↦
    and_congr_right fun hprec ↦ ?_)
  by_cases hcomputes : Computes o.side offset m
  · obtain ⟨read, rfl, hfits⟩ := hcomputes
    rw [trailingTrigger_of_computes rfl hfits, (stopAt_injective o.side offset).eq_iff,
      Option.some.injEq]
    constructor
    · intro heq
      exact .inl ⟨heq, read, rfl, hfits⟩
    · rintro (⟨heq, -⟩ | ⟨hnot, -⟩)
      · exact heq
      · exact absurd ⟨read, rfl, hfits⟩ hnot
  · rw [trailingTrigger_of_not_computes hcomputes]
    constructor
    · intro heq
      exact .inr ⟨hcomputes, heq⟩
    · rintro (⟨-, hyes⟩ | ⟨-, heq⟩)
      · exact absurd hyes hcomputes
      · exact heq

/-! ## The trail of an order that rests -/

/-- The order has a trail at the offset, and a move of the offset against it, from the best price
that the trail has seen, triggers it. -/
def Armed (offset : Price) (r : Resting) : Prop :=
  ∃ extreme, r.trail = some ⟨offset, extreme⟩ ∧ ∀ tape, crosses tape r
    = match r.order.side with
      | .buy => decide (tape.high ≥ stopAt r.order.side extreme offset)
      | .sell => decide (tape.low ≤ stopAt r.order.side extreme offset)

/-- A trailing stop without a trail. -/
structure Inert (r : Resting) : Prop where
  orderType : r.order.orderType = .trailingStopMarket
  waits : StopWaits r
  trail : r.trail = none

/-- A trailing stop whose trigger is at the offset from its extreme. -/
structure FollowsMarket (offset : Price) (r : Resting) : Prop where
  orderType : r.order.orderType = .trailingStopMarket
  waits : StopWaits r
  trails : ∃ extreme, r.trail = some ⟨offset, extreme⟩ ∧
    r.order.trigger = some (stopAt r.order.side extreme offset)

variable {r r' : Resting}

theorem Inert.not_armed (h : Inert r) (offset : Price) : ¬ Armed offset r := by
  rintro ⟨extreme, htrail, -⟩
  cases h.trail.symm.trans htrail

theorem FollowsMarket.armed_iff {offset' : Price} (h : FollowsMarket offset r) :
    Armed offset' r ↔ offset' = offset := by
  obtain ⟨extreme, htrail, htrigger⟩ := h.trails
  constructor
  · rintro ⟨extreme', htrail', -⟩
    cases htrail.symm.trans htrail'
    rfl
  · rintro rfl
    refine ⟨extreme, htrail, fun tape ↦ ?_⟩
    rw [crosses, htrigger]
    cases r.order.side <;> rfl

theorem ratchet_eq_some {tape : Tape} {t : TrailState} {extreme trigger : Price}
    (h : ratchet tape r t = some (extreme, trigger)) :
    trigger = stopAt r.order.side extreme t.offset := by
  unfold ratchet at h
  cases hside : r.order.side with
  | sell =>
    simp only [hside] at h
    split at h
    · rename_i stop hsub
      cases h
      exact (Price.checkedSub_eq_ok_iff.mp hsub).2.2.2
    · cases h
  | buy =>
    simp only [hside] at h
    split at h
    · rename_i stop hadd
      cases h
      exact (Price.checkedAdd_eq_ok_iff.mp hadd).2.2.2
    · cases h

section Steps

variable [DecimalWidth] {model : BrokerageModel} {inst : Instrument} {tape : Tape}
  {id : InstrumentId}

/-- **No event arms an order.** -/
theorem Inert.survivor (h : Inert r) (hr : survivor model inst tape id r = some r') : Inert r' := by
  rcases eq_of_survivor hr with ⟨-, rfl⟩ | ⟨-, remaining, queueAhead, rfl⟩
  · exact h
  · have hmarket : r.order.orderType ≠ .market := by simp [h.orderType]
    have hlimit : r.order.orderType ≠ .limit := by simp [h.orderType]
    have hverdict : verdict model inst tape r = {} := by
      have hpending := h.waits hmarket hlimit
      simp only [verdict, hpending, Bool.false_eq_true, if_false, hmarket, hlimit, ne_eq,
        not_false_eq_true, and_self, if_true]
      exact if_pos ⟨h.orderType, h.trail⟩
    refine ⟨?_, h.waits.survivor hr, ?_⟩
    · rw [hverdict]
      exact h.orderType
    · rw [hverdict]
      exact h.trail

theorem FollowsMarket.survivor (h : FollowsMarket offset r)
    (hr : survivor model inst tape id r = some r') : FollowsMarket offset r' := by
  rcases eq_of_survivor hr with ⟨-, rfl⟩ | ⟨-, remaining, queueAhead, rfl⟩
  · exact h
  · obtain ⟨extreme, htrail, htrigger⟩ := h.trails
    have hstop : IsMarketStop r :=
      .inr ⟨h.orderType, by rw [htrail]; exact Option.some_ne_none _⟩
    have hverdict : verdict model inst tape r = stopVerdict model inst tape r :=
      verdict_of_isMarketStop hstop h.waits
    refine ⟨?_, h.waits.survivor hr, ?_⟩
    · have htype := (hstop.survivor h.waits hr).type
      rcases htype with htype | htype
      · exfalso
        -- An event only turns stop-limit orders into limit orders.
        simp only [applyVerdict] at htype
        split_ifs at htype
        · cases htype.symm.trans h.orderType
      · exact htype
    · rw [hverdict]
      cases hcross : crosses tape r with
      | true =>
        obtain ⟨refPx, heq⟩ := stopVerdict_of_crosses model inst hstop hcross
        rw [heq]
        exact ⟨extreme, htrail, htrigger⟩
      | false =>
        have hsome : r.order.trigger ≠ none := by
          rw [htrigger]
          exact Option.some_ne_none _
        rw [stopVerdict_of_not_crosses model inst hstop hcross, if_pos ⟨h.orderType, hsome⟩,
          htrail, Option.bind_some]
        cases hratchet : ratchet tape r ⟨offset, extreme⟩ with
        | none => exact ⟨extreme, htrail, htrigger⟩
        | some moved =>
          obtain ⟨extreme', trigger'⟩ := moved
          refine ⟨extreme', ?_, ?_⟩
          · simp only [applyVerdict, htrail, Option.map_some]
          · simp only [applyVerdict, Option.some.injEq]
            exact ratchet_eq_some hratchet

/-- **What an order rests with is decided when it is placed.** -/
theorem armed_iff_seeded {calls : List VenueCall} {cache : Cache} {o : Order} {n : ℕ}
    (htype : o.orderType = .trailingStopMarket)
    (hr : VenueSession.evolution model calls (placedResting cache n o) = some r)
    (offset : Price) :
    Armed offset r ↔ ∃ extreme, seedTrail cache o = some ⟨offset, extreme⟩ := by
  have htrail : (placedResting cache n o).trail = seedTrail cache o := by
    simp [placedResting, marketable, htype]
  cases hseed : seedTrail cache o with
  | none =>
    have hinert : Inert r := VenueSession.of_evolution hr
      ⟨htype, stopWaits_placedResting _ _ _, htrail.trans hseed⟩
      fun _ _ _ _ _ h hr' ↦ Inert.survivor h hr'
    simp [hinert.not_armed]
  | some t =>
    obtain ⟨-, -, htrigger, -⟩ := (seedTrail_eq_some_iff htype).mp hseed
    have hfollows : FollowsMarket t.offset r := VenueSession.of_evolution hr
      ⟨htype, stopWaits_placedResting _ _ _, t.extreme, htrail.trans hseed, htrigger⟩
      fun _ _ _ _ _ h hr' ↦ FollowsMarket.survivor h hr'
    rw [hfollows.armed_iff]
    constructor
    · rintro rfl
      exact ⟨t.extreme, rfl⟩
    · rintro ⟨extreme, heq⟩
      cases heq
      rfl

end Steps

/-! ## Runs of the kernel -/

namespace BacktestKernel

variable {σ : Type} [DecimalWidth] {setup : Setup σ} {k : BacktestKernel σ}

theorem runProgram_submitTrailingStop {α : Type} (iid : InstrumentId) (side : OrderSide)
    (qty : Quantity) (offset : Price) (cont : ClientOrderId → Program α) :
    let o := trailingStopOrder k.factory iid side qty offset (k.core.oms.cache.mark iid)
      k.core.clock.now
    runProgram setup (Program.submitTrailingStop iid side qty offset cont) k
      = runProgram setup (cont o.clientOrderId) { k with
          factory := { k.factory with seq := k.factory.seq + 1 }
          outbox := k.outbox ++ [.submit o] } := rfl

/-- A run has submitted an order, and the checks have let it through: `c` is the core that submits
it. -/
def LetThrough (setup : Setup σ) (k : BacktestKernel σ) (o : Order) (c : Core) : Prop :=
  ∃ front risk portfolio now back, k.ops = front ++ .submit risk portfolio o now :: back ∧
    c = front.foldl (Core.step setup.config.brokerage) (initialCore setup.config) ∧
    (c.exec setup.config.brokerage (.submit risk portfolio o now)).1 = [.submitted now]

/-- The operation submits the order, and the checks let it through. -/
def submits (setup : Setup σ) (c : Core) (o : Order) (op : CoreOp) : Bool :=
  match op with
  | .submit _ _ o' now =>
    o' = o ∧ (c.exec setup.config.brokerage op).1 = [.submitted now]
  | _ => false

theorem letThrough_of_submits {n : ℕ} {o : Order} {c : Core}
    (hc : c = (k.ops.take n).foldl (Core.step setup.config.brokerage) (initialCore setup.config))
    (h : k.ops[n]?.any (submits setup c o) = true) : LetThrough setup k o c := by
  rcases hop : k.ops[n]? with _ | op
  · rw [hop] at h
    cases h
  rw [hop] at h
  obtain ⟨hn, hget⟩ := List.getElem?_eq_some_iff.mp hop
  cases op with
  | submit risk portfolio o' now =>
    obtain ⟨rfl, hexec⟩ := of_decide_eq_true h
    refine ⟨k.ops.take n, risk, portfolio, now, k.ops.drop (n + 1), ?_, hc, hexec⟩
    rw [← hget, List.getElem_cons_drop, List.take_append_drop]
  | _ => cases h

/-- What rests of an order that was let through has evolved from it. -/
theorem LetThrough.evolution {o : Order} {c : Core} {r : Resting} (h : LetThrough setup k o c)
    (hk : Replays setup k) (hr : r ∈ k.core.oms.sim.resting)
    (hid : r.venueOrderId = simVenueId (c.oms.sim.venueSeq + 1)) :
    ∃ cache o' calls, Order.SameTerms o o' ∧
      cache.mark o.instrumentId = c.oms.cache.mark o.instrumentId ∧
      VenueSession.evolution setup.config.brokerage calls
        (placedResting cache (c.oms.sim.venueSeq + 1) o') = some r := by
  obtain ⟨front, risk, portfolio, now, back, hops, hc, hexec⟩ := h
  have hsim : (VenueSession.run setup.config.brokerage (sessionCalls setup front)).sim
      = c.oms.sim := by
    rw [hc]
    exact Core.sim_venueRun rfl front
  -- The checks have passed, so the order is the next call of the venue.
  simp only [Core.exec] at hexec
  rcases ExecutionEngine.submit_cases risk portfolio setup.config.brokerage c.clock.now o now
    c.oms with heq | ⟨ev, s', heq, -, ⟨inst, hinst⟩, hcache, -, -⟩
  · rw [heq] at hexec
    cases hexec
  · rw [heq] at hexec
    obtain rfl : ev = .submitted now := List.singleton_inj.mp hexec
    have hterms := o.sameTerms_applied (.submitted now)
    have hknown : VenueSession.Known s'.cache (o.applied (.submitted now)) := by
      rw [VenueSession.Known, hcache, hterms.instrumentId]
      exact Option.isSome_iff_exists.mpr ⟨inst, hinst⟩
    have hcalls : sessionCalls setup k.ops = sessionCalls setup front ++
        .submit s'.cache c.clock.now (o.applied (.submitted now)) ::
          Core.venueRun setup.config.brokerage
            (c.step setup.config.brokerage (.submit risk portfolio o now)) back := by
      rw [sessionCalls, hops, Core.venueRun_append, ← hc, Core.venueRun, Core.venueCalls]
      simp only [heq, if_true]
      rfl
    rw [hk.sim_eq, hcalls] at hr
    have hplaced : VenueSession.placedAfter setup.config.brokerage (sessionCalls setup front)
        s'.cache (o.applied (.submitted now))
        = placedResting s'.cache (c.oms.sim.venueSeq + 1) (o.applied (.submitted now)) := by
      rw [VenueSession.placedAfter, hsim]
    have hevolution := VenueSession.evolution_placedAfter hknown hr (by rw [hplaced, hid]; rfl)
    rw [hplaced] at hevolution
    refine ⟨s'.cache, o.applied (.submitted now), _, hterms, ?_, hevolution⟩
    rw [hcache]
    rfl

end BacktestKernel

/-- **A trailing stop arms exactly when its offset survives** from the call to the venue. -/
theorem armed_iff_offsetKept {σ : Type} [DecimalWidth] (setup : Setup σ)
    (events : List MarketEvent) {k : BacktestKernel σ}
    (hk : BacktestKernel.Reached setup events k) (factory : OrderFactory) (iid : InstrumentId)
    (side : OrderSide) (qty : Quantity) {offset : Price} (m : Option Price) (ts : UnixNanos)
    (hpos : 0 < offset.raw) (hmax : offset.raw ≤ i64Max) {c : Core}
    (hlet : BacktestKernel.LetThrough setup k
      (trailingStopOrder factory iid side qty offset m ts) c)
    {r : Resting} (hr : r ∈ k.core.oms.sim.resting)
    (hid : r.venueOrderId = simVenueId (c.oms.sim.venueSeq + 1)) :
    Armed offset r ↔ OffsetKept side offset m (c.oms.cache.mark iid) := by
  obtain ⟨cache, o', calls, hterms, hmark, hevolution⟩ := hlet.evolution hk.replays hr hid
  have htype : o'.orderType = .trailingStopMarket := hterms.orderType
  have hside : o'.side = side := hterms.side
  have hinst : o'.instrumentId = iid := hterms.instrumentId
  have htrigger : o'.trigger = some (trailingTrigger m o'.side offset) := by
    rw [hterms.trigger, hside]
    rfl
  rw [armed_iff_seeded htype hevolution, seeded_iff_offsetKept htype hpos hmax htrigger, hside,
    hinst]
  exact iff_of_eq (congrArg (OffsetKept side offset m) hmark)

/-! ## Instances -/

section Instances

open scoped RustDecimal

/-- The strategy asks for a trailing stop, one below the market, as it starts or on the first
bar. -/
def trailsFrom (started : Bool) : Setup Bool where
  config := ⟨[Position.perp false], ⟨"USDT", 2, two_le_maxPrecision⟩,
    ⟨100000, ⟨"USDT", 2, two_le_maxPrecision⟩⟩,
    .unlimited, ({ latencyNs := 10 } : DefaultBrokerageModel).brokerage, 0⟩
  strategyId := ⟨"S"⟩
  strategy := ⟨fun pending cb ↦ match pending, cb with
    | true, .bar _ => .submitTrailingStop (Position.perp false).id .sell ⟨5, 0⟩ ⟨10, 1⟩ fun _ ↦
        .done false
    | false, .start => .submitTrailingStop (Position.perp false).id .sell ⟨5, 0⟩ ⟨10, 1⟩ fun _ ↦
        .done false
    | pending, _ => .done pending⟩
  initial := !started
  killed := false
  hash := .lastInserted

/-- All trading of the perpetual is at one price. -/
def flatBar (px : ℤ) (ts : UnixNanos) : MarketEvent :=
  .bar { barType := ⟨(Position.perp false).id, ⟨1, .minute, .last⟩, .external⟩, open_ := ⟨px, 1⟩,
         high := ⟨px, 1⟩, low := ⟨px, 1⟩, close := ⟨px, 1⟩, volume := ⟨100, 0⟩, tsEvent := ts,
         tsInit := ts }

def trailsEnd? (started : Bool) (events : List MarketEvent) : Option (BacktestKernel Bool) :=
  BacktestKernel.run (trailsFrom started) 9 (BacktestKernel.sortedEvents events)
    (BacktestKernel.start (trailsFrom started))

def trailsEnd (started : Bool) (events : List MarketEvent) : BacktestKernel Bool :=
  (trailsEnd? started events).getD (BacktestKernel.build (trailsFrom started))

theorem reached_trailsEnd {started : Bool} {events : List MarketEvent}
    (h : (trailsEnd? started events).isSome = true) :
    BacktestKernel.Reached (trailsFrom started) events (trailsEnd started events) := by
  obtain ⟨k, hk⟩ := Option.isSome_iff_exists.mp h
  rw [trailsEnd, hk]
  exact .finish hk

/-- The perpetual rises from a hundred to a hundred and ten. -/
def rise : List MarketEvent := [flatBar 1000 1, flatBar 1100 20]

/-- The order of the strategy, for the mark that its context reads. -/
def trailsOrder (m : Option Price) (ts : UnixNanos) : Order :=
  trailingStopOrder (OrderFactory.new ⟨"S"⟩) (Position.perp false).id .sell ⟨5, 0⟩ ⟨10, 1⟩ m ts

/-- The stop that is asked for on the first bar, after the rise. -/
def trailsRest : Resting where
  order := { (trailsOrder (some ⟨1000, 1⟩) 1).applied (.submitted 1) with
    trigger := some ⟨1090, 1⟩ }
  remaining := ⟨5, 0⟩
  queueAhead := none
  venueOrderId := simVenueId 1
  trail := some ⟨⟨10, 1⟩, ⟨1100, 1⟩⟩
  pendingOpen := false

/-- The stop is armed when a bar has come before it. -/
theorem armed_trailsRest : Armed ⟨10, 1⟩ trailsRest := by
  have hlet : BacktestKernel.LetThrough (trailsFrom false) (trailsEnd false rise)
      (trailsOrder (some ⟨1000, 1⟩) 1) _ :=
    BacktestKernel.letThrough_of_submits (n := 5) rfl (by decide)
  refine (armed_iff_offsetKept (trailsFrom false) rise (reached_trailsEnd (by decide))
    (OrderFactory.new ⟨"S"⟩) (Position.perp false).id .sell ⟨5, 0⟩ (some ⟨1000, 1⟩) 1
    (by decide) (by decide) hlet (by decide) (by decide)).mpr ?_
  exact ⟨⟨1000, 1⟩, by decide, rfl, .inl ⟨rfl, ⟨1000, 1⟩, rfl, rfl, by decide, by decide⟩⟩

/-- The stop that is asked for before the first bar, after a rise and a fall by ten times the
offset. -/
def inertRest : Resting where
  order := (trailsOrder none 0).applied (.submitted 0)
  remaining := ⟨5, 0⟩
  queueAhead := none
  venueOrderId := simVenueId 1
  trail := none
  pendingOpen := false

/-- **A stop that is asked for before the first mark never arms**, though marks come. -/
theorem not_armed_inertRest : ¬ ∀ (setup : Setup Bool) (events : List MarketEvent)
    (k : BacktestKernel Bool), BacktestKernel.Reached setup events k →
    ∀ (factory : OrderFactory) (iid : InstrumentId) (side : OrderSide) (qty : Quantity)
      (offset : Price) (m : Option Price) (ts : UnixNanos), 0 < offset.raw →
      offset.raw ≤ i64Max → ∀ c, BacktestKernel.LetThrough setup k
        (trailingStopOrder factory iid side qty offset m ts) c →
      ∀ r ∈ k.core.oms.sim.resting, r.venueOrderId = simVenueId (c.oms.sim.venueSeq + 1) →
        (k.core.oms.cache.mark iid).isSome = true → Armed offset r := by
  intro h
  have hreached : BacktestKernel.Reached (trailsFrom true) (rise ++ [flatBar 1000 40])
      (trailsEnd true (rise ++ [flatBar 1000 40])) := reached_trailsEnd (by decide)
  have hlet : BacktestKernel.LetThrough (trailsFrom true)
      (trailsEnd true (rise ++ [flatBar 1000 40])) (trailsOrder none 0) _ :=
    BacktestKernel.letThrough_of_submits (n := 0) rfl (by decide)
  obtain ⟨extreme, htrail, -⟩ := h (trailsFrom true) _ _ hreached
    (OrderFactory.new ⟨"S"⟩) (Position.perp false).id .sell ⟨5, 0⟩ ⟨10, 1⟩ none 0 (by decide)
    (by decide) _ hlet inertRest (by decide) (by decide) (by decide)
  cases htrail

end Instances

end Coinext
