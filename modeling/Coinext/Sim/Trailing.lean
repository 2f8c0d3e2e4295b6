import Coinext.Sim.StopCompletion

/-!
# The ratchet of a trailing stop

A trailing stop follows the favourable extreme of the market at a fixed distance. `Trails` is the
invariant: offset, extreme and trigger belong together. An event that does not trigger the order
stretches the extreme and moves the trigger along; an event that triggers it is judged against the
trigger as it was, and moves neither. While all prices are at one precision the sums cannot
overflow: the trigger only moves from where it was set towards the extreme.
-/

namespace Coinext

/-- A price at `p` decimal places that fits its field. -/
structure Price.Fits (p : ℕ) (px : Price) : Prop where
  precision : px.precision = p
  min_le : i64Min ≤ px.raw
  le_max : px.raw ≤ i64Max

namespace SimulatedExecutionClient

/-! ## Extremes and stops -/

/-- The favourable extreme, with one more event. -/
def stretch (side : OrderSide) (extreme : Price) (tape : Tape) : Price :=
  match side with
  | .sell => max extreme tape.high
  | .buy => min extreme tape.low

/-- The favourable extreme of some events and what went before. -/
def extremeOf (side : OrderSide) (extreme : Price) (tapes : List Tape) : Price :=
  tapes.foldl (stretch side) extreme

/-- The stop at a distance from the extreme, on the side where the market would have to turn. -/
def stopAt (side : OrderSide) (extreme offset : Price) : Price :=
  match side with
  | .sell => ⟨extreme.raw - offset.raw, extreme.precision⟩
  | .buy => ⟨extreme.raw + offset.raw, extreme.precision⟩

/-- The second stop is as close to the market as the first, or closer. -/
def Tighter (side : OrderSide) (stop stop' : Price) : Prop :=
  match side with
  | .sell => stop ≤ stop'
  | .buy => stop' ≤ stop

theorem Tighter.refl (side : OrderSide) (stop : Price) : Tighter side stop stop := by
  cases side <;> exact le_rfl

theorem Tighter.trans {side : OrderSide} {a b c : Price} (hab : Tighter side a b)
    (hbc : Tighter side b c) : Tighter side a c := by
  cases side with
  | sell => exact le_trans (α := Price) hab hbc
  | buy => exact le_trans (α := Price) hbc hab

/-- The events of an instrument are at `p` decimal places. -/
structure Tape.Fits (p : ℕ) (tape : Tape) : Prop where
  low : tape.low.Fits p
  high : tape.high.Fits p

variable {p : ℕ} {side : OrderSide} {extreme offset : Price} {tape : Tape}

theorem fits_stretch (h : extreme.Fits p) (htape : tape.Fits p) :
    (stretch side extreme tape).Fits p := by
  cases side with
  | sell =>
    simp only [stretch]
    rcases max_choice extreme tape.high with heq | heq
    · rw [heq]
      exact h
    · rw [heq]
      exact htape.high
  | buy =>
    simp only [stretch]
    rcases min_choice extreme tape.low with heq | heq
    · rw [heq]
      exact h
    · rw [heq]
      exact htape.low

/-- A stretched extreme brings the stop closer, and it still fits. -/
theorem fits_stopAt_stretch (h : extreme.Fits p) (hstop : (stopAt side extreme offset).Fits p)
    (hpos : 0 < offset.raw) (htape : tape.Fits p) :
    (stopAt side (stretch side extreme tape) offset).Fits p ∧
      Tighter side (stopAt side extreme offset)
        (stopAt side (stretch side extreme tape) offset) := by
  have hstretch : (stretch side extreme tape).Fits p := fits_stretch h htape
  have hprec : extreme.precision = (stretch side extreme tape).precision :=
    h.precision.trans hstretch.precision.symm
  have hmin := hstretch.min_le
  have hmax := hstretch.le_max
  have hminStop := hstop.min_le
  have hmaxStop := hstop.le_max
  cases side with
  | sell =>
    have hle : extreme ≤ stretch .sell extreme tape := le_max_left _ _
    rw [Price.le_iff hprec] at hle
    have hstops : (stopAt .sell extreme offset).raw
        ≤ (stopAt .sell (stretch .sell extreme tape) offset).raw := Int.sub_le_sub_right hle _
    refine ⟨⟨hstretch.precision, by omega, ?_⟩, ?_⟩
    · change (stretch .sell extreme tape).raw - offset.raw ≤ i64Max
      omega
    · exact (Price.le_iff (p := stopAt .sell extreme offset)
        (o := stopAt .sell (stretch .sell extreme tape) offset) hprec).mpr hstops
  | buy =>
    have hle : stretch .buy extreme tape ≤ extreme := min_le_left _ _
    rw [Price.le_iff hprec.symm] at hle
    have hstops : (stopAt .buy (stretch .buy extreme tape) offset).raw
        ≤ (stopAt .buy extreme offset).raw := Int.add_le_add_right hle _
    refine ⟨⟨hstretch.precision, ?_, by omega⟩, ?_⟩
    · change i64Min ≤ (stretch .buy extreme tape).raw + offset.raw
      omega
    · exact (Price.le_iff (p := stopAt .buy (stretch .buy extreme tape) offset)
        (o := stopAt .buy extreme offset) hprec.symm).mpr hstops

/-- The distance between a mark and a stop, as the venue computes it. -/
theorem gap_eq_ok_iff {mark trigger offset : Price} (hpos : 0 < offset.raw) :
    (match side with
      | .sell => mark.checkedSub trigger
      | .buy => trigger.checkedSub mark) = .ok offset ↔
      trigger = stopAt side mark offset ∧ offset.precision = mark.precision ∧
        offset.raw ≤ i64Max := by
  obtain ⟨raw, prec⟩ := offset
  obtain ⟨triggerRaw, triggerPrec⟩ := trigger
  have hmin : i64Min ≤ 0 := by decide
  have hraw : 0 < raw := hpos
  cases side with
  | sell =>
    simp only [Price.checkedSub_eq_ok_iff, stopAt, Price.mk.injEq]
    refine ⟨?_, ?_⟩
    · rintro ⟨hprec, -, hmax, rfl, rfl⟩
      exact ⟨⟨by omega, hprec.symm⟩, rfl, hmax⟩
    · rintro ⟨⟨rfl, rfl⟩, rfl, hmax⟩
      exact ⟨rfl, by omega, by omega, by omega, rfl⟩
  | buy =>
    simp only [Price.checkedSub_eq_ok_iff, stopAt, Price.mk.injEq]
    refine ⟨?_, ?_⟩
    · rintro ⟨hprec, -, hmax, rfl, rfl⟩
      exact ⟨⟨by omega, hprec⟩, hprec, hmax⟩
    · rintro ⟨⟨rfl, rfl⟩, hprec, hmax⟩
      exact ⟨rfl, by omega, by omega, by omega, hprec⟩

/-- **Seeding:** the trail starts at the mark, at the distance of the trigger. -/
theorem seedTrail_eq_some_iff {cache : Cache} {o : Order} {t : TrailState}
    (htype : o.orderType = .trailingStopMarket) : seedTrail cache o = some t ↔
      0 < t.offset.raw ∧ cache.mark o.instrumentId = some t.extreme ∧
        o.trigger = some (stopAt o.side t.extreme t.offset) ∧
        t.offset.precision = t.extreme.precision ∧ t.offset.raw ≤ i64Max := by
  obtain ⟨offset, extreme⟩ := t
  unfold seedTrail
  rw [if_pos htype]
  cases hmark : cache.mark o.instrumentId with
  | none => simp
  | some mark =>
    cases htrigger : o.trigger with
    | none => simp
    | some trigger =>
      simp only [Option.some.injEq]
      refine ⟨fun h ↦ ?_, ?_⟩
      · split at h
        · rename_i offset' hgap
          split_ifs at h with hpos
          cases h
          exact ⟨hpos, rfl, (gap_eq_ok_iff hpos).mp hgap⟩
        · cases h
      · rintro ⟨hpos, rfl, hstop⟩
        have hgap := (gap_eq_ok_iff hpos).mpr hstop
        split
        · rename_i offset' hgap'
          cases hgap'.symm.trans hgap
          exact if_pos hpos
        · rename_i hgap'
          cases hgap'.symm.trans hgap

/-! ## The invariant -/

/-- Offset, extreme and trigger of a trailing stop belong together. -/
structure Trails (p : ℕ) (offset extreme : Price) (r : Resting) : Prop where
  orderType : r.order.orderType = .trailingStopMarket
  trail : r.trail = some ⟨offset, extreme⟩
  trigger : r.order.trigger = some (stopAt r.order.side extreme offset)
  positive : 0 < offset.raw
  precision : offset.precision = p
  fits : extreme.Fits p
  stop : (stopAt r.order.side extreme offset).Fits p

variable {r r' : Resting}

theorem Trails.isMarketStop (h : Trails p offset extreme r) : IsMarketStop r :=
  .inr ⟨h.orderType, by rw [h.trail]; exact Option.some_ne_none _⟩

/-- The market crosses the stop that the extreme has set. -/
theorem Trails.crosses_eq (h : Trails p offset extreme r) : crosses tape r
    = match r.order.side with
      | .buy => decide (tape.high ≥ stopAt r.order.side extreme offset)
      | .sell => decide (tape.low ≤ stopAt r.order.side extreme offset) := by
  unfold crosses
  rw [h.trigger]
  cases r.order.side <;> rfl

theorem Trails.ratchet (h : Trails p offset extreme r) (htape : tape.Fits p) :
    r.trail.bind (ratchet tape r) = some (stretch r.order.side extreme tape,
      stopAt r.order.side (stretch r.order.side extreme tape) offset) := by
  obtain ⟨hfits, -⟩ := fits_stopAt_stretch h.fits h.stop h.positive htape
  have hprec : (stretch r.order.side extreme tape).precision = offset.precision :=
    (fits_stretch h.fits htape).precision.trans h.precision.symm
  rw [h.trail, Option.bind_some]
  unfold SimulatedExecutionClient.ratchet
  cases hside : r.order.side with
  | sell =>
    rw [hside] at hfits hprec
    have hsub : (max extreme tape.high).checkedSub offset
        = .ok (stopAt .sell (stretch .sell extreme tape) offset) :=
      Price.checkedSub_eq_ok_iff.mpr ⟨hprec, hfits.min_le, hfits.le_max, rfl⟩
    simp only [hsub]
    rfl
  | buy =>
    rw [hside] at hfits hprec
    have hadd : (min extreme tape.low).checkedAdd offset
        = .ok (stopAt .buy (stretch .buy extreme tape) offset) :=
      Price.checkedAdd_eq_ok_iff.mpr ⟨hprec, hfits.min_le, hfits.le_max, rfl⟩
    simp only [hadd]
    rfl

variable [DecimalWidth] {model : BrokerageModel} {inst : Instrument} {id : InstrumentId}

/-- **One event:** a trailing stop that it does not trigger moves with the extreme. -/
theorem Trails.survivor (h : Trails p offset extreme r) (hwaits : StopWaits r)
    (htape : tape.Fits p) (hid : r.order.instrumentId = id)
    (hr : survivor model inst tape id r = some r') :
    Trails p offset (if crosses tape r then extreme else stretch r.order.side extreme tape) r' := by
  rcases eq_of_survivor hr with ⟨hother, -⟩ | ⟨-, remaining, queueAhead, rfl⟩
  · exact absurd hid hother
  · rw [verdict_of_isMarketStop h.isMarketStop hwaits]
    cases hcross : crosses tape r with
    | true =>
      obtain ⟨refPx, hverdict⟩ := stopVerdict_of_crosses model inst h.isMarketStop hcross
      rw [hverdict]
      exact ⟨h.orderType, h.trail, h.trigger, h.positive, h.precision, h.fits, h.stop⟩
    | false =>
      have htrigger : r.order.trigger ≠ none := by
        rw [h.trigger]
        exact Option.some_ne_none _
      have hverdict : stopVerdict model inst tape r
          = { trail := r.trail.bind (SimulatedExecutionClient.ratchet tape r) } := by
        rw [stopVerdict_of_not_crosses model inst h.isMarketStop hcross,
          if_pos ⟨h.orderType, htrigger⟩]
      rw [hverdict, h.ratchet htape]
      obtain ⟨hfits, -⟩ := fits_stopAt_stretch h.fits h.stop h.positive htape
      refine ⟨h.orderType, ?_, rfl, h.positive, h.precision, fits_stretch h.fits htape, hfits⟩
      simp only [applyVerdict, h.trail, Option.map_some]
      rfl

end SimulatedExecutionClient

namespace VenueSession

open SimulatedExecutionClient

variable {p : ℕ} {offset extreme : Price} {r r' : Resting}

/-! ## Many events -/

/-- What a call offers an order of the event's instrument. -/
def tapeFor (r : Resting) : VenueCall → Option Tape
  | .market cache _ ev => match cache.instrument ev.instrumentId, tape? ev with
    | some _, some tape => if r.order.instrumentId = ev.instrumentId then some tape else none
    | _, _ => none
  | _ => none

/-- The events of the instrument are at `p` decimal places. -/
def EventsFit (p : ℕ) (id : InstrumentId) (calls : List VenueCall) : Prop :=
  ∀ cache now ev, VenueCall.market cache now ev ∈ calls → ev.instrumentId = id →
    ∀ tape, tape? ev = some tape → tape.Fits p

theorem EventsFit.of_tapeFor {calls : List VenueCall} {call : VenueCall} {tape : Tape}
    (h : EventsFit p r.order.instrumentId calls) (hcall : call ∈ calls)
    (htape : tapeFor r call = some tape) : tape.Fits p := by
  cases call with
  | market cache now ev =>
    simp only [tapeFor] at htape
    split at htape
    · rename_i hsome
      split_ifs at htape with hid
      cases htape
      exact h cache now ev hcall hid.symm _ hsome
    · cases htape
  | _ => cases htape

variable [DecimalWidth] {model : BrokerageModel}

/-- The events that are offered to an order, as it evolves, and that do not trigger it. -/
def quietTapes (model : BrokerageModel) : List VenueCall → Resting → List Tape
  | [], _ => []
  | call :: calls, r => ((tapeFor r call).filter fun tape ↦ !crosses tape r).toList ++
      match evolve model r call with
      | some r' => quietTapes model calls r'
      | none => []

theorem evolve_cases {call : VenueCall} (h : evolve model r call = some r') :
    (tapeFor r call = none ∧ r' = r) ∨ ∃ inst tape, tapeFor r call = some tape ∧
      survivor model inst tape r.order.instrumentId r = some r' := by
  cases call with
  | market cache now ev =>
    cases hinst : cache.instrument ev.instrumentId with
    | none =>
      simp only [evolve, hinst] at h
      cases h
      exact .inl ⟨by simp only [tapeFor, hinst], rfl⟩
    | some inst =>
      cases htape : tape? ev with
      | none =>
        simp only [evolve, hinst, htape] at h
        cases h
        exact .inl ⟨by simp only [tapeFor, hinst, htape], rfl⟩
      | some tape =>
        simp only [evolve, hinst, htape] at h
        simp only [tapeFor, hinst, htape]
        by_cases hid : r.order.instrumentId = ev.instrumentId
        · rw [← hid] at h
          exact .inr ⟨inst, tape, if_pos hid, h⟩
        · rcases eq_of_survivor h with ⟨-, rfl⟩ | ⟨hsame, -⟩
          · exact .inl ⟨if_neg hid, rfl⟩
          · exact absurd hsame hid
  | _ =>
    cases h
    exact .inl ⟨rfl, rfl⟩

/-- **Any events:** the extreme has seen those that did not trigger the order, and the stop has only
come closer. -/
theorem trails_evolution {calls : List VenueCall} (h : Trails p offset extreme r)
    (hwaits : StopWaits r) (hfit : EventsFit p r.order.instrumentId calls)
    (hr : evolution model calls r = some r') :
    Trails p offset (extremeOf r.order.side extreme (quietTapes model calls r)) r' ∧
      r'.order.side = r.order.side ∧
      Tighter r.order.side (stopAt r.order.side extreme offset) (stopAt r.order.side
        (extremeOf r.order.side extreme (quietTapes model calls r)) offset) := by
  induction calls generalizing r extreme with
  | nil =>
    cases hr
    exact ⟨h, rfl, .refl _ _⟩
  | cons call calls ih =>
    obtain ⟨r₁, hr₁, hrest⟩ := Option.bind_eq_some_iff.mp hr
    rw [quietTapes, hr₁]
    have hlater : EventsFit p r.order.instrumentId calls :=
      fun cache now ev hev ↦ hfit cache now ev (List.mem_cons_of_mem call hev)
    rcases evolve_cases hr₁ with ⟨hnone, rfl⟩ | ⟨inst, tape, hsome, hsurvivor⟩
    · rw [hnone]
      exact ih h hwaits hlater hrest
    · have htape : tape.Fits p := hfit.of_tapeFor List.mem_cons_self hsome
      have hsame := sameOrder_of_survivor hsurvivor
      have hstep := h.survivor hwaits htape rfl hsurvivor
      obtain ⟨htrails, hside, htighter⟩ := ih hstep (hwaits.survivor hsurvivor)
        (hsame.instrumentId ▸ hlater) hrest
      rw [hsame.side] at htrails hside htighter
      cases hcross : crosses tape r with
      | true =>
        rw [hcross, if_pos rfl] at htrails htighter
        have hquiet : ((tapeFor r call).filter fun tape ↦ !crosses tape r).toList = [] := by
          simp [hsome, hcross]
        rw [hquiet, List.nil_append]
        exact ⟨htrails, hside, htighter⟩
      | false =>
        rw [hcross, if_neg Bool.false_ne_true] at htrails htighter
        have hquiet : ((tapeFor r call).filter fun tape ↦ !crosses tape r).toList = [tape] := by
          simp [hsome, hcross]
        rw [hquiet, List.singleton_append]
        obtain ⟨-, hfirst⟩ := fits_stopAt_stretch h.fits h.stop h.positive htape
        exact ⟨htrails, hside, hfirst.trans htighter⟩

/-! ## Whole sessions -/

omit [DecimalWidth] in
/-- A seeded trailing stop starts at its mark. -/
theorem trails_placedResting {cache : Cache} {o : Order} {t : TrailState}
    (htype : o.orderType = .trailingStopMarket) (hseed : seedTrail cache o = some t)
    (hmark : t.extreme.Fits p) (htrigger : ∀ trigger, o.trigger = some trigger → trigger.Fits p)
    (n : ℕ) : Trails p t.offset t.extreme (placedResting cache n o) := by
  obtain ⟨hpos, -, hstop, hprec, -⟩ := (seedTrail_eq_some_iff htype).mp hseed
  have htrail : (placedResting cache n o).trail = seedTrail cache o := by
    simp [placedResting, marketable, htype]
  exact ⟨htype, htrail.trans hseed, hstop, hpos, hprec.trans hmark.precision, hmark,
    htrigger _ hstop⟩

/-- All prices that a trailing stop meets are at one precision and fit. -/
structure OneScale (p : ℕ) (o : Order) (t : TrailState) (calls : List VenueCall) : Prop where
  mark : t.extreme.Fits p
  trigger : ∀ trigger, o.trigger = some trigger → trigger.Fits p
  events : EventsFit p o.instrumentId calls

/-- The order follows the extreme of the events that did not trigger it. -/
structure Ratchets (model : BrokerageModel) (o : Order) (t : TrailState) (tapes : List Tape)
    (s : VenueSession) (r : Resting) : Prop where
  positive : 0 < t.offset.raw
  trail : r.trail = some ⟨t.offset, extremeOf o.side t.extreme tapes⟩
  trigger : r.order.trigger = some (stopAt o.side (extremeOf o.side t.extreme tapes) t.offset)
  /-- An event is judged against the trigger that stands before it. -/
  judged : ∀ cache now ev inst tape, Offers cache ev inst tape → ev.instrumentId = o.instrumentId →
    filledBy model s r.venueOrderId (.market cache now ev)
      = if (match o.side with
          | .buy => decide (tape.high ≥ stopAt o.side (extremeOf o.side t.extreme tapes) t.offset)
          | .sell => decide (tape.low ≤ stopAt o.side (extremeOf o.side t.extreme tapes) t.offset))
        then [cappedQty model inst tape r].filter Quantity.isPositive else []

/-- The order as the venue places it after some calls. -/
def placedAfter (model : BrokerageModel) (front : List VenueCall) (cache : Cache) (o : Order) :
    Resting :=
  placedResting cache ((run model front).sim.venueSeq + 1) o

theorem placedAfter_mem {front : List VenueCall} {cache : Cache} {o : Order}
    (hknown : Known cache o) (now : UnixNanos) : placedAfter model front cache o
      ∈ (run model (front ++ [.submit cache now o])).sim.resting := by
  rw [run_concat, resting_step]
  simp only [restingAfter, if_pos hknown]
  exact List.mem_append_right _ (List.mem_singleton_self _)

/-- What still rests of an order has evolved since it was placed. -/
theorem evolution_placedAfter {front back : List VenueCall} {cache : Cache} {now : UnixNanos}
    {o : Order} (hknown : Known cache o)
    (hr : r ∈ (run model (front ++ .submit cache now o :: back)).sim.resting)
    (hid : r.venueOrderId = (placedAfter model front cache o).venueOrderId) :
    evolution model back (placedAfter model front cache o) = some r := by
  rw [List.append_cons] at hr
  exact evolution_of_rests (placedAfter_mem hknown now) hr hid

/-- A trailing stop that still rests trails, and is no farther from the market than before. -/
theorem trails_run {front back : List VenueCall} {cache : Cache} {now : UnixNanos} {o : Order}
    {t : TrailState} (hknown : Known cache o) (htype : o.orderType = .trailingStopMarket)
    (hseed : seedTrail cache o = some t) (hscale : OneScale p o t back)
    (hr : r ∈ (run model (front ++ .submit cache now o :: back)).sim.resting)
    (hid : r.venueOrderId = (placedAfter model front cache o).venueOrderId) :
    Trails p t.offset (extremeOf o.side t.extreme
        (quietTapes model back (placedAfter model front cache o))) r ∧
      r.order.side = o.side ∧ r.order.instrumentId = o.instrumentId := by
  have hevolution := evolution_placedAfter hknown hr hid
  have hplaced : Trails p t.offset t.extreme (placedAfter model front cache o) :=
    trails_placedResting htype hseed hscale.mark hscale.trigger _
  obtain ⟨htrails, hside, -⟩ := trails_evolution hplaced (stopWaits_placedResting _ _ _)
    hscale.events hevolution
  refine ⟨htrails, hside, ?_⟩
  exact of_evolution (P := fun r ↦ r.order.instrumentId = o.instrumentId) hevolution rfl
    fun _ _ _ _ _ hr hr' ↦ (sameOrder_of_survivor hr').instrumentId.trans hr

/-- **The ratchet of a trailing stop.** -/
theorem ratchets_run (model : BrokerageModel) {front back : List VenueCall} {cache : Cache}
    {now : UnixNanos} {o : Order} {t : TrailState} {p : ℕ} (hknown : Known cache o)
    (htype : o.orderType = .trailingStopMarket) (hseed : seedTrail cache o = some t)
    (hscale : OneScale p o t back) {r : Resting}
    (hr : r ∈ (run model (front ++ .submit cache now o :: back)).sim.resting)
    (hid : r.venueOrderId = (placedAfter model front cache o).venueOrderId) :
    cache.mark o.instrumentId = some t.extreme ∧
      Ratchets model o t (quietTapes model back (placedAfter model front cache o))
        (run model (front ++ .submit cache now o :: back)) r ∧
      ∀ back₁ back₂, back = back₁ ++ back₂ →
        ∀ r₁ ∈ (run model (front ++ .submit cache now o :: back₁)).sim.resting,
          r₁.venueOrderId = (placedAfter model front cache o).venueOrderId →
            ∃ stop₁ stop, r₁.order.trigger = some stop₁ ∧ r.order.trigger = some stop ∧
              Tighter o.side stop₁ stop := by
  obtain ⟨-, hmark, -⟩ := (seedTrail_eq_some_iff htype).mp hseed
  obtain ⟨htrails, hside, hinst⟩ := trails_run hknown htype hseed hscale hr hid
  refine ⟨hmark, ⟨htrails.positive, htrails.trail, ?_, ?_⟩, ?_⟩
  · rw [htrails.trigger, hside]
  · intro cache' now' ev inst tape hoffers hev
    rw [filledBy_market hr hoffers now', offered_of_isMarketStop htrails.isMarketStop
      (stopWaits_of_rests _ hr) (hinst.trans hev.symm), htrails.crosses_eq, hside]
  · rintro back₁ back₂ rfl r₁ hr₁ hid₁
    have hscale₁ : OneScale p o t back₁ := ⟨hscale.mark, hscale.trigger,
      fun cache now ev hev ↦ hscale.events cache now ev (List.mem_append_left _ hev)⟩
    obtain ⟨htrails₁, hside₁, hinst₁⟩ := trails_run hknown htype hseed hscale₁ hr₁ hid₁
    -- The later order has evolved from the earlier one.
    have hevolution : evolution model back₂ r₁ = some r := by
      refine evolution_of_rests hr₁ ?_ (hid.trans hid₁.symm)
      rw [List.append_assoc]
      exact hr
    have hfit : EventsFit p r₁.order.instrumentId back₂ := by
      rw [hinst₁]
      exact fun cache now ev hev ↦ hscale.events cache now ev (List.mem_append_right _ hev)
    obtain ⟨hlater, hside', htighter⟩ :=
      trails_evolution htrails₁ (stopWaits_of_rests _ hr₁) hfit hevolution
    refine ⟨_, _, htrails₁.trigger, hlater.trigger, ?_⟩
    rw [hside₁] at htighter
    rw [hside', hside₁]
    exact htighter

end VenueSession

/-! ## Instances -/

namespace VenueSession

open SimulatedExecutionClient

section Instances

open scoped RustDecimal

/-- The venue while the perpetual is marked at 100. -/
def markedListed : Cache := listed.setMark (Position.perp false).id ⟨1000, 1⟩

/-- A stop that trails one below the mark. -/
def trailingOrder : Order := perpOrder "a" .sell .trailingStopMarket 5 none (some 990)

/-- The market rises to 102, then a thin bar turns back through the stop at 101. -/
def climb : List VenueCall :=
  [.market listed 1 (perpBar 995 1020 1000 1015 8),
    .market listed 2 (perpBar 1012 1015 1014 1013 8),
    .market listed 3 (perpBar 1005 1015 1014 1013 8)]

/-- What rests after that: two of five have filled. -/
def climbed : Resting where
  order := { trailingOrder with trigger := some ⟨1010, 1⟩ }
  remaining := ⟨3, 0⟩
  queueAhead := none
  venueOrderId := simVenueId 1
  trail := some ⟨⟨10, 1⟩, ⟨1020, 1⟩⟩
  pendingOpen := false

theorem ratchets_climb : Ratchets ({} : DefaultBrokerageModel).brokerage trailingOrder
    ⟨⟨10, 1⟩, ⟨1000, 1⟩⟩ (quietTapes ({} : DefaultBrokerageModel).brokerage climb
      (placedAfter ({} : DefaultBrokerageModel).brokerage [] markedListed trailingOrder))
    (run ({} : DefaultBrokerageModel).brokerage (.submit markedListed 0 trailingOrder :: climb))
    climbed := by
  have hknown : Known markedListed trailingOrder := by decide
  have hseed : seedTrail markedListed trailingOrder = some ⟨⟨10, 1⟩, ⟨1000, 1⟩⟩ := by
    decide
  have hevents : EventsFit 1 (Position.perp false).id climb := by
    intro cache now ev hev _ tape htape
    simp only [climb, List.mem_cons, VenueCall.market.injEq, List.not_mem_nil, or_false] at hev
    rcases hev with ⟨-, -, rfl⟩ | ⟨-, -, rfl⟩ | ⟨-, -, rfl⟩ <;> cases htape <;>
      exact ⟨⟨rfl, by decide, by decide⟩, ⟨rfl, by decide, by decide⟩⟩
  have hscale : OneScale 1 trailingOrder ⟨⟨10, 1⟩, ⟨1000, 1⟩⟩ climb := by
    refine ⟨⟨rfl, by decide, by decide⟩, fun trigger htrigger ↦ ?_, hevents⟩
    cases htrigger
    exact ⟨rfl, by decide, by decide⟩
  have hrests : climbed ∈ (run ({} : DefaultBrokerageModel).brokerage
      ([] ++ .submit markedListed 0 trailingOrder :: climb)).sim.resting := by decide +kernel
  exact (ratchets_run ({} : DefaultBrokerageModel).brokerage hknown rfl hseed hscale hrests rfl).2.1

end Instances

end VenueSession

end Coinext
