import Coinext.Sim.Provenance

/-!
# The evolution of one order

What the venue makes of a resting order depends on the calls only, not on the other orders
(`evolve`), until the order is gone. No two orders have the same venue id, so an order that still
rests after some calls is the order as those calls have evolved it (`evolution_of_rests`), and what
a call fills under its venue id is what the event offers it (`filledBy_market`).
-/

namespace Coinext

namespace VenueSession

open SimulatedExecutionClient

variable [DecimalWidth] {model : BrokerageModel}

/-! ## Venue ids are distinct -/

/-- The venue ids of the resting orders, in their order. -/
def restingIds (s : VenueSession) : List VenueOrderId := s.sim.resting.map Resting.venueOrderId

theorem sublist_filterMap_survivor {inst : Instrument} {tape : Tape} {id : InstrumentId}
    (rs : List Resting) :
    ((rs.filterMap (survivor model inst tape id)).map Resting.venueOrderId).Sublist
      (rs.map Resting.venueOrderId) := by
  induction rs with
  | nil => exact .refl _
  | cons r rs ih =>
    cases hr : survivor model inst tape id r with
    | none =>
      rw [List.filterMap_cons_none hr, List.map_cons]
      exact ih.cons _
    | some r' =>
      rw [List.filterMap_cons_some hr, List.map_cons, List.map_cons,
        (sameOrder_of_survivor hr).venueOrderId]
      exact ih.cons_cons _

/-- Orders rest in the order in which they were accepted. -/
theorem sublist_restingIds_run (calls : List VenueCall) :
    (run model calls).restingIds.Sublist
      ((List.range' 1 (run model calls).placed.length).map simVenueId) := by
  induction calls using List.reverseRecOn with
  | nil => exact .refl _
  | append_singleton calls call ih =>
    rw [run_concat, restingIds, resting_step]
    cases call with
    | submit cache now order =>
      simp only [restingAfter, step]
      split_ifs with hknown
      · rw [List.map_append, List.length_append, List.length_singleton, List.range'_concat,
          List.map_append, (sound_run calls).venueSeq_eq, Nat.one_mul, Nat.add_comm 1]
        exact ih.append (.refl _)
      · exact ih
    | cancel now id => exact ((List.eraseP_sublist).map Resting.venueOrderId).trans ih
    | market cache now ev =>
      rcases offers_or_idle model cache now ev (run model calls) with
        ⟨inst, tape, -, -, -, hrests⟩ | ⟨-, hrests, -⟩
      · rw [hrests]
        exact (sublist_filterMap_survivor _).trans ih
      · rw [hrests]
        exact ih
    | drain frontier => exact ih

theorem nodup_restingIds (calls : List VenueCall) : (run model calls).restingIds.Nodup :=
  (sublist_restingIds_run calls).nodup ((List.nodup_range' 1).map simVenueId_injective)

theorem eq_of_venueOrderId {calls : List VenueCall} {r r' : Resting}
    (hr : r ∈ (run model calls).sim.resting) (hr' : r' ∈ (run model calls).sim.resting)
    (h : r'.venueOrderId = r.venueOrderId) : r' = r :=
  List.inj_on_of_nodup_map (nodup_restingIds calls) hr' hr h

theorem length_placed_le (calls : List VenueCall) (call : VenueCall) :
    (run model calls).placed.length ≤ (run model (calls ++ [call])).placed.length := by
  rw [run_concat]
  cases call with
  | submit cache now order =>
    simp only [step]
    split_ifs
    · simp
    · exact le_rfl
  | _ => exact le_rfl

theorem length_placed_le_append (model : BrokerageModel) (front back : List VenueCall) :
    (run model front).placed.length ≤ (run model (front ++ back)).placed.length := by
  induction back using List.reverseRecOn with
  | nil => rw [List.append_nil]
  | append_singleton back call ih =>
    rw [← List.append_assoc]
    exact ih.trans (length_placed_le _ call)

/-! ## Evolution -/

/-- What a call makes of a resting order, as long as it is not cancelled. -/
def evolve (model : BrokerageModel) (r : Resting) : VenueCall → Option Resting
  | .market cache _ ev => match cache.instrument ev.instrumentId, tape? ev with
    | some inst, some tape => survivor model inst tape ev.instrumentId r
    | _, _ => some r
  | _ => some r

/-- What some calls make of a resting order. -/
def evolution (model : BrokerageModel) (calls : List VenueCall) (r : Resting) : Option Resting :=
  calls.foldlM (evolve model) r

theorem evolution_concat (calls : List VenueCall) (call : VenueCall) (r : Resting) :
    evolution model (calls ++ [call]) r = (evolution model calls r).bind (evolve model · call) := by
  rw [evolution, List.foldlM_append]
  cases hr : calls.foldlM (evolve model) r <;> simp [evolution, hr]

/-- What was there before a call and is there after it has evolved. -/
theorem exists_evolve_of_mem {calls : List VenueCall} {call : VenueCall} {r : Resting}
    (hr : r ∈ (run model (calls ++ [call])).sim.resting)
    (hold : r.venueOrderId ∈ (List.range' 1 (run model calls).placed.length).map simVenueId) :
    ∃ r₀ ∈ (run model calls).sim.resting, r₀.venueOrderId = r.venueOrderId ∧
      evolve model r₀ call = some r := by
  rw [run_concat, resting_step] at hr
  cases call with
  | submit cache now order =>
    simp only [restingAfter] at hr
    split_ifs at hr with hknown
    · rcases List.mem_append.mp hr with hr | hr
      · exact ⟨r, hr, rfl, rfl⟩
      · exfalso
        -- A new order has a new id.
        rw [List.mem_singleton.mp hr] at hold
        obtain ⟨k, hk, heq⟩ := List.mem_map.mp hold
        have hk' : k = (run model calls).sim.venueSeq + 1 := simVenueId_injective heq
        rw [List.mem_range'_1, hk', (sound_run calls).venueSeq_eq] at hk
        omega
    · exact ⟨r, hr, rfl, rfl⟩
  | cancel now id => exact ⟨r, List.mem_of_mem_eraseP hr, rfl, rfl⟩
  | market cache now ev =>
    cases hinst : cache.instrument ev.instrumentId with
    | none =>
      simp only [restingAfter, hinst] at hr
      exact ⟨r, hr, rfl, by simp only [evolve, hinst]⟩
    | some inst =>
      cases htape : tape? ev with
      | none =>
        simp only [restingAfter, hinst, htape] at hr
        exact ⟨r, hr, rfl, by simp only [evolve, hinst, htape]⟩
      | some tape =>
        simp only [restingAfter, hinst, htape] at hr
        obtain ⟨r₀, hr₀, hsurvivor⟩ := List.mem_filterMap.mp hr
        exact ⟨r₀, hr₀, (sameOrder_of_survivor hsurvivor).venueOrderId.symm,
          by simp only [evolve, hinst, htape, hsurvivor]⟩
  | drain frontier => exact ⟨r, hr, rfl, rfl⟩

/-- **An order that still rests has evolved.** -/
theorem evolution_of_rests {front back : List VenueCall} {r r' : Resting}
    (hr : r ∈ (run model front).sim.resting) (hr' : r' ∈ (run model (front ++ back)).sim.resting)
    (hid : r'.venueOrderId = r.venueOrderId) : evolution model back r = some r' := by
  have hmem : r.venueOrderId ∈ (List.range' 1 (run model front).placed.length).map simVenueId :=
    (sublist_restingIds_run front).subset (List.mem_map_of_mem hr)
  induction back using List.reverseRecOn generalizing r' with
  | nil =>
    rw [List.append_nil] at hr'
    rw [eq_of_venueOrderId hr hr' hid]
    rfl
  | append_singleton back call ih =>
    rw [← List.append_assoc] at hr'
    have hlength := length_placed_le_append model front back
    have hold : r'.venueOrderId
        ∈ (List.range' 1 (run model (front ++ back)).placed.length).map simVenueId := by
      obtain ⟨k, hk, heq⟩ := List.mem_map.mp hmem
      rw [List.mem_range'_1] at hk
      exact List.mem_map.mpr ⟨k, List.mem_range'_1.mpr (by omega), heq.trans hid.symm⟩
    obtain ⟨r₀, hr₀, hid₀, hevolve⟩ := exists_evolve_of_mem hr' hold
    rw [evolution_concat, ih hr₀ (hid₀.trans hid)]
    exact hevolve

theorem of_evolution {P : Resting → Prop} {calls : List VenueCall} {r r' : Resting}
    (h : evolution model calls r = some r') (hr : P r)
    (hstep : ∀ inst tape id r r', P r → survivor model inst tape id r = some r' → P r') : P r' := by
  induction calls using List.reverseRecOn generalizing r' with
  | nil =>
    cases h
    exact hr
  | append_singleton calls call ih =>
    rw [evolution_concat] at h
    obtain ⟨r₀, hr₀, hevolve⟩ := Option.bind_eq_some_iff.mp h
    have hP := ih hr₀
    cases call with
    | market cache now ev =>
      simp only [evolve] at hevolve
      split at hevolve
      · exact hstep _ _ _ r₀ r' hP hevolve
      · cases hevolve
        exact hP
    | _ =>
      cases hevolve
      exact hP

/-! ## What a call fills of an order -/

/-- The quantities that a call fills under a venue id. -/
def filledBy (model : BrokerageModel) (s : VenueSession) (v : VenueOrderId) (call : VenueCall) :
    List Quantity :=
  (((reports model s call).filterMap ExecutionReport.fill?).filter fun f ↦
    f.venueOrderId = v).map Fill.lastQty

theorem filledBy_eq_nil {call : VenueCall} (hcall : ∀ cache now ev, call ≠ .market cache now ev)
    (s : VenueSession) (v : VenueOrderId) : filledBy model s v call = [] := by
  cases call with
  | market cache now ev => exact absurd rfl (hcall cache now ev)
  | submit cache now order =>
    simp only [filledBy, reports]
    split_ifs <;> rfl
  | cancel now id =>
    simp only [filledBy, reports]
    split_ifs <;> rfl
  | drain frontier => rfl

theorem filter_eventFills_of_not_mem {now : UnixNanos} {inst : Instrument} {tape : Tape}
    {id : InstrumentId} {v : VenueOrderId} {rs : List Resting} (n : ℕ)
    (h : v ∉ rs.map Resting.venueOrderId) :
    (eventFills model now inst tape id n rs).filter (fun f ↦ f.venueOrderId = v) = [] := by
  rw [List.filter_eq_nil_iff]
  intro f hf
  obtain ⟨r, hr, m, d, -, rfl⟩ := exists_offered_of_mem_eventFills hf
  rw [decide_eq_true_eq]
  exact fun heq ↦ h (List.mem_map.mpr ⟨r, hr, heq⟩)

theorem filter_eventFills_of_mem {now : UnixNanos} {inst : Instrument} {tape : Tape}
    {id : InstrumentId} {r : Resting} {rs : List Resting} (n : ℕ) (hr : r ∈ rs)
    (hnodup : (rs.map Resting.venueOrderId).Nodup) :
    ((eventFills model now inst tape id n rs).filter fun f ↦
        f.venueOrderId = r.venueOrderId).map Fill.lastQty
      = ((offered model inst tape id r).map Decision.fillQty).toList := by
  induction rs generalizing n with
  | nil => cases hr
  | cons a rs ih =>
    rw [List.map_cons, List.nodup_cons] at hnodup
    rw [eventFills_cons, List.filter_append]
    rcases List.mem_cons.mp hr with rfl | hr
    · rw [filter_eventFills_of_not_mem _ hnodup.1, List.append_nil]
      cases hoffered : offered model inst tape id r with
      | none => simp [eventFills, hoffered]
      | some d => simp [eventFills, hoffered, makeFill]
    · have hne : a.venueOrderId ≠ r.venueOrderId :=
        fun heq ↦ hnodup.1 (heq ▸ List.mem_map_of_mem hr)
      rw [filter_eventFills_of_not_mem n (by simpa using fun heq ↦ hne heq.symm), List.nil_append]
      exact ih _ hr hnodup.2

/-- **An event fills what it offers.** -/
theorem filledBy_market {calls : List VenueCall} {r : Resting} {cache : Cache} {ev : MarketEvent}
    {inst : Instrument} {tape : Tape} (hr : r ∈ (run model calls).sim.resting)
    (hoffers : Offers cache ev inst tape) (now : UnixNanos) :
    filledBy model (run model calls) r.venueOrderId (.market cache now ev)
      = ((offered model inst tape ev.instrumentId r).map Decision.fillQty).toList := by
  have hfills : fillsAt model (run model calls) cache now ev
      = eventFills model now inst tape ev.instrumentId (run model calls).sim.tradeSeq
        (run model calls).sim.resting := by
    simp only [fillsAt, hoffers.1, hoffers.2]
  rw [filledBy, reports, ExecutionReport.filterMap_map_fill, hfills]
  exact filter_eventFills_of_mem _ hr (nodup_restingIds calls)

/-! ## What many calls fill of an order -/

/-- What a call offers to the orders of an instrument. -/
def offerFor (id : InstrumentId) : VenueCall → Option (Instrument × Tape)
  | .market cache _ ev => if ev.instrumentId = id then
      match cache.instrument id, tape? ev with
      | some inst, some tape => some (inst, tape)
      | _, _ => none
    else none
  | _ => none

theorem evolve_eq (model : BrokerageModel) (r : Resting) (call : VenueCall) :
    evolve model r call = match offerFor r.order.instrumentId call with
      | some (inst, tape) => survivor model inst tape r.order.instrumentId r
      | none => some r := by
  cases call with
  | market cache now ev =>
    simp only [evolve, offerFor]
    by_cases hid : ev.instrumentId = r.order.instrumentId
    · rw [if_pos hid, hid]
      cases cache.instrument r.order.instrumentId <;> cases tape? ev <;> rfl
    · rw [if_neg hid]
      split
      · exact if_neg fun heq ↦ hid heq.symm
      · rfl
  | _ => rfl

/-- The quantity that a call fills of an order, if any. -/
def fillAt (model : BrokerageModel) (r : Resting) (call : VenueCall) : List Quantity :=
  match offerFor r.order.instrumentId call with
  | some (inst, tape) =>
    ((offered model inst tape r.order.instrumentId r).map Decision.fillQty).toList
  | none => []

/-- The quantities that some calls fill of an order, as it evolves. -/
def fillsAlong (model : BrokerageModel) : List VenueCall → Resting → List Quantity
  | [], _ => []
  | call :: calls, r => fillAt model r call ++ match evolve model r call with
    | some r' => fillsAlong model calls r'
    | none => []

theorem fillsAlong_cons_some {call : VenueCall} {r r' : Resting}
    (h : evolve model r call = some r') (calls : List VenueCall) :
    fillsAlong model (call :: calls) r = fillAt model r call ++ fillsAlong model calls r' := by
  rw [fillsAlong, h]

theorem fillsAlong_cons_none {call : VenueCall} {r : Resting} (h : evolve model r call = none)
    (calls : List VenueCall) : fillsAlong model (call :: calls) r = fillAt model r call := by
  rw [fillsAlong, h, List.append_nil]

theorem evolution_cons (model : BrokerageModel) (call : VenueCall) (calls : List VenueCall)
    (r : Resting) :
    evolution model (call :: calls) r = (evolve model r call).bind (evolution model calls) := rfl

theorem filledBy_of_rests {calls : List VenueCall} {r : Resting}
    (hr : r ∈ (run model calls).sim.resting) (call : VenueCall) :
    filledBy model (run model calls) r.venueOrderId call = fillAt model r call := by
  cases call with
  | market cache now ev =>
    simp only [fillAt, offerFor]
    cases hinst : cache.instrument ev.instrumentId with
    | none =>
      have hnone : filledBy model (run model calls) r.venueOrderId (.market cache now ev) = [] := by
        simp [filledBy, reports, fillsAt, hinst]
      by_cases hid : ev.instrumentId = r.order.instrumentId
      · rw [hnone, if_pos hid, ← hid, hinst]
      · rw [hnone, if_neg hid]
    | some inst =>
      cases htape : tape? ev with
      | none =>
        have hnone : filledBy model (run model calls) r.venueOrderId (.market cache now ev)
            = [] := by
          simp [filledBy, reports, fillsAt, hinst, htape]
        rw [hnone]
        split_ifs <;> cases cache.instrument r.order.instrumentId <;> rfl
      | some tape =>
        rw [filledBy_market hr ⟨hinst, htape⟩ now]
        by_cases hid : ev.instrumentId = r.order.instrumentId
        · rw [if_pos hid, ← hid, hinst]
        · have hother : r.order.instrumentId ≠ ev.instrumentId := fun heq ↦ hid heq.symm
          simp [offered, hid, hother]
  | _ => exact filledBy_eq_nil (fun _ _ _ heq ↦ by cases heq) _ _

/-- What is left of an order rests on, unless it is cancelled. -/
theorem mem_of_evolve {calls : List VenueCall} {call : VenueCall} {r r' : Resting}
    (hr : r ∈ (run model calls).sim.resting) (hevolve : evolve model r call = some r')
    (hkeep : ∀ now, call ≠ .cancel now r.order.clientOrderId) :
    r' ∈ (run model (calls ++ [call])).sim.resting := by
  rw [run_concat, resting_step]
  cases call with
  | submit cache now order =>
    cases hevolve
    simp only [restingAfter]
    split_ifs
    · exact List.mem_append_left _ hr
    · exact hr
  | cancel now id =>
    cases hevolve
    have hne : r.order.clientOrderId ≠ id := fun heq ↦ hkeep now (heq ▸ rfl)
    exact (List.mem_eraseP_of_neg (p := fun r : Resting ↦ r.order.clientOrderId = id)
      (by simpa using hne)).mpr hr
  | market cache now ev =>
    cases hinst : cache.instrument ev.instrumentId with
    | none =>
      simp only [evolve, hinst, Option.some.injEq] at hevolve
      simpa only [restingAfter, hinst, ← hevolve] using hr
    | some inst => cases htape : tape? ev with
      | none =>
        simp only [evolve, hinst, htape, Option.some.injEq] at hevolve
        simpa only [restingAfter, hinst, htape, ← hevolve] using hr
      | some tape =>
        simp only [evolve, hinst, htape] at hevolve
        simp only [restingAfter, hinst, htape]
        exact List.mem_filterMap.mpr ⟨r, hr, hevolve⟩
  | drain frontier =>
    cases hevolve
    exact hr

/-- The quantities that have filled under a venue id. -/
def filledUnder (s : VenueSession) (v : VenueOrderId) : List Quantity :=
  (s.logFills.filter fun f ↦ f.venueOrderId = v).map Fill.lastQty

theorem filledUnder_concat (calls : List VenueCall) (call : VenueCall) (v : VenueOrderId) :
    (run model (calls ++ [call])).filledUnder v
      = (run model calls).filledUnder v ++ filledBy model (run model calls) v call := by
  rw [run_concat, filledUnder, filledUnder, filledBy, logFills, logFills,
    (log_step model (sound_run calls).numbered call).2, List.filterMap_append, List.filter_append,
    List.map_append]

/-- Nothing fills under a venue id that is no longer at rest. -/
theorem filledUnder_of_gone {front back : List VenueCall} {v : VenueOrderId}
    (hold : v ∈ (List.range' 1 (run model front).placed.length).map simVenueId)
    (hgone : v ∉ (run model front).restingIds) :
    (run model (front ++ back)).filledUnder v = (run model front).filledUnder v := by
  have hgone' : v ∉ (run model (front ++ back)).restingIds ∧
      (run model (front ++ back)).filledUnder v = (run model front).filledUnder v := by
    induction back using List.reverseRecOn with
    | nil => exact ⟨by rwa [List.append_nil], by rw [List.append_nil]⟩
    | append_singleton back call ih =>
      obtain ⟨hrest, hfilled⟩ := ih
      rw [← List.append_assoc]
      refine ⟨?_, ?_⟩
      · intro hmem
        obtain ⟨r, hr, rfl⟩ := List.mem_map.mp hmem
        have hlength := length_placed_le_append model front back
        have hold' : r.venueOrderId
            ∈ (List.range' 1 (run model (front ++ back)).placed.length).map simVenueId := by
          obtain ⟨k, hk, heq⟩ := List.mem_map.mp hold
          rw [List.mem_range'_1] at hk
          exact List.mem_map.mpr ⟨k, List.mem_range'_1.mpr (by omega), heq⟩
        obtain ⟨r₀, hr₀, hid, -⟩ := exists_evolve_of_mem hr hold'
        exact hrest (hid ▸ List.mem_map_of_mem hr₀)
      · have hnone : filledBy model (run model (front ++ back)) v call = [] := by
          cases call with
          | market cache now ev =>
            simp only [filledBy, reports, fillsAt]
            split
            · rw [ExecutionReport.filterMap_map_fill, filter_eventFills_of_not_mem _ hrest]
              rfl
            · rfl
          | _ => exact filledBy_eq_nil (fun _ _ _ heq ↦ by cases heq) _ _
        rw [filledUnder_concat, hnone, List.append_nil, hfilled]
  exact hgone'.2

/-- **What fills under the id of an order is what the calls fill of it**, until it is cancelled. -/
theorem filledUnder_append {front back : List VenueCall} {r : Resting}
    (hr : r ∈ (run model front).sim.resting)
    (hkeep : ∀ now, .cancel now r.order.clientOrderId ∉ back) :
    (run model (front ++ back)).filledUnder r.venueOrderId
      = (run model front).filledUnder r.venueOrderId ++ fillsAlong model back r := by
  induction back generalizing front r with
  | nil => rw [List.append_nil, fillsAlong, List.append_nil]
  | cons call back ih =>
    have hfirst : (run model (front ++ [call])).filledUnder r.venueOrderId
        = (run model front).filledUnder r.venueOrderId ++ _ :=
      (filledUnder_concat front call r.venueOrderId).trans
        (congrArg _ (filledBy_of_rests hr call))
    rw [List.append_cons]
    cases hevolve : evolve model r call with
    | none =>
      have hgone : r.venueOrderId ∉ (run model (front ++ [call])).restingIds := by
        intro hmem
        obtain ⟨r', hr', hid⟩ := List.mem_map.mp hmem
        have hevolution := evolution_of_rests hr hr' hid
        simp [evolution_cons, hevolve] at hevolution
      have hold : r.venueOrderId
          ∈ (List.range' 1 (run model (front ++ [call])).placed.length).map simVenueId := by
        have hlength : (run model front).placed.length
            ≤ (run model (front ++ [call])).placed.length := length_placed_le front call
        obtain ⟨k, hk, heq⟩ := List.mem_map.mp
          ((sublist_restingIds_run front).subset (List.mem_map_of_mem hr))
        rw [List.mem_range'_1] at hk
        exact List.mem_map.mpr ⟨k, List.mem_range'_1.mpr (by omega), heq⟩
      rw [filledUnder_of_gone hold hgone, hfirst, fillsAlong_cons_none hevolve]
    | some r' =>
      have hr' : r' ∈ (run model (front ++ [call])).sim.resting :=
        mem_of_evolve hr hevolve fun now heq ↦ hkeep now (heq ▸ List.mem_cons_self)
      have hsame : SameOrder r r' := by
        rw [evolve_eq] at hevolve
        split at hevolve
        · exact sameOrder_of_survivor hevolve
        · cases hevolve
          exact .refl r
      have hlater := ih hr' fun now hmem ↦
        hkeep now (hsame.clientOrderId ▸ List.mem_cons_of_mem call hmem)
      rw [hsame.venueOrderId] at hlater
      rw [hlater, hfirst, fillsAlong_cons_some hevolve, List.append_assoc]

end VenueSession

end Coinext
