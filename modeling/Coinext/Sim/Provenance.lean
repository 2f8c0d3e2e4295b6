import Coinext.Sim.Pricing
import Coinext.Sim.Session

/-!
# Where a report of a session comes from

The venue numbers the orders that it accepts, and what rests or fills carries the number of its
order. `tracked_run` is the rule for a statement about every order and everything that comes of it:
it holds of the order as it is placed, an event keeps it for what is left of the order, and it
yields what is to be shown of the fills of the order.
-/

namespace Coinext

namespace SimulatedExecutionClient

variable [DecimalWidth] {model : BrokerageModel} {now : UnixNanos} {inst : Instrument} {tape : Tape}
  {id : InstrumentId}

/-- Every fill of an event is offered to an order that rests. -/
theorem exists_offered_of_mem_eventFills {rs : List Resting} {n : ℕ} {f : Fill}
    (hf : f ∈ eventFills model now inst tape id n rs) :
    ∃ r ∈ rs, ∃ m d, offered model inst tape id r = some d ∧
      f = makeFill model inst r m d (saturatingAddNs now (model.latencyNs .submit)) := by
  induction rs generalizing n with
  | nil => cases hf
  | cons r rs ih =>
    rw [eventFills_cons, List.mem_append] at hf
    rcases hf with hf | hf
    · simp only [eventFills] at hf
      split at hf
      · rename_i d hd
        exact ⟨r, List.mem_cons_self, n + 1, d, hd, List.mem_singleton.mp hf⟩
      · cases hf
    · obtain ⟨r', hr', hoffered⟩ := ih hf
      exact ⟨r', List.mem_cons_of_mem r hr', hoffered⟩

/-- An offer is a decision of the first pass, about an order of the event's instrument. -/
theorem decision_of_offered {r : Resting} {d : Decision}
    (h : offered model inst tape id r = some d) :
    r.order.instrumentId = id ∧ (verdict model inst tape r).decision = some d ∧
      d.fillQty.isPositive = true := by
  unfold offered at h
  split_ifs at h with hid
  rw [Option.filter_eq_some_iff] at h
  exact ⟨hid, h⟩

/-- What an event leaves of an order of its instrument, up to what fills. -/
theorem eq_of_survivor {r r' : Resting} (h : survivor model inst tape id r = some r') :
    (r.order.instrumentId ≠ id ∧ r' = r) ∨
      r.order.instrumentId = id ∧ ∃ remaining queueAhead,
        r' = { applyVerdict r (verdict model inst tape r) with
          remaining := remaining, queueAhead := queueAhead } := by
  unfold survivor at h
  split_ifs at h with hid
  · simp only at h
    refine .inr ⟨hid, ?_⟩
    split at h
    · cases h
      exact ⟨_, _, rfl⟩
    · split_ifs at h
      cases h
      exact ⟨_, _, rfl⟩
  · cases h
    exact .inl ⟨hid, rfl⟩

theorem left_of_survivor {r r' : Resting} (h : survivor model inst tape id r = some r') :
    (r.order.instrumentId ≠ id ∧ r' = r) ∨
      r.order.instrumentId = id ∧ Left model inst tape r r' := by
  refine (eq_of_survivor h).imp (fun hother ↦ hother) ?_
  rintro ⟨hid, remaining, queueAhead, rfl⟩
  exact ⟨hid, rfl, rfl⟩

end SimulatedExecutionClient

namespace VenueSession

open SimulatedExecutionClient

variable [DecimalWidth] {model : BrokerageModel}

/-- The order was accepted under a venue id. -/
def PlacedAs (s : VenueSession) (o : Order) (v : VenueOrderId) : Prop :=
  ∃ k, s.placed[k]? = some o ∧ v = simVenueId (k + 1)

variable {s : VenueSession}

omit [DecimalWidth] in
theorem PlacedAs.eq {o o' : Order} {v : VenueOrderId} (h : s.PlacedAs o v)
    (h' : s.PlacedAs o' v) : o = o' := by
  obtain ⟨k, hk, rfl⟩ := h
  obtain ⟨k', hk', heq⟩ := h'
  have hkk' : k = k' := Nat.succ_injective (simVenueId_injective heq)
  subst hkk'
  exact Option.some.inj (hk.symm.trans hk')

theorem PlacedAs.step {o : Order} {v : VenueOrderId} (h : s.PlacedAs o v) (call : VenueCall) :
    (step model s call).PlacedAs o v := by
  obtain ⟨k, hk, rfl⟩ := h
  refine ⟨k, ?_, rfl⟩
  cases call with
  | submit cache now order =>
    simp only [VenueSession.step]
    split_ifs
    · exact (List.getElem?_append_left (List.getElem?_eq_some_iff.mp hk).1).trans hk
    · exact hk
  | cancel now id => exact hk
  | market cache now ev => exact hk
  | drain frontier => exact hk

/-- Everything that rests and every fill comes from an order placed, with `P` and `Q`. -/
structure Tracked (P : Order → Resting → Prop) (Q : Order → Fill → Prop) (s : VenueSession) :
    Prop where
  resting : ∀ r ∈ s.sim.resting, ∃ o, s.PlacedAs o r.venueOrderId ∧ P o r
  fills : ∀ f ∈ s.logFills, ∃ o, s.PlacedAs o f.venueOrderId ∧ Q o f

variable {P : Order → Resting → Prop} {Q : Order → Fill → Prop}

/-- What an event must do for `P` and `Q`. -/
def Tracks (model : BrokerageModel) (P : Order → Resting → Prop) (Q : Order → Fill → Prop)
    (cache : Cache) (ev : MarketEvent) : Prop :=
  ∀ inst tape, Offers cache ev inst tape → ∀ o r, P o r →
    (∀ r', survivor model inst tape ev.instrumentId r = some r' → P o r') ∧
      ∀ d, offered model inst tape ev.instrumentId r = some d →
        ∀ n ts, Q o (makeFill model inst r n d ts)

theorem mem_logFills_step (hs : Sound s) (call : VenueCall) {f : Fill}
    (hf : f ∈ (step model s call).logFills) :
    f ∈ s.logFills ∨ ExecutionReport.fill f ∈ reports model s call := by
  obtain ⟨-, hlog⟩ := log_step model hs.numbered call
  rw [logFills, hlog, List.filterMap_append, List.mem_append] at hf
  refine hf.imp id fun hnew ↦ ?_
  obtain ⟨report, hreport, hfill⟩ := List.mem_filterMap.mp hnew
  cases report with
  | fill g =>
    cases hfill
    exact hreport
  | _ => cases hfill

/-- **One call** keeps track. -/
theorem Tracked.step (h : Tracked P Q s) (hs : Sound s) (call : VenueCall)
    (hplace : ∀ cache now o, call = .submit cache now o → ∀ n, P o (placedResting cache n o))
    (hevent : ∀ cache now ev, call = .market cache now ev → Tracks model P Q cache ev) :
    Tracked P Q (step model s call) := by
  refine ⟨fun r hr ↦ ?_, fun f hf ↦ ?_⟩
  · rw [resting_step] at hr
    have hold (hr : r ∈ s.sim.resting) :
        ∃ o, (VenueSession.step model s call).PlacedAs o r.venueOrderId ∧ P o r := by
      obtain ⟨o, hplaced, hP⟩ := h.resting r hr
      exact ⟨o, hplaced.step call, hP⟩
    cases call with
    | submit cache now order =>
      simp only [restingAfter] at hr
      split_ifs at hr with hknown
      · rcases List.mem_append.mp hr with hr | hr
        · exact hold hr
        · rw [List.mem_singleton.mp hr]
          refine ⟨order, ⟨s.placed.length, ?_, ?_⟩, hplace cache now order rfl _⟩
          · simp [VenueSession.step, hknown]
          · rw [← hs.venueSeq_eq]
            rfl
      · exact hold hr
    | cancel now id => exact hold (List.mem_of_mem_eraseP hr)
    | market cache now ev =>
      rcases offers_or_idle model cache now ev s with
        ⟨inst, tape, hinst, htape, -, hresting⟩ | ⟨-, hresting, -⟩
      · rw [hresting] at hr
        obtain ⟨r₀, hr₀, hsurvivor⟩ := List.mem_filterMap.mp hr
        obtain ⟨o, hplaced, hP⟩ := h.resting r₀ hr₀
        rw [← (sameOrder_of_survivor hsurvivor).venueOrderId] at hplaced
        exact ⟨o, hplaced.step _,
          (hevent cache now ev rfl inst tape ⟨hinst, htape⟩ o r₀ hP).1 r hsurvivor⟩
      · rw [hresting] at hr
        exact hold hr
    | drain frontier => exact hold hr
  · rcases mem_logFills_step hs call hf with hf | hf
    · obtain ⟨o, hplaced, hQ⟩ := h.fills f hf
      exact ⟨o, hplaced.step call, hQ⟩
    · cases call with
      | submit cache now order =>
        simp only [reports] at hf
        split_ifs at hf <;> simp at hf
      | cancel now id =>
        simp only [reports] at hf
        split_ifs at hf <;> simp at hf
      | market cache now ev =>
        simp only [reports, List.mem_map, ExecutionReport.fill.injEq, exists_eq_right] at hf
        rcases offers_or_idle model cache now ev s with
          ⟨inst, tape, hinst, htape, hfills, -⟩ | ⟨hfills, -, -⟩
        · rw [hfills] at hf
          obtain ⟨r, hr, m, d, hoffered, rfl⟩ := exists_offered_of_mem_eventFills hf
          obtain ⟨o, hplaced, hP⟩ := h.resting r hr
          exact ⟨o, hplaced.step _,
            (hevent cache now ev rfl inst tape ⟨hinst, htape⟩ o r hP).2 d hoffered m _⟩
        · rw [hfills] at hf
          cases hf
      | drain frontier => cases hf

/-- **The rule for sessions.** -/
theorem tracked_run {calls : List VenueCall}
    (hplace : ∀ cache now o, VenueCall.submit cache now o ∈ calls →
      ∀ n, P o (placedResting cache n o))
    (hevent : ∀ cache now ev, VenueCall.market cache now ev ∈ calls →
      Tracks model P Q cache ev) : Tracked P Q (run model calls) := by
  have hstart : Tracked P Q start := ⟨(fun _ hr ↦ nomatch hr), fun _ hf ↦ nomatch hf⟩
  have hrun : Sound (run model calls) ∧ Tracked P Q (run model calls) := by
    refine List.foldlRecOn (motive := fun s ↦ Sound s ∧ Tracked P Q s) calls (step model)
      ⟨sound_start, hstart⟩ ?_
    · rintro s ⟨hs, h⟩ call hcall
      refine ⟨hs.step call, h.step hs call ?_ ?_⟩
      · rintro cache now o rfl
        exact hplace cache now o hcall
      · rintro cache now ev rfl
        exact hevent cache now ev hcall
  exact hrun.2

end VenueSession

end Coinext
