import Coinext.Sim.Venue

/-!
# What the venue does to its orders

Matching never fills more than what remains: that is asked of the brokerage model
(`NeverOverfills`), and every way of filling stays within what the model allows. `matchOne_cases`
says once what matching can do to one resting order.
-/

namespace Coinext

namespace SimulatedExecutionClient

variable {model : BrokerageModel} {cache : Cache} {now : UnixNanos} {inst : Instrument}
  {tape : Tape} {r : Resting} {d : Decision}

/-- A quantity the resting order can be filled by. -/
def Within (r : Resting) (q : Quantity) : Prop :=
  q.precision = r.remaining.precision ∧ q.raw ≤ r.remaining.raw

/-! ## Placing and cancelling -/

/-- A submitted order is acknowledged and rests in full. -/
theorem onSubmit_eq (model : BrokerageModel) (now : UnixNanos) {order : Order}
    (hinst : cache.instrument order.instrumentId = some inst) (s : SimState) :
    ∃ v r, r.order = order ∧ r.remaining = order.quantity ∧
      onSubmit model cache now order s = { s with
        venueSeq := s.venueSeq + 1
        queue := s.queue.push (saturatingAddNs now (model.latencyNs .submit))
          (.accepted order.clientOrderId v)
        resting := s.resting ++ [r] } := by
  refine ⟨simVenueId (s.venueSeq + 1),
    { order := order
      remaining := order.quantity
      queueAhead := none
      venueOrderId := simVenueId (s.venueSeq + 1)
      trail := if marketable cache order then none else seedTrail cache order
      pendingOpen := marketable cache order }, rfl, rfl, ?_⟩
  simp only [onSubmit, hinst]

/-- Nothing rests under the id, so nothing is cancelled. -/
theorem onCancel_of_absent {id : ClientOrderId} {s : SimState}
    (h : s.resting.filter (fun r ↦ r.order.clientOrderId = id) = []) :
    onCancel model now id s = s := by
  have hany : s.resting.any (fun r ↦ r.order.clientOrderId = id) = false := by
    rw [List.any_eq_false]
    exact List.filter_eq_nil_iff.mp h
  rw [onCancel, hany]
  rfl

/-- An order rests under the id: it is withdrawn, and a `Canceled` report scheduled. -/
theorem onCancel_of_resting {id : ClientOrderId} {s : SimState}
    (h : s.resting.filter (fun r ↦ r.order.clientOrderId = id) ≠ []) :
    onCancel model now id s = { s with
      resting := s.resting.eraseP fun r ↦ r.order.clientOrderId = id
      queue := s.queue.push (saturatingAddNs now (model.latencyNs .cancel)) (.canceled id) } := by
  have hany : s.resting.any (fun r ↦ r.order.clientOrderId = id) = true := by
    obtain ⟨r, hr⟩ := List.exists_mem_of_ne_nil _ h
    exact List.any_eq_true.mpr ⟨r, List.mem_filter.mp hr⟩
  rw [onCancel, if_pos hany]

theorem filter_eraseP_of_disjoint {α : Type} {p q : α → Bool} (h : ∀ a, p a = true → q a = false)
    (l : List α) : (l.eraseP p).filter q = l.filter q := by
  induction l with
  | nil => rfl
  | cons a l ih =>
    by_cases hp : p a = true
    · rw [List.eraseP_cons_of_pos hp, List.filter_cons_of_neg (by simp [h a hp])]
    · rw [List.eraseP_cons_of_neg hp, List.filter_cons, List.filter_cons, ih]

theorem filter_eraseP_of_length_le {α : Type} {p : α → Bool} {l : List α}
    (h : (l.filter p).length ≤ 1) : (l.eraseP p).filter p = [] := by
  induction l with
  | nil => rfl
  | cons a l ih =>
    by_cases hp : p a = true
    · rw [List.filter_cons_of_pos hp, List.length_cons] at h
      rw [List.eraseP_cons_of_pos hp]
      exact List.length_eq_zero_iff.mp (by omega)
    · rw [List.filter_cons_of_neg hp] at h
      rw [List.eraseP_cons_of_neg hp, List.filter_cons_of_neg hp]
      exact ih h

/-! ## Decisions stay within what remains -/

theorem within_cappedQty (hmodel : model.NeverOverfills) :
    Within r (cappedQty model inst tape r) := by
  unfold cappedQty
  split
  · exact hmodel _ _ _
  · exact ⟨rfl, le_rfl⟩

theorem within_takerDecision {refPx : Price} {q : Quantity} {cap : Price → Price}
    (hq : Within r q) (h : takerDecision model inst tape r refPx q cap = some d) :
    Within r d.fillQty := by
  unfold takerDecision at h
  split_ifs at h
  cases h
  exact hq

/-- What is subtracted from a share of what remains leaves a quantity within it. -/
theorem within_sub {share paid : Quantity} (hshare : Within r share) :
    Within r (match share.checkedSub paid with
      | .ok q => q
      | .error _ => Quantity.zero share.precision) := by
  cases hsub : share.checkedSub paid with
  | ok q =>
    rw [Quantity.of_checkedSub hsub]
    exact ⟨hshare.1, (Nat.sub_le _ _).trans hshare.2⟩
  | error e => exact ⟨hshare.1, Nat.zero_le _⟩

variable [DecimalWidth]

theorem within_queueShare (hmodel : model.NeverOverfills) (through : Bool) (v : Quantity) :
    Within r (queueShare model inst r through v).1 := by
  have hshare : Within r (model.fillableQty r.remaining v inst) := hmodel _ _ _
  unfold queueShare
  split_ifs
  · exact hshare
  · exact within_sub hshare

omit [DecimalWidth] in
theorem within_pendingVerdict (hmodel : model.NeverOverfills)
    (h : (pendingVerdict model inst tape r).decision = some d) : Within r d.fillQty := by
  simp only [pendingVerdict] at h
  split_ifs at h
  exact within_takerDecision (within_cappedQty hmodel) h

omit [DecimalWidth] in
theorem within_stopVerdict (hmodel : model.NeverOverfills)
    (h : (stopVerdict model inst tape r).decision = some d) : Within r d.fillQty := by
  unfold stopVerdict at h
  split_ifs at h
  cases htrigger : r.order.trigger with
  | none =>
    rw [htrigger] at h
    cases h
  | some trigger =>
    simp only [htrigger] at h
    split_ifs at h
    exact within_takerDecision (within_cappedQty hmodel) h

omit [DecimalWidth] in
theorem within_aggressiveVerdict (hmodel : model.NeverOverfills)
    (h : (aggressiveVerdict model inst tape r).decision = some d) : Within r d.fillQty := by
  unfold aggressiveVerdict at h
  split at h
  · cases h
  · exact within_takerDecision (hmodel _ _ _) h

/-- A limit order is filled as a maker, at its limit: all of it on a quote, its share on a bar. -/
theorem of_limitVerdict {limit : Price}
    (h : (limitVerdict model inst tape r limit).decision = some d) :
    d.fillPx = limit ∧ d.liquidity = .maker ∧ (d.fillQty = r.remaining ∨
      ∃ through v, d.fillQty = (queueShare model inst r through v).1) := by
  simp only [limitVerdict] at h
  cases hvolume : tape.barVolume with
  | none =>
    simp only [hvolume] at h
    split_ifs at h
    cases h
    exact ⟨rfl, rfl, .inl rfl⟩
  | some v =>
    simp only [hvolume] at h
    split_ifs at h
    cases h
    exact ⟨rfl, rfl, .inr ⟨_, v, rfl⟩⟩

theorem within_limitVerdict (hmodel : model.NeverOverfills) {limit : Price}
    (h : (limitVerdict model inst tape r limit).decision = some d) : Within r d.fillQty := by
  obtain ⟨-, -, hall | ⟨through, v, hshare⟩⟩ := of_limitVerdict h
  · rw [hall]
    exact ⟨rfl, le_rfl⟩
  · rw [hshare]
    exact within_queueShare hmodel through v

/-- **A decision never over-fills.** -/
theorem within_of_verdict (hmodel : model.NeverOverfills)
    (h : (verdict model inst tape r).decision = some d) : Within r d.fillQty := by
  unfold verdict at h
  split at h
  · exact within_pendingVerdict hmodel h
  · split at h
    · exact within_stopVerdict hmodel h
    · split at h
      · exact within_aggressiveVerdict hmodel h
      · exact within_limitVerdict hmodel h

/-! ## Matching one order -/

/-- What is left of a resting order once `q` units of it have filled. -/
structure Continues (r : Resting) (q : ℕ) (r' : Resting) : Prop where
  clientOrderId : r'.order.clientOrderId = r.order.clientOrderId
  instrumentId : r'.order.instrumentId = r.order.instrumentId
  precision : r'.remaining.precision = r.remaining.precision
  raw_le : r'.remaining.raw ≤ r.remaining.raw - q

omit [DecimalWidth] in
theorem continues_applyVerdict (r : Resting) (v : Verdict) : Continues r 0 (applyVerdict r v) :=
  ⟨rfl, rfl, rfl, le_rfl⟩

omit [DecimalWidth] in
theorem Continues.fillResting {r' : Resting} (h : Continues r 0 r') (hd : Within r d.fillQty) :
    Continues r (if d.fillQty.isPositive then d.fillQty.raw else 0) (fillResting r' d) := by
  refine ⟨h.clientOrderId, h.instrumentId, ?_, ?_⟩
  · unfold SimulatedExecutionClient.fillResting
    split_ifs
    · cases hsub : r'.remaining.checkedSub d.fillQty with
      | ok q =>
        rw [Quantity.of_checkedSub hsub]
        exact h.precision
      | error e => exact hd.1
    · exact h.precision
  · have hle : r'.remaining.raw ≤ r.remaining.raw := h.raw_le
    unfold SimulatedExecutionClient.fillResting
    split_ifs
    · cases hsub : r'.remaining.checkedSub d.fillQty with
      | ok q =>
        rw [Quantity.of_checkedSub hsub]
        exact Nat.sub_le_sub_right hle _
      | error e => exact Nat.zero_le _
    · exact hle

/-- The venue once it has scheduled a fill of `r`. -/
def scheduled (model : BrokerageModel) (now : UnixNanos) (inst : Instrument) (r : Resting)
    (d : Decision) (s : SimState) : SimState :=
  let ts := saturatingAddNs now (model.latencyNs .submit)
  { s with
    tradeSeq := s.tradeSeq + 1
    queue := s.queue.push ts (.fill (makeFill model inst r (s.tradeSeq + 1) d ts)) }

/-- **What matching can do to one resting order.** It keeps or drops the order without a fill, or
schedules one positive fill within what remains and keeps the rest of the order, if any. -/
theorem matchOne_cases (hmodel : model.NeverOverfills) (now : UnixNanos) (inst : Instrument)
    (tape : Tape) (id : InstrumentId) (s : SimState) (r : Resting) :
    ∃ kept : List Resting, kept.length ≤ 1 ∧
      (((∀ r' ∈ kept, Continues r 0 r') ∧ matchOne model now inst tape id s r
          = { s with resting := s.resting ++ kept }) ∨
        ∃ d : Decision, 0 < d.fillQty.raw ∧ Within r d.fillQty ∧ r.order.instrumentId = id ∧
          (∀ r' ∈ kept, Continues r d.fillQty.raw r') ∧ matchOne model now inst tape id s r
            = { scheduled model now inst r d s with resting := s.resting ++ kept }) := by
  unfold matchOne
  by_cases hid : r.order.instrumentId = id
  · rw [if_neg (not_not.mpr hid)]
    have hverdict := continues_applyVerdict r (verdict model inst tape r)
    cases hdecision : (verdict model inst tape r).decision with
    | none =>
      simp only [hdecision]
      refine ⟨[applyVerdict r (verdict model inst tape r)], le_rfl, .inl ⟨?_, rfl⟩⟩
      rintro r' hr'
      rw [List.mem_singleton.mp hr']
      exact hverdict
    | some d =>
      have hwithin := within_of_verdict hmodel hdecision
      have hrest := hverdict.fillResting hwithin
      simp only [hdecision]
      set r'' := fillResting (applyVerdict r (verdict model inst tape r)) d
      have hkept : ∀ r' ∈ (if r''.remaining.isZero = true then [] else [r'']), r' = r'' := by
        intro r' hr'
        split_ifs at hr'
        · cases hr'
        · exact List.mem_singleton.mp hr'
      refine ⟨if r''.remaining.isZero = true then [] else [r''], by split_ifs <;> simp, ?_⟩
      by_cases hpos : d.fillQty.isPositive = true
      · right
        rw [if_pos hpos] at hrest
        refine ⟨d, of_decide_eq_true hpos, hwithin, hid, fun r' hr' ↦ hkept r' hr' ▸ hrest, ?_⟩
        simp only [schedule, if_pos hpos]
        split_ifs
        · rw [List.append_nil]
          rfl
        · rfl
      · left
        rw [if_neg hpos] at hrest
        refine ⟨fun r' hr' ↦ hkept r' hr' ▸ hrest, ?_⟩
        simp only [schedule, if_neg hpos]
        split_ifs
        · rw [List.append_nil]
        · rfl
  · rw [if_pos hid]
    refine ⟨[r], le_rfl, .inl ⟨?_, rfl⟩⟩
    rintro r' hr'
    rw [List.mem_singleton.mp hr']
    exact ⟨rfl, rfl, rfl, le_rfl⟩

end SimulatedExecutionClient

end Coinext
