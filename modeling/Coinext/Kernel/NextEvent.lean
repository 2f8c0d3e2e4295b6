import Coinext.Engine.Ledger
import Coinext.Kernel.Loop
import Coinext.Sim.Pricing

/-!
# No fill from the event an order was submitted on

An order that a strategy submits while an event is being processed reaches the venue after the venue
has matched its orders against that event, so nothing of that event, and of no earlier one, prices
it. `fills_after_submission` follows an order that is marketable when it is submitted: each of its
fills is decided by a later event of its instrument, the first such event at its open.

The first event need not fill the order. Where its open has gapped past the limit, or its volume
leaves nothing to fill, the order rests, and a later event fills it at its limit, or a market order
at a later bar's close (`not_fill_at_open_of_gap`).
-/

namespace Coinext

open SimulatedExecutionClient

/-! ## What an operation does to the cache and the venue -/

/-- Orders stay tracked, and instruments stay the same. -/
structure Cache.Grows (c c' : Cache) : Prop where
  orders : ∀ id, c.order id ≠ none → c'.order id ≠ none
  instruments : c'.instruments = c.instruments

namespace Cache.Grows

variable {c c' c'' : Cache}

theorem refl : c.Grows c := ⟨fun _ h ↦ h, rfl⟩

theorem trans (h : c.Grows c') (h' : c'.Grows c'') : c.Grows c'' :=
  ⟨fun id hid ↦ h'.orders id (h.orders id hid), h'.instruments.trans h.instruments⟩

theorem setOrder (id : ClientOrderId) (o : Order) : c.Grows (c.setOrder id o) := by
  refine ⟨fun id' hid' ↦ ?_, rfl⟩
  change (c.orders.insert id o).lookup id' ≠ none
  by_cases h : id' = id
  · rw [h, AList.lookup_insert]
    exact Option.some_ne_none o
  · rw [AList.lookup_insert_ne h]
    exact hid'

theorem addOrder (o : Order) : c.Grows (c.addOrder o) := setOrder o.clientOrderId o

theorem upsertPosition (pos : Position) : c.Grows (c.upsertPosition pos) := ⟨fun _ h ↦ h, rfl⟩

theorem process (ev : MarketEvent) : c.Grows (c.process ev) := by
  cases ev <;> exact ⟨fun _ h ↦ h, rfl⟩

end Cache.Grows

section Ops

variable [DecimalWidth] (model : BrokerageModel)

theorem ExecutionEngine.grows_applyToOrder (id : ClientOrderId) (ev : OrderEvent) (s : Oms) :
    s.cache.Grows (applyToOrder id ev s).2.cache :=
  applyToOrder_induction (I := fun s' ↦ s.cache.Grows s'.cache)
    (fun _ id o h ↦ h.trans (.setOrder id o)) .refl id ev

theorem ExecutionEngine.grows_applyReport (report : ExecutionReport) (now : UnixNanos) (s : Oms) :
    s.cache.Grows (applyReport report now s).2.cache := by
  refine applyReport_induction (I := fun s' ↦ s.cache.Grows s'.cache)
    (fun _ id o h ↦ h.trans (.setOrder id o)) (fun _ _ h ↦ h) (fun s' f h ↦ h.trans ?_) .refl
    report now
  unfold foldPosition
  split
  · exact .refl
  · exact .upsertPosition _

theorem Core.grows_step (c : Core) (op : CoreOp) :
    c.oms.cache.Grows (c.step model op).oms.cache := by
  cases op with
  | applyNext =>
    rcases c.applyNext_cases model with ⟨-, heq⟩ | ⟨r, rest, -, heq⟩
    · rw [heq]
      exact .refl
    · rw [heq]
      exact ExecutionEngine.grows_applyReport r c.clock.now c.oms
  | submit risk portfolio order now =>
    change c.oms.cache.Grows (ExecutionEngine.submit ..).2.cache
    obtain heq | ⟨ev, s', heq, -, -, hcache, -⟩ :=
      ExecutionEngine.submit_cases risk portfolio model c.clock.now order now c.oms
    · rw [heq]
      exact .refl
    · rw [heq, hcache]
      exact .addOrder _
  | cancel id now => exact ExecutionEngine.grows_applyToOrder id (.pendingCancel now) c.oms
  | process ev => exact .process ev
  | closeAt iid px now tagSuffix =>
    rcases c.closeAt_cases model iid px now tagSuffix with ⟨-, heq⟩ | ⟨inst, pos, f, -, heq⟩
    · rw [heq]
      exact .refl
    · rw [heq]
      exact .upsertPosition _
  | _ => exact .refl

theorem Core.grows_foldl (c : Core) (ops : List CoreOp) :
    c.oms.cache.Grows (ops.foldl (Core.step model) c).oms.cache := by
  induction ops generalizing c with
  | nil => exact .refl
  | cons op ops ih => exact (c.grows_step model op).trans (ih _)

theorem Core.instrument_foldl (c : Core) (ops : List CoreOp) (iid : InstrumentId) :
    (ops.foldl (Core.step model) c).oms.cache.instrument iid = c.oms.cache.instrument iid := by
  rw [Cache.instrument, (c.grows_foldl model ops).instruments]
  rfl

/-- The fills that the venue schedules in an operation. -/
def Core.newFills (c : Core) : CoreOp → List Fill
  | .onMarket ev =>
    (onMarket model c.oms.cache c.clock.now ev c.oms.sim).fills.diff c.oms.sim.fills
  | _ => []

theorem Core.issued_step (c : Core) (op : CoreOp) :
    (c.step model op).issued = c.issued ++ c.newFills model op := by
  cases op with
  | onMarket ev => rfl
  | applyNext =>
    refine Eq.trans ?_ (List.append_nil _).symm
    cases hpending : c.pending <;> simp [Core.step, Core.exec, hpending]
  | closeAt iid px now tagSuffix =>
    refine Eq.trans ?_ (List.append_nil _).symm
    cases hclosing : c.oms.closing iid px now tagSuffix <;> simp [Core.step, Core.exec, hclosing]
  | _ => exact (List.append_nil _).symm

/-- **Where resting orders come from.** Matching leaves what it does not complete; a submitted order
is new to the cache; everything else leaves resting orders alone or withdraws one. -/
theorem Core.mem_resting_step (c : Core) (op : CoreOp) (hop : ∀ ev, op ≠ .onMarket ev)
    {r : Resting} (hr : r ∈ (c.step model op).oms.sim.resting) :
    r ∈ c.oms.sim.resting ∨ ∃ risk portfolio order now, op = .submit risk portfolio order now
      ∧ c.oms.cache.order r.order.clientOrderId = none
      ∧ (c.step model op).oms.cache.order r.order.clientOrderId ≠ none := by
  cases op with
  | onMarket ev => exact absurd rfl (hop ev)
  | submit risk portfolio order now =>
    obtain heq | ⟨ev, s', heq, hnone, ⟨inst, hinst⟩, hcache, -, ⟨reason, -, hsim⟩ | ⟨-, hsim⟩⟩ :=
      ExecutionEngine.submit_cases risk portfolio model c.clock.now order now c.oms
    · left
      change r ∈ (ExecutionEngine.submit ..).2.sim.resting at hr
      rwa [heq] at hr
    · left
      change r ∈ (ExecutionEngine.submit ..).2.sim.resting at hr
      rwa [heq, hsim] at hr
    · have hid : (order.applied ev).clientOrderId = order.clientOrderId :=
        (order.sameTerms_applied ev).clientOrderId
      have hknown : s'.cache.instrument (order.applied ev).instrumentId = some inst := by
        rw [hcache, (order.sameTerms_applied ev).instrumentId]
        exact hinst
      obtain ⟨v, r₀, horder, -, hsubmit⟩ := onSubmit_eq model c.clock.now hknown c.oms.sim
      change r ∈ (ExecutionEngine.submit ..).2.sim.resting at hr
      rw [heq, hsim, hsubmit, List.mem_append, List.mem_singleton] at hr
      rcases hr with hr | rfl
      · exact .inl hr
      · refine .inr ⟨risk, portfolio, order, now, rfl, ?_, ?_⟩
        · rw [horder, hid]
          exact hnone
        · change (ExecutionEngine.submit ..).2.cache.order _ ≠ none
          rw [heq, hcache, horder]
          change (AList.insert _ _ _).lookup _ ≠ none
          rw [AList.lookup_insert]
          exact Option.some_ne_none _
  | cancel id now =>
    left
    change r ∈ (onCancel model c.clock.now id
      (ExecutionEngine.applyToOrder id (.pendingCancel now) c.oms).2.sim).resting at hr
    rw [ExecutionEngine.sim_applyToOrder] at hr
    unfold onCancel at hr
    split_ifs at hr
    · exact List.mem_of_mem_eraseP hr
    · exact hr
  | applyNext =>
    left
    rwa [(Core.step_applyNext model c).2.2] at hr
  | closeAt iid px now tagSuffix =>
    left
    cases hclosing : c.oms.closing iid px now tagSuffix with
    | none => simpa only [Core.step, Core.exec, hclosing] using hr
    | some x => simpa only [Core.step, Core.exec, hclosing] using hr
  | _ => exact .inl hr

/-! ## Fills belong to tracked orders -/

/-- Orders of the venue are tracked, and so are the orders of its fills; a fill that is on its way
was scheduled. -/
structure Accounted (c : Core) : Prop where
  resting : ∀ r ∈ c.oms.sim.resting, c.oms.cache.order r.order.clientOrderId ≠ none
  issued : ∀ f ∈ c.issued, c.oms.cache.order f.clientOrderId ≠ none
  queued : ∀ f ∈ c.oms.sim.fills, f ∈ c.issued
  pending : ∀ f, .fill f ∈ c.pending → f ∈ c.issued

variable {model} {c : Core}

/-- A fill that an operation schedules is for an order that rested before it. -/
theorem Core.mem_newFills {op : CoreOp} {f : Fill} (hf : f ∈ c.newFills model op) :
    ∃ ev, op = .onMarket ev ∧ ∃ inst tape, Offers c.oms.cache ev inst tape
      ∧ ∃ r ∈ c.oms.sim.resting, r.order.instrumentId = ev.instrumentId
        ∧ Decides model c.clock.now inst tape r f := by
  cases op with
  | onMarket ev =>
    obtain ⟨new, hperm, hnew, -⟩ : ∃ new, (onMarket model c.oms.cache c.clock.now ev
      c.oms.sim).fills.Perm (new ++ c.oms.sim.fills) ∧ _ ∧ _ := onMarket_spec _ ev c.oms.sim
    exact ⟨ev, rfl, hnew f ((diff_perm_of_perm_append hperm).subset hf)⟩
  | _ => exact absurd hf List.not_mem_nil

omit [DecimalWidth] in
theorem mem_of_mem_push {q : DueQueue ExecutionReport} {d : ℕ} {x : ExecutionReport} {f : Fill}
    (hx : x.fill? = none) (hf : f ∈ (q.push d x).items.filterMap ExecutionReport.fill?) :
    f ∈ q.items.filterMap ExecutionReport.fill? := by
  have hperm := (q.items_push_perm d x).filterMap ExecutionReport.fill?
  rw [List.filterMap_cons_none hx] at hperm
  exact hperm.subset hf

theorem Core.mem_fills_step {op : CoreOp} {f : Fill} (hf : f ∈ (c.step model op).oms.sim.fills) :
    f ∈ c.oms.sim.fills ∨ f ∈ c.newFills model op := by
  cases op with
  | onMarket ev =>
    by_cases hold : f ∈ c.oms.sim.fills
    · exact .inl hold
    · exact .inr (List.mem_diff_of_mem hf hold)
  | drain frontier =>
    left
    obtain ⟨report, hreport, hfill⟩ := List.mem_filterMap.mp hf
    refine List.mem_filterMap.mpr ⟨report, ?_, hfill⟩
    exact (List.Sublist.map Timed.item (List.dropWhile_sublist _)).subset hreport
  | submit risk portfolio order now =>
    left
    change f ∈ (ExecutionEngine.submit ..).2.sim.fills at hf
    obtain heq | ⟨ev, s', heq, -, -, -, -, ⟨reason, -, hsim⟩ | ⟨-, hsim⟩⟩ :=
      ExecutionEngine.submit_cases risk portfolio model c.clock.now order now c.oms
    · rwa [heq] at hf
    · rwa [heq, hsim] at hf
    · rw [heq, hsim] at hf
      unfold onSubmit at hf
      split at hf
      · exact hf
      · exact mem_of_mem_push rfl hf
  | cancel id now =>
    left
    change f ∈ (onCancel model c.clock.now id
      (ExecutionEngine.applyToOrder id (.pendingCancel now) c.oms).2.sim).fills at hf
    rw [ExecutionEngine.sim_applyToOrder] at hf
    unfold onCancel at hf
    split_ifs at hf
    · exact mem_of_mem_push rfl hf
    · exact hf
  | applyNext =>
    left
    rwa [(Core.step_applyNext model c).2.2] at hf
  | closeAt iid px now tagSuffix =>
    left
    cases hclosing : c.oms.closing iid px now tagSuffix with
    | none => simpa only [Core.step, Core.exec, hclosing] using hf
    | some x => simpa only [Core.step, Core.exec, hclosing] using hf
  | _ => exact .inl hf

theorem Core.mem_pending (op : CoreOp) {r : ExecutionReport}
    (hr : r ∈ (c.step model op).pending) : r ∈ c.pending
      ∨ ∃ frontier, op = .drain frontier ∧ ∃ e ∈ c.oms.sim.queue.due frontier, e.item = r := by
  by_cases hop : op.IsPlain
  · rw [(Core.step_of_isPlain model hop c).1] at hr
    exact .inl hr
  · cases op with
    | advance ts => exact .inl hr
    | drain frontier =>
      refine (List.mem_append.mp hr).imp_right fun hdrained ↦ ⟨frontier, rfl, ?_⟩
      exact List.mem_map.mp hdrained
    | applyNext =>
      rw [(Core.step_applyNext model c).1] at hr
      exact .inl (List.mem_of_mem_tail hr)
    | _ => exact absurd trivial hop

theorem Core.mem_pending_step {op : CoreOp} {f : Fill} (hf : .fill f ∈ (c.step model op).pending) :
    .fill f ∈ c.pending ∨ f ∈ c.oms.sim.fills := by
  refine (Core.mem_pending op hf).imp_right ?_
  rintro ⟨frontier, -, e, he, hitem⟩
  refine List.mem_filterMap.mpr ⟨.fill f, List.mem_map.mpr ⟨e, ?_, hitem⟩, rfl⟩
  exact (List.takeWhile_sublist _).subset he

theorem Accounted.step (h : Accounted c) (op : CoreOp) : Accounted (c.step model op) := by
  have hgrows := Core.grows_step model c op
  have hissued := Core.issued_step model c op
  refine ⟨fun r hr ↦ ?_, fun f hf ↦ ?_, fun f hf ↦ ?_, fun f hf ↦ ?_⟩
  · by_cases hop : ∃ ev, op = .onMarket ev
    · obtain ⟨ev, rfl⟩ := hop
      obtain ⟨-, -, -, hkept⟩ : ∃ new, (onMarket model c.oms.cache c.clock.now ev
        c.oms.sim).fills.Perm (new ++ c.oms.sim.fills) ∧ _ ∧ _ := onMarket_spec _ ev c.oms.sim
      obtain ⟨r₀, hr₀, ⟨rfl, -⟩ | ⟨inst, tape, -, -, hleft⟩⟩ := hkept r hr
      · exact hgrows.orders _ (h.resting r hr₀)
      · rw [hleft.order]
        exact hgrows.orders _ (h.resting r₀ hr₀)
    · rcases Core.mem_resting_step model c op (fun ev hev ↦ hop ⟨ev, hev⟩) hr with
        hold | ⟨-, -, -, -, -, -, hnew⟩
      · exact hgrows.orders _ (h.resting r hold)
      · exact hnew
  · rw [hissued, List.mem_append] at hf
    rcases hf with hf | hf
    · exact hgrows.orders _ (h.issued f hf)
    · obtain ⟨ev, -, inst, tape, -, r, hr, -, hdecides⟩ := Core.mem_newFills hf
      rw [hdecides.clientOrderId]
      exact hgrows.orders _ (h.resting r hr)
  · rw [hissued, List.mem_append]
    exact (Core.mem_fills_step hf).imp_left (h.queued f)
  · rw [hissued, List.mem_append]
    exact .inl ((Core.mem_pending_step hf).elim (h.pending f) (h.queued f))

/-! ## Following one order -/

omit [DecimalWidth] in
/-- The operation matches an event that offers something to orders of the instrument. -/
def CoreOp.offers (iid : InstrumentId) : CoreOp → Bool
  | .onMarket ev => ev.instrumentId = iid ∧ (tape? ev).isSome
  | _ => false

/-- An order that was sent to the venue. The venue holds it only as it was sent, and as long as
`first` holds, it waits for the first event of its instrument. -/
structure Follows (sent : Order) (first : Bool) (c : Core) : Prop where
  tracked : c.oms.cache.order sent.clientOrderId ≠ none
  known : c.oms.cache.instrument sent.instrumentId ≠ none
  resting : ∀ r ∈ c.oms.sim.resting, r.order.clientOrderId = sent.clientOrderId →
    r.order = sent ∧ r.pendingOpen = first

variable {sent : Order} {first : Bool}

omit [DecimalWidth] in
theorem Follows.exists_offers (h : Follows sent first c) {ev : MarketEvent}
    (hoffers : (CoreOp.onMarket ev).offers sent.instrumentId = true) :
    ev.instrumentId = sent.instrumentId ∧ ∃ inst tape, Offers c.oms.cache ev inst tape := by
  obtain ⟨hid, htape⟩ := of_decide_eq_true hoffers
  obtain ⟨inst, hinst⟩ := Option.ne_none_iff_exists'.mp h.known
  obtain ⟨tape, htape⟩ := Option.isSome_iff_exists.mp htape
  exact ⟨hid, inst, tape, hid ▸ hinst, htape⟩

omit [DecimalWidth] in
theorem offers_of_offers {ev : MarketEvent} {inst : Instrument} {tape : Tape}
    (hoffers : Offers c.oms.cache ev inst tape) (hid : sent.instrumentId = ev.instrumentId) :
    (CoreOp.onMarket ev).offers sent.instrumentId = true :=
  decide_eq_true ⟨hid.symm, Option.isSome_iff_exists.mpr ⟨tape, hoffers.2⟩⟩

/-- **One operation.** -/
theorem Follows.step (h : Follows sent first c) (htype : sent.IsMarketOrLimit) (op : CoreOp) :
    Follows sent (first && !op.offers sent.instrumentId) (c.step model op) := by
  have hgrows := Core.grows_step model c op
  refine ⟨hgrows.orders _ h.tracked, ?_, fun r hr hid ↦ ?_⟩
  · rw [Cache.instrument, hgrows.instruments]
    exact h.known
  · by_cases hop : ∃ ev, op = .onMarket ev
    · obtain ⟨ev, rfl⟩ := hop
      obtain ⟨-, -, -, hkept⟩ : ∃ new, (onMarket model c.oms.cache c.clock.now ev
        c.oms.sim).fills.Perm (new ++ c.oms.sim.fills) ∧ _ ∧ _ := onMarket_spec _ ev c.oms.sim
      obtain ⟨r₀, hr₀, ⟨rfl, hother⟩ | ⟨inst, tape, hoffers, hinst, hleft⟩⟩ := hkept r hr
      · -- the event does not concern the order
        obtain ⟨horder, hpending⟩ := h.resting r hr₀ hid
        refine ⟨horder, ?_⟩
        have hnot : (CoreOp.onMarket ev).offers sent.instrumentId = false := by
          rw [Bool.eq_false_iff]
          intro hoffers
          obtain ⟨hev, inst, tape, hsome⟩ := h.exists_offers hoffers
          exact hother inst tape hsome (by rw [horder, hev])
        rw [hpending, hnot, Bool.not_false, Bool.and_true]
      · have hid₀ : r₀.order.clientOrderId = sent.clientOrderId := by
          rw [hleft.order] at hid
          exact hid
        obtain ⟨horder, -⟩ := h.resting r₀ hr₀ hid₀
        obtain ⟨hkeep, hcleared⟩ : (applyVerdict r₀ (verdict model inst tape r₀)).order = r₀.order
            ∧ _ := applyVerdict_of_isMarketOrLimit (horder ▸ htype)
        refine ⟨hleft.order.trans (hkeep.trans horder), ?_⟩
        rw [hleft.pendingOpen, hcleared, offers_of_offers hoffers (horder ▸ hinst), Bool.not_true,
          Bool.and_false]
    · have hnot : op.offers sent.instrumentId = false := by
        cases op with
        | onMarket ev => exact absurd ⟨ev, rfl⟩ hop
        | _ => rfl
      rw [hnot, Bool.not_false, Bool.and_true]
      rcases Core.mem_resting_step model c op (fun ev hev ↦ hop ⟨ev, hev⟩) hr with
        hold | ⟨-, -, -, -, -, hnone, -⟩
      · exact h.resting r hold hid
      · exact absurd (hid ▸ hnone) h.tracked

/-- **A whole run.** The first event has not come as long as no operation offers anything. -/
theorem Follows.run (h : Follows sent true c) (htype : sent.IsMarketOrLimit) (ops : List CoreOp) :
    Follows sent (ops.all fun op ↦ !op.offers sent.instrumentId)
      (ops.foldl (Core.step model) c) := by
  induction ops using List.reverseRecOn with
  | nil => exact h
  | append_singleton ops op ih =>
    rw [List.foldl_append, List.all_append, List.all_cons, List.all_nil, Bool.and_true]
    exact ih.step htype op

/-- A fill of an order we follow has its price from the event that decides it. -/
theorem Follows.priced (h : Follows sent first c) (htype : sent.IsMarketOrLimit) {op : CoreOp}
    {f : Fill} (hf : f ∈ c.newFills model op) (hid : f.clientOrderId = sent.clientOrderId) :
    ∃ ev inst tape, op = .onMarket ev ∧ ev.instrumentId = sent.instrumentId
      ∧ Offers c.oms.cache ev inst tape
      ∧ Priced model inst tape sent first f.lastPx f.liquidity := by
  obtain ⟨ev, hop, inst, tape, hoffers, r, hr, hinst, hdecides⟩ := Core.mem_newFills hf
  have hr' := h.resting r hr (hdecides.clientOrderId.symm.trans hid)
  obtain ⟨horder, hpending⟩ := hr'
  obtain ⟨n, d, hdecision, rfl⟩ := hdecides
  refine ⟨ev, inst, tape, hop, ?_, hoffers, ?_⟩
  · rw [← horder, hinst]
  · rw [← horder, ← hpending]
    exact priced_of_verdict (horder ▸ htype) hdecision

/-! ## Submitting -/

theorem price_applied_submitted (order : Order) (now : UnixNanos) :
    (order.applied (.submitted now)).price = order.price := by
  rcases order.applied_cases (.submitted now) with ⟨p, -, heff, hp⟩ | hsame
  · rw [hp]
    cases heff
    rfl
  · rw [hsame]

omit [DecimalWidth] in
theorem isMarketOrLimit_of_marketable {cache : Cache} {order : Order}
    (h : marketable cache order = true) : order.IsMarketOrLimit := by
  unfold marketable at h
  split at h
  · exact .inl ‹_›
  · exact .inr ‹_›
  · cases h

theorem marketable_applied_submitted {cache : Cache} {order : Order} (o : Order) (now : UnixNanos) :
    marketable (cache.addOrder o) (order.applied (.submitted now)) = marketable cache order := by
  have hterms := order.sameTerms_applied (.submitted now)
  unfold marketable
  rw [hterms.orderType, hterms.instrumentId, hterms.side, price_applied_submitted]
  rfl

/-- An order that reaches the venue marketable is followed from then on. -/
theorem Accounted.follows (h : Accounted c) {risk : RiskEngine} {portfolio : Portfolio}
    {order : Order} {now : UnixNanos}
    (hsubmitted : (c.exec model (.submit risk portfolio order now)).1 = [.submitted now])
    (hmarketable : marketable c.oms.cache order = true) :
    c.oms.cache.order order.clientOrderId = none ∧ Follows (order.applied (.submitted now)) true
      (c.step model (.submit risk portfolio order now)) := by
  have hterms := order.sameTerms_applied (.submitted now)
  change (ExecutionEngine.submit ..).1 = _ at hsubmitted
  obtain heq | ⟨ev, s', heq, hnone, ⟨inst, hinst⟩, hcache, -, ⟨reason, rfl, -⟩ | ⟨rfl, hsim⟩⟩ :=
    ExecutionEngine.submit_cases risk portfolio model c.clock.now order now c.oms
  · rw [heq] at hsubmitted
    cases hsubmitted
  · rw [heq] at hsubmitted
    cases hsubmitted
  refine ⟨hnone, ?_⟩
  have hknown : s'.cache.instrument (order.applied (.submitted now)).instrumentId = some inst := by
    rw [hcache, hterms.instrumentId]
    exact hinst
  have hstep : (c.step model (.submit risk portfolio order now)).oms = s' := by
    change (ExecutionEngine.submit ..).2 = s'
    rw [heq]
  refine ⟨?_, ?_, fun r hr hid ↦ ?_⟩
  · rw [hstep, hcache]
    change (AList.insert _ _ _).lookup _ ≠ none
    rw [AList.lookup_insert]
    exact Option.some_ne_none _
  · rw [hstep, hknown]
    exact Option.some_ne_none inst
  · rw [hstep, hsim] at hr
    simp only [onSubmit, hknown, List.mem_append, List.mem_singleton] at hr
    rcases hr with hr | rfl
    · -- an order that rested before is tracked under another id
      rw [hterms.clientOrderId] at hid
      exact absurd (hid ▸ hnone) (h.resting r hr)
    · refine ⟨rfl, ?_⟩
      change marketable s'.cache (order.applied (.submitted now)) = true
      rw [hcache, marketable_applied_submitted]
      exact hmarketable

end Ops

/-! ## Runs -/

namespace BacktestKernel

section Run

variable {σ : Type} [DecimalWidth] {setup : Setup σ} {k : BacktestKernel σ}
  {events : List MarketEvent}

variable (setup) in
/-- The core after a record of operations. -/
def coreAfter (ops : List CoreOp) : Core :=
  ops.foldl (Core.step setup.config.brokerage) (initialCore setup.config)

theorem accounted_coreAfter (ops : List CoreOp) : Accounted (coreAfter setup ops) := by
  refine foldl_induction (fun c op h ↦ h.step op) ?_ ops
  exact ⟨fun r hr ↦ absurd hr List.not_mem_nil, fun f hf ↦ absurd hf List.not_mem_nil,
    fun f hf ↦ absurd hf List.not_mem_nil, fun f hf ↦ absurd hf List.not_mem_nil⟩

/-- A venue that matches an event has just had it published. -/
def Published (ops : List CoreOp) : Prop :=
  ∀ front ev back, ops = front ++ .onMarket ev :: back → ∃ front', front = front' ++ [.process ev]

omit [DecimalWidth] in
theorem Published.concat {ops : List CoreOp} (h : Published ops) (op : CoreOp)
    (hop : ∀ ev, op = .onMarket ev → ∃ front, ops = front ++ [.process ev]) :
    Published (ops ++ [op]) := by
  intro front ev back heq
  rcases List.eq_nil_or_concat back with rfl | ⟨back', last, rfl⟩
  · obtain ⟨rfl, hlast⟩ := List.append_inj' heq rfl
    exact hop ev (List.head_eq_of_cons_eq hlast)
  · rw [List.concat_eq_append, ← List.cons_append, ← List.append_assoc] at heq
    exact h front ev back' (List.append_inj' heq rfl).1

omit [DecimalWidth] in
theorem Published.append {ops l : List CoreOp} (h : Published ops)
    (hl : ∀ op ∈ l, ¬ op.IsMarket) : Published (ops ++ l) := by
  induction l using List.reverseRecOn with
  | nil => rwa [List.append_nil]
  | append_singleton l op ih =>
    rw [← List.append_assoc]
    refine (ih fun op' hop' ↦ hl op' (List.mem_append_left _ hop')).concat op ?_
    rintro ev rfl
    exact absurd trivial (hl _ (List.mem_append_right _ List.mem_cons_self))

variable (setup) in
theorem preserved_published : Preserved setup fun _ (k : BacktestKernel σ) ↦ Published k.ops := by
  refine ⟨fun _ k op hop hk ↦ ?_, fun ev _ k hk ↦ ?_, fun _ _ _ hk ↦ hk,
    fun _ k k' hmove hk ↦ ?_⟩
  · exact hk.append fun op' hop' ↦ List.mem_singleton.mp hop' ▸ hop
  · have hpublish : Published (k.ops ++ [.process ev]) :=
      hk.concat (.process ev) fun ev' hev' ↦ by cases hev'
    refine hpublish.concat (.onMarket ev) fun ev' hev' ↦ ?_
    cases hev'
    exact ⟨k.ops, rfl⟩
  · obtain ⟨l, hops, hquiet, -⟩ := hmove.run
    rw [hops]
    exact hk.append fun op hop ↦ (hquiet op hop).not_isMarket

/-- The events that are published and those that are left make up the sorted input, and an event is
matched as soon as it is published. -/
theorem Reached.published (h : Reached setup events k) :
    dispatched k.ops <+: sortedEvents events ∧ Published k.ops := by
  have hI := (preserved_dispatched setup events).and (preserved_published setup)
  obtain ⟨feed, hfeed, hpublished⟩ := h.preserved hI
    ⟨List.nil_append _, fun front ev back hnil ↦ by simp [build] at hnil⟩
  exact ⟨⟨feed, hfeed⟩, hpublished⟩

variable (setup) in
/-- How a fill comes about: `front` are the operations before the submission, and `mid` those
between the submission and the event that decides the fill. -/
structure DecidedLater (events : List MarketEvent) (front mid : List CoreOp) (submission : CoreOp)
    (order : Order) (now : UnixNanos) (ev : MarketEvent) (f : Fill) : Prop where
  /-- The event comes later in the input than all events published before the submission. -/
  later : (sortedEvents events)[(dispatched front).length + (dispatched mid).length]? = some ev
  instrument : ev.instrumentId = order.instrumentId
  /-- The venue schedules the fill when it matches its orders against the event. -/
  scheduled : f ∈ (coreAfter setup (front ++ submission :: (mid ++ [.process ev]))).newFills
    setup.config.brokerage (.onMarket ev)
  /-- The first event of the instrument prices at its open, later ones at the limit or the close. -/
  priced : ∃ inst tape, Offers
    (coreAfter setup (front ++ submission :: (mid ++ [.process ev]))).oms.cache ev inst tape
    ∧ Priced setup.config.brokerage inst tape (order.applied (.submitted now))
      (mid.all fun op ↦ !op.offers order.instrumentId) f.lastPx f.liquidity
  withinLimit : order.WithinLimit f.lastPx

omit [DecimalWidth] in
/-- An event that is matched after a submission was also published after it. -/
theorem Published.of_submit {front mid back : List CoreOp} {risk : RiskEngine}
    {portfolio : Portfolio} {order : Order} {now : UnixNanos} {ev : MarketEvent}
    (h : Published (front ++ .submit risk portfolio order now :: (mid ++ .onMarket ev :: back))) :
    ∃ mid', mid = mid' ++ [.process ev] := by
  obtain ⟨front', hfront⟩ := h (front ++ .submit risk portfolio order now :: mid) ev back
    (by rw [List.append_assoc, List.cons_append])
  rcases List.eq_nil_or_concat mid with rfl | ⟨mid', last, rfl⟩
  · cases (List.append_inj' hfront rfl).2
  · rw [List.concat_eq_append, ← List.cons_append, ← List.append_assoc] at hfront
    cases (List.append_inj' hfront rfl).2
    exact ⟨mid', List.concat_eq_append⟩

/-- **No fill from the event an order was submitted on.** An order that reaches the venue marketable
has no fill before, and each of its fills is decided by a later event of its instrument. Whatever
fill is folded was scheduled by the venue. -/
theorem fills_after_submission (events : List MarketEvent) (k : BacktestKernel σ)
    (hk : Reached setup events k) (front rest : List CoreOp) (risk : RiskEngine)
    (portfolio : Portfolio) (order : Order) (now : UnixNanos)
    (hops : k.ops = front ++ .submit risk portfolio order now :: rest)
    (hsubmitted : ((coreAfter setup front).exec setup.config.brokerage
      (.submit risk portfolio order now)).1 = [.submitted now])
    (hmarketable : marketable (coreAfter setup front).oms.cache order = true) :
    (∀ f ∈ (coreAfter setup front).issued, f.clientOrderId ≠ order.clientOrderId)
      ∧ (∀ f ∈ k.core.issued, f.clientOrderId = order.clientOrderId → ∃ mid ev back,
        rest = mid ++ .process ev :: .onMarket ev :: back ∧ DecidedLater setup events front mid
          (.submit risk portfolio order now) order now ev f)
      ∧ ∀ ops, ops ++ [.applyNext] <+: k.ops → ∀ f,
        (coreAfter setup ops).pending.head? = some (.fill f) → f ∈ k.core.issued := by
  set model := setup.config.brokerage
  have haccounted : Accounted (coreAfter setup front) := accounted_coreAfter front
  have hterms := order.sameTerms_applied (.submitted now)
  have htype : (order.applied (.submitted now)).IsMarketOrLimit := by
    unfold Order.IsMarketOrLimit
    rw [hterms.orderType]
    exact isMarketOrLimit_of_marketable hmarketable
  obtain ⟨hnone, hfollows⟩ := haccounted.follows hsubmitted hmarketable
  have hbefore : ∀ f ∈ (coreAfter setup front).issued, f.clientOrderId ≠ order.clientOrderId :=
    fun f hf hid ↦ haccounted.issued f hf (hid ▸ hnone)
  have hcore (ops : List CoreOp) :
      coreAfter setup (front ++ .submit risk portfolio order now :: ops)
      = ops.foldl (Core.step model) ((coreAfter setup front).step model
        (.submit risk portfolio order now)) := by
    rw [coreAfter, List.foldl_append]
    rfl
  have hreplays : k.core = coreAfter setup k.ops := hk.replays
  refine ⟨hbefore, fun f hf hid ↦ ?_, ?_⟩
  · rw [hreplays, hops, hcore] at hf
    rcases exists_of_mem_log (Core.issued_step model) hf with hold | ⟨mid', op, back, rfl, hnew⟩
    · rw [Core.issued_step] at hold
      change f ∈ (coreAfter setup front).issued ++ [] at hold
      rw [List.append_nil] at hold
      exact absurd hid (hbefore f hold)
    · -- the operation matches an event, which has just been published
      obtain ⟨ev, inst, tape, rfl, hev, hoffers, hpriced⟩ :=
        (hfollows.run htype mid').priced htype hnew (hid.trans hterms.clientOrderId.symm)
      obtain ⟨hinitial, hpublished⟩ := hk.published
      rw [hops] at hpublished hinitial
      obtain ⟨mid, rfl⟩ := hpublished.of_submit
      rw [hterms.instrumentId] at hev hpriced
      rw [List.all_append, List.all_cons, List.all_nil, show CoreOp.offers order.instrumentId
        (.process ev) = false from rfl, Bool.not_false, Bool.and_true, Bool.and_true] at hpriced
      rw [← hcore] at hnew hoffers
      refine ⟨mid, ev, back, List.append_assoc .., ?_, hev, hnew, ⟨inst, tape, hoffers, hpriced⟩,
        fun limit hlimit ↦ ?_⟩
      · obtain ⟨left, hleft⟩ := hinitial
        have hsplit : dispatched (front ++ .submit risk portfolio order now
            :: (mid ++ [.process ev] ++ .onMarket ev :: back))
            = dispatched front ++ dispatched mid ++ ev :: dispatched back := by
          rw [dispatched, List.filterMap_append, List.filterMap_cons_none rfl,
            List.filterMap_append, List.filterMap_append, List.append_assoc, ← List.append_assoc]
          rfl
        rw [← hleft, hsplit, List.append_assoc _ _ left, ← List.length_append,
          List.getElem?_append_right le_rfl, Nat.sub_self]
        rfl
      · have hwithin := hpriced.withinLimit limit ((price_applied_submitted order now).trans hlimit)
        rwa [hterms.side] at hwithin
  · rintro ops ⟨rest', hrest⟩ f hhead
    have hissued : f ∈ (coreAfter setup ops).issued :=
      (accounted_coreAfter ops).pending f (List.mem_of_mem_head? hhead)
    rw [hreplays, ← hrest, coreAfter, List.foldl_append, List.foldl_append]
    refine foldl_induction (I := fun c : Core ↦ f ∈ c.issued) (fun c op hc ↦ ?_) ?_ rest'
    · rw [Core.issued_step]
      exact List.mem_append_left _ hc
    · exact (Core.issued_step model (coreAfter setup ops) .applyNext).symm ▸
        List.mem_append_left _ hissued

end Run

section Instances

open scoped RustDecimal

/-- The order and the time of a submission. -/
def submission? : CoreOp → Option (Order × UnixNanos)
  | .submit _ _ order now => some (order, now)
  | _ => none

/-- The event that the venue matches. -/
def matched? : CoreOp → Option MarketEvent
  | .onMarket ev => some ev
  | _ => none

theorem exists_submit_of_submission? {ops : List CoreOp} {n : ℕ} {order : Order} {now : UnixNanos}
    (h : ops[n]?.bind submission? = some (order, now)) :
    ∃ risk portfolio, ops[n]? = some (.submit risk portfolio order now) := by
  obtain ⟨op, hop, hsubmission⟩ := Option.bind_eq_some_iff.mp h
  cases op with
  | submit risk portfolio order' now' =>
    cases hsubmission
    exact ⟨risk, portfolio, hop⟩
  | _ => cases hsubmission

theorem getElem?_eq_onMarket_of_matched? {ops : List CoreOp} {n : ℕ} {ev : MarketEvent}
    (h : ops[n]?.bind matched? = some ev) : ops[n]? = some (.onMarket ev) := by
  obtain ⟨op, hop, hmatched⟩ := Option.bind_eq_some_iff.mp h
  cases op with
  | onMarket ev' =>
    cases hmatched
    exact hop
  | _ => cases hmatched

theorem eq_append_cons_of_getElem? {α : Type} {l : List α} {n : ℕ} {a : α} (h : l[n]? = some a) :
    l = l.take n ++ a :: l.drop (n + 1) := by
  obtain ⟨hn, rfl⟩ := List.getElem?_eq_some_iff.mp h
  rw [List.getElem_cons_drop, List.take_append_drop]

/-- On the first bar, the strategy bids ten for one contract. Reports come without latency. -/
def bidOnce : Setup Bool where
  config := ⟨[Position.perp false], ⟨"USDT", 2, two_le_maxPrecision⟩,
    ⟨100000, ⟨"USDT", 2, two_le_maxPrecision⟩⟩,
    .unlimited, ({ latencyNs := 0 } : DefaultBrokerageModel).brokerage, 0⟩
  strategyId := ⟨"S"⟩
  strategy := ⟨fun sent cb ↦ match sent, cb with
    | false, .bar _ => .submitLimit (Position.perp false).id .buy ⟨1, 0⟩ ⟨100, 1⟩ fun _ ↦ .done true
    | _, _ => .done sent⟩
  initial := false
  killed := false
  hash := .lastInserted

/-- The order that the strategy submits at time one. -/
def bid : Order :=
  ((OrderFactory.new ⟨"S"⟩).make (.limit (Position.perp false).id .buy ⟨1, 0⟩ ⟨100, 1⟩ .gtc {} 1)).1

/-- A bar of the perpetual at one price, in tenths. -/
def flatBar (ts : UnixNanos) (px : ℤ) : MarketEvent :=
  .bar { barType := ⟨(Position.perp false).id, ⟨1, .minute, .last⟩, .external⟩, open_ := ⟨px, 1⟩,
         high := ⟨px, 1⟩, low := ⟨px, 1⟩, close := ⟨px, 1⟩, volume := ⟨100, 0⟩, tsEvent := ts,
         tsInit := ts }

/-- The end of a run over bars at ten and two further prices, if it is reached. -/
def bidEnd? (px px' : ℤ) : Option (BacktestKernel Bool) :=
  run bidOnce 9 (sortedEvents [flatBar 1 100, flatBar 2 px, flatBar 3 px']) (start bidOnce)

def bidEnd (px px' : ℤ) : BacktestKernel Bool := (bidEnd? px px').getD (start bidOnce)

theorem reached_bidEnd {px px' : ℤ} (h : (bidEnd? px px').isSome = true) :
    Reached bidOnce [flatBar 1 100, flatBar 2 px, flatBar 3 px'] (bidEnd px px') := by
  obtain ⟨k, hk⟩ := Option.isSome_iff_exists.mp h
  rw [bidEnd, hk]
  exact .finish hk

/-- A bar at nine and a half fills the bid at its open, nine and a half. -/
theorem fills_after_submission_bid : ∃ risk portfolio, (bidEnd 95 80).ops[5]?
      = some (.submit risk portfolio bid 1)
    ∧ (bidEnd 95 80).core.issued.map (fun f ↦ (f.clientOrderId, f.lastPx))
      = [(bid.clientOrderId, ⟨95, 1⟩)]
    ∧ ∀ f ∈ (bidEnd 95 80).core.issued, f.clientOrderId = bid.clientOrderId → ∃ mid ev back,
      (bidEnd 95 80).ops.drop 6 = mid ++ .process ev :: .onMarket ev :: back
      ∧ DecidedLater bidOnce [flatBar 1 100, flatBar 2 95, flatBar 3 80]
        ((bidEnd 95 80).ops.take 5) mid (.submit risk portfolio bid 1) bid 1 ev f := by
  obtain ⟨risk, portfolio, hop⟩ : ∃ risk portfolio, (bidEnd 95 80).ops[5]?
      = some (.submit risk portfolio bid 1) := exists_submit_of_submission? (by decide +kernel)
  have hsubmitted : (bidEnd 95 80).ops[5]?.map (fun op ↦ ((coreAfter bidOnce
      ((bidEnd 95 80).ops.take 5)).exec bidOnce.config.brokerage op).1) = some [.submitted 1] := by
    decide +kernel
  rw [hop] at hsubmitted
  exact ⟨risk, portfolio, hop, by decide +kernel, (fills_after_submission _ _
    (reached_bidEnd (by decide +kernel)) _ _ _ _ _ _ (eq_append_cons_of_getElem? hop)
    (Option.some.inj hsubmitted) (by decide +kernel)).2.1⟩

/-- The second bar opens at twelve, past the bid, and the third trades at eight. The bid is filled
by the third bar, at its limit of ten and not at the open of eight. -/
theorem not_fill_at_open_of_gap :
    ¬ ∀ (setup : Setup Bool) (events : List MarketEvent) (k : BacktestKernel Bool)
      (front rest : List CoreOp) (risk : RiskEngine) (portfolio : Portfolio) (order : Order)
      (now : UnixNanos), Reached setup events k →
      k.ops = front ++ .submit risk portfolio order now :: rest →
      ((coreAfter setup front).exec setup.config.brokerage
        (.submit risk portfolio order now)).1 = [.submitted now] →
      marketable (coreAfter setup front).oms.cache order = true →
      ∀ f, k.core.issued.find? (fun f ↦ f.clientOrderId = order.clientOrderId) = some f →
      ∀ mid ev back, rest = mid ++ .onMarket ev :: back →
        f ∈ (coreAfter setup (front ++ .submit risk portfolio order now :: mid)).newFills
          setup.config.brokerage (.onMarket ev) →
        ∀ inst tape, Offers (coreAfter setup
          (front ++ .submit risk portfolio order now :: mid)).oms.cache ev inst tape →
        f.lastPx = order.capped (setup.config.brokerage.fillPrice (order.applied (.submitted now))
          tape.open_ (some (tape.low, tape.high)) inst) := by
  intro h
  set k := bidEnd 120 80 with hk
  obtain ⟨risk, portfolio, hop⟩ : ∃ risk portfolio, k.ops[5]?
      = some (.submit risk portfolio bid 1) := exists_submit_of_submission? (by decide +kernel)
  have hsubmitted : k.ops[5]?.map (fun op ↦ ((coreAfter bidOnce
      (k.ops.take 5)).exec bidOnce.config.brokerage op).1) = some [.submitted 1] := by
    decide +kernel
  rw [hop] at hsubmitted
  have hsplit := eq_append_cons_of_getElem? hop
  have hmatch : (k.ops.drop 6)[13]? = some (.onMarket (flatBar 3 80)) :=
    getElem?_eq_onMarket_of_matched? (by decide +kernel)
  have hfront : k.ops.take 19 = k.ops.take 5 ++ .submit risk portfolio bid 1
      :: (k.ops.drop 6).take 13 := by
    rw [show 19 = 5 + 1 + 13 from rfl, List.take_add, List.take_add_one, hop, List.append_assoc]
    rfl
  obtain ⟨f, hf⟩ : ∃ f, k.core.issued.find? (fun f ↦ f.clientOrderId = bid.clientOrderId)
      = some f := Option.isSome_iff_exists.mp (by decide +kernel)
  have hnew : k.core.issued = (coreAfter bidOnce (k.ops.take 19)).newFills
      bidOnce.config.brokerage (.onMarket (flatBar 3 80)) := by
    decide +kernel
  have hpx : (k.core.issued.find? (fun f ↦ f.clientOrderId = bid.clientOrderId)).map Fill.lastPx
      = some ⟨100, 1⟩ := by
    decide +kernel
  rw [hf] at hpx
  have hclaim := h bidOnce _ k _ _ risk portfolio bid 1 (reached_bidEnd (by decide +kernel))
    hsplit (Option.some.inj hsubmitted) (by decide +kernel) f hf _ _ _
    (eq_append_cons_of_getElem? hmatch)
    (by rw [← hfront, ← hnew]; exact List.mem_of_find?_eq_some hf) (Position.perp false)
    ⟨⟨80, 1⟩, ⟨80, 1⟩, ⟨80, 1⟩, ⟨80, 1⟩, some ⟨100, 0⟩⟩
    (by rw [← hfront]; exact ⟨by decide +kernel, rfl⟩)
  rw [Option.some.inj hpx] at hclaim
  exact absurd hclaim (by decide +kernel)

end Instances

end BacktestKernel

end Coinext
