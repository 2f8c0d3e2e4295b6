import Coinext.Kernel.NextEvent
import Coinext.Kernel.FillConservation

/-!
# Orders and what is under way for them

`Core.Does` says once what an operation can do to the books of the engine: nothing, a notice about
an order, a new order, a fill that its order accepts, or a synthetic fill.

Whatever the operations are, the orders that rest at the venue and the fills in flight belong to
tracked orders, for the same instrument and on the same side (`Custody`). When the submitted orders
are new ones and the venue never over-fills, an operation moves a quantity from resting to in flight
and from there to filled, but adds nothing to what is committed to an order. Unlike `FlightInv` this
does not say that a fill in flight will be accepted, and so it holds however orders are cancelled.
-/

namespace Coinext

open ExecutionEngine SimulatedExecutionClient

/-! ## What an operation does -/

/-- The events other than fills that the venue's reports and cancellations apply. -/
def OrderEvent.IsNotice : OrderEvent → Prop
  | .accepted .. | .canceled _ | .pendingCancel _ => True
  | _ => False

theorem OrderEvent.IsNotice.fill?_eq_none {ev : OrderEvent} (h : ev.IsNotice) :
    ev.fill? = none := by
  cases ev <;> first | rfl | exact absurd h id

theorem OrderEvent.IsNotice.amendedQty?_eq_none {ev : OrderEvent} (h : ev.IsNotice) :
    ev.amendedQty? = none := by
  cases ev <;> first | rfl | exact absurd h id

section Does

variable [DecimalWidth]

/-- The order is new and passes every pre-trade check. -/
def Oms.Approves (s : Oms) (risk : RiskEngine) (portfolio : Portfolio) (order : Order)
    (now : UnixNanos) : Prop :=
  s.cache.order order.clientOrderId = none ∧ ∃ inst ∈ s.cache.instrument order.instrumentId,
    (preCheck portfolio inst order now s).1 = none ∧ risk.check order portfolio inst = .approved

instance (s : Oms) (risk : RiskEngine) (portfolio : Portfolio) (order : Order) (now : UnixNanos) :
    Decidable (s.Approves risk portfolio order now) := inferInstanceAs (Decidable (_ ∧ ∃ _ ∈ _, _))

/-- What an operation does to the orders, the positions and the table of same-day buys. -/
inductive Core.Does (c : Core) : CoreOp → Oms → Prop
  | quiet {op : CoreOp} {s : Oms} (orders : s.cache.orders = c.oms.cache.orders)
      (positions : s.cache.positions = c.oms.cache.positions)
      (bought : s.ledger.boughtToday = c.oms.ledger.boughtToday) : Does c op s
  | notice {op : CoreOp} {s : Oms} {id : ClientOrderId} {o o' : Order}
      (order : c.oms.cache.order id = some o)
      (event : o' = o ∨ ∃ ev : OrderEvent, ev.IsNotice ∧ o' = o.applied ev)
      (orders : s.cache.orders = c.oms.cache.orders.insert id o')
      (positions : s.cache.positions = c.oms.cache.positions)
      (bought : s.ledger.boughtToday = c.oms.ledger.boughtToday) : Does c op s
  | track {risk : RiskEngine} {portfolio : Portfolio} {order : Order} {now : UnixNanos}
      {ev : OrderEvent} {s : Oms} (untracked : c.oms.cache.order order.clientOrderId = none)
      (known : ∃ inst, c.oms.cache.instrument order.instrumentId = some inst)
      (event : (∃ reason, ev = .denied reason now)
        ∨ ev = .submitted now ∧ c.oms.Approves risk portfolio order now)
      (orders : s.cache.orders
        = c.oms.cache.orders.insert order.clientOrderId (order.applied ev))
      (positions : s.cache.positions = c.oms.cache.positions)
      (bought : s.ledger.boughtToday = c.oms.ledger.boughtToday) :
      Does c (.submit risk portfolio order now) s
  | fill {f : Fill} {rest : List ExecutionReport} {o o' : Order}
      (pending : c.pending = .fill f :: rest) (unseen : f.tradeId ∉ c.oms.ledger.seenTradeIds)
      (order : c.oms.cache.order f.clientOrderId = some o)
      (accepts : o.Accepts (fillEvent o f) o') : Does c .applyNext (folded c.oms f o')
  | close {iid : InstrumentId} {px : Price} {now : UnixNanos} {tagSuffix : String}
      {inst : Instrument} {pos : Position} {f : Fill}
      (closing : c.oms.closing iid px now tagSuffix = some (inst, pos, f)) :
      Does c (.closeAt iid px now tagSuffix)
        { c.oms with cache := c.oms.cache.upsertPosition (pos.applied inst f) }

omit [DecimalWidth] in
theorem ExecutionEngine.boughtToday_priceLimitViolation (cache : Cache) (ledger : ExecLedger)
    (inst : Instrument) (order : Order) (now : UnixNanos) :
    (priceLimitViolation cache ledger inst order now).2.boughtToday = ledger.boughtToday := by
  unfold priceLimitViolation
  split_ifs
  · change (observeMark cache ledger order.instrumentId now).boughtToday = _
    unfold observeMark
    split <;> rfl
  · rfl

omit [DecimalWidth] in
theorem ExecutionEngine.boughtToday_preCheck (portfolio : Portfolio) (inst : Instrument)
    (order : Order) (now : UnixNanos) (s : Oms) :
    (preCheck portfolio inst order now s).2.boughtToday = s.ledger.boughtToday := by
  unfold preCheck
  split_ifs
  · rfl
  · simp only
    split_ifs
    · rfl
    · exact boughtToday_priceLimitViolation ..

variable (model : BrokerageModel) (c : Core)

theorem Core.does_submit (risk : RiskEngine) (portfolio : Portfolio) (order : Order)
    (now : UnixNanos) : c.Does (.submit risk portfolio order now)
      (submit risk portfolio model c.clock.now order now c.oms).2 := by
  unfold submit
  by_cases htracked : (c.oms.cache.order order.clientOrderId).isSome = true
  · rw [if_pos htracked]
    exact .quiet rfl rfl rfl
  rw [if_neg htracked]
  have hnone : c.oms.cache.order order.clientOrderId = none := by simpa using htracked
  cases hinst : c.oms.cache.instrument order.instrumentId with
  | none => exact .quiet rfl rfl rfl
  | some inst =>
    have hbought := boughtToday_preCheck portfolio inst order now c.oms
    have hid (ev : OrderEvent) : (order.applied ev).clientOrderId = order.clientOrderId :=
      (order.sameTerms_applied ev).clientOrderId
    have horders (ev : OrderEvent) : (c.oms.cache.addOrder (order.applied ev)).orders
        = c.oms.cache.orders.insert order.clientOrderId (order.applied ev) := by
      rw [Cache.addOrder, hid]
    rcases hpre : preCheck portfolio inst order now c.oms with ⟨_ | reason, ledger⟩
    · rw [hpre] at hbought
      simp only [hpre]
      cases hrisk : risk.check order portfolio inst with
      | approved =>
        refine .track hnone ⟨inst, hinst⟩ (.inr ⟨rfl, hnone, inst, hinst, ?_, hrisk⟩) (horders _)
          rfl hbought
        rw [hpre]
      | denied reason => exact .track hnone ⟨inst, hinst⟩ (.inl ⟨_, rfl⟩) (horders _) rfl hbought
    · rw [hpre] at hbought
      simp only [hpre]
      exact .track hnone ⟨inst, hinst⟩ (.inl ⟨_, rfl⟩) (horders _) rfl hbought

variable {model c}

theorem Core.does_applyToOrder {op : CoreOp} (id : ClientOrderId) (ev : OrderEvent)
    (hev : ev.IsNotice) {s : Oms} (hcache : s.cache = (applyToOrder id ev c.oms).2.cache)
    (hledger : s.ledger = (applyToOrder id ev c.oms).2.ledger) : c.Does op s := by
  rw [ledger_applyToOrder] at hledger
  cases ho : c.oms.cache.order id with
  | none =>
    have hsame : (applyToOrder id ev c.oms).2 = c.oms := by simp only [applyToOrder, ho]
    rw [hsame] at hcache
    exact .quiet (by rw [hcache]) (by rw [hcache]) (by rw [hledger])
  | some o =>
    rw [applyToOrder_of_order ho] at hcache
    exact .notice ho (.inr ⟨ev, hev, rfl⟩) (by rw [hcache]; rfl) (by rw [hcache]; rfl)
      (by rw [hledger])

/-- **What an operation can do**, when the reports that were drained are the venue's. -/
theorem Core.does_step (hsim : ∀ r ∈ c.pending, r.IsSim) (op : CoreOp) :
    c.Does op (c.step model op).oms := by
  cases op with
  | submit risk portfolio order now => exact c.does_submit model risk portfolio order now
  | cancel id now => exact Core.does_applyToOrder id (.pendingCancel now) trivial rfl rfl
  | process ev =>
    obtain ⟨-, horders, hpositions, -⟩ := c.oms.cache.process_frame ev
    exact .quiet horders hpositions rfl
  | closeAt iid px now tagSuffix =>
    rcases c.closeAt_cases model iid px now tagSuffix with
      ⟨-, heq⟩ | ⟨inst, pos, f, hclosing, heq⟩
    · rw [heq]
      exact .quiet rfl rfl rfl
    · rw [heq]
      exact .close hclosing
  | applyNext =>
    rcases c.applyNext_cases model with ⟨-, heq⟩ | ⟨r, rest, hpending, heq⟩
    · rw [heq]
      exact .quiet rfl rfl rfl
    · have hr : r.IsSim := hsim r (hpending ▸ List.mem_cons_self)
      rw [heq]
      cases r with
      | accepted id v =>
        exact Core.does_applyToOrder id (.accepted v c.clock.now) trivial rfl rfl
      | canceled id => exact Core.does_applyToOrder id (.canceled c.clock.now) trivial rfl rfl
      | fill f =>
        rcases applyFillReport_cases f c.oms with ⟨-, heq⟩ | ⟨hunseen, ⟨-, heq⟩ | ⟨o, ho, -, heq⟩ |
          ⟨o, o', ho, hacc, heq⟩⟩
        · exact .quiet (by rw [applyReport, heq]) (by rw [applyReport, heq])
            (by rw [applyReport, heq])
        · exact .quiet (by rw [applyReport, heq]; rfl) (by rw [applyReport, heq]; rfl)
            (by rw [applyReport, heq]; rfl)
        · exact .notice ho (.inl rfl) (by rw [applyReport, heq]; rfl)
            (by rw [applyReport, heq]; rfl) (by rw [applyReport, heq]; rfl)
        · rw [applyReport, heq]
          exact .fill hpending hunseen ho hacc
      | _ => exact hr.elim
  | _ => exact .quiet rfl rfl rfl

end Does

/-! ## Custody -/

/-- A report of the venue that is not folded yet. -/
abbrev Core.reports (c : Core) : List ExecutionReport := c.pending ++ c.oms.sim.queue.items

/-- What rests at the venue or is in flight belongs to a tracked order. -/
structure Custody (c : Core) : Prop where
  reports : ∀ r ∈ c.reports, r.IsSim
  resting : ∀ r ∈ c.oms.sim.resting, ∃ o, c.oms.cache.order r.order.clientOrderId = some o
    ∧ r.order.instrumentId = o.instrumentId ∧ r.order.side = o.side
  fills : ∀ f ∈ c.inFlight, ∃ o, c.oms.cache.order f.clientOrderId = some o
    ∧ f.instrumentId = o.instrumentId ∧ f.side = o.side

section Custody

variable [DecimalWidth] {model : BrokerageModel} {c : Core}

/-- The second queue holds nothing but entries of the first, and what the venue schedules: reports
of its own, and fills that are dated when they are due. -/
def DueQueue.Schedules (q q' : DueQueue ExecutionReport) : Prop :=
  ∀ e ∈ q'.entries, e ∈ q.entries ∨ e.item.IsSim ∧ ∀ f, e.item = .fill f → f.tsEvent = e.due

section Schedules

variable {q q' : DueQueue ExecutionReport}

omit [DecimalWidth] in
theorem DueQueue.Schedules.refl (q : DueQueue ExecutionReport) : q.Schedules q :=
  fun _ he ↦ .inl he

omit [DecimalWidth] in
theorem DueQueue.Schedules.push (h : q.Schedules q') {d : ℕ} {x : ExecutionReport} (hx : x.IsSim)
    (hdated : ∀ f, x = .fill f → f.tsEvent = d) : q.Schedules (q'.push d x) := by
  intro e he
  rcases List.mem_cons.mp ((q'.entries_push_perm d x).subset he) with rfl | he
  · exact .inr ⟨hx, hdated⟩
  · exact h e he

theorem schedules_matchOne (now : UnixNanos) (inst : Instrument) (tape : Tape) (iid : InstrumentId)
    (r : Resting) {s : SimState} (h : q.Schedules s.queue) :
    q.Schedules (matchOne model now inst tape iid s r).queue := by
  unfold matchOne
  split
  · exact h
  · cases hdecision : (verdict model inst tape r).decision with
    | none => simpa only [hdecision] using h
    | some d =>
      have hscheduled : q.Schedules (schedule model now inst r d s).queue := by
        unfold schedule
        split
        · exact h.push trivial fun f hf ↦ by cases hf; rfl
        · exact h
      simp only [hdecision]
      split
      · exact hscheduled
      · exact hscheduled

theorem schedules_onMarket (cache : Cache) (now : UnixNanos) (ev : MarketEvent) (s : SimState) :
    s.queue.Schedules (onMarket model cache now ev s).queue := by
  unfold onMarket
  split
  · refine foldl_induction (I := fun s' : SimState ↦ s.queue.Schedules s'.queue)
      (fun s' r h ↦ schedules_matchOne now _ _ _ r h) ?_ s.resting
    have hremember : (rememberBar ev s).queue = s.queue := by
      cases ev <;> rfl
    change s.queue.Schedules (rememberBar ev s).queue
    rw [hremember]
    exact .refl _
  · exact .refl _

/-- **What an operation puts into the queue.** -/
theorem Core.schedules_step (c : Core) (op : CoreOp) :
    c.oms.sim.queue.Schedules (c.step model op).oms.sim.queue := by
  cases op with
  | drain frontier =>
    intro e he
    exact .inl ((List.dropWhile_sublist _).subset he)
  | applyNext =>
    rw [(Core.step_applyNext model c).2.2]
    exact .refl _
  | submit risk portfolio order now =>
    change c.oms.sim.queue.Schedules (ExecutionEngine.submit ..).2.sim.queue
    obtain heq | ⟨ev, s', heq, -, -, -, -, ⟨reason, -, hsim⟩ | ⟨-, hsim⟩⟩ :=
      submit_cases risk portfolio model c.clock.now order now c.oms
    · rw [heq]
      exact .refl _
    · rw [heq, hsim]
      exact .refl _
    · rw [heq, hsim]
      unfold onSubmit
      split
      · exact .refl _
      · exact (DueQueue.Schedules.refl _).push trivial fun f hf ↦ by cases hf
  | cancel id now =>
    change c.oms.sim.queue.Schedules (onCancel model c.clock.now id
      (applyToOrder id (.pendingCancel now) c.oms).2.sim).queue
    rw [sim_applyToOrder]
    unfold onCancel
    split_ifs
    · exact (DueQueue.Schedules.refl _).push trivial fun f hf ↦ by cases hf
    · exact .refl _
  | onMarket ev => exact schedules_onMarket c.oms.cache c.clock.now ev c.oms.sim
  | closeAt iid px now tagSuffix =>
    rcases c.closeAt_cases model iid px now tagSuffix with ⟨-, heq⟩ | ⟨inst, pos, f, -, heq⟩
    · rw [heq]
      exact .refl _
    · rw [heq]
      exact .refl _
  | _ => exact .refl _

end Schedules

theorem Custody.reports_step (h : Custody c) (op : CoreOp) :
    ∀ r ∈ (c.step model op).reports, r.IsSim := by
  have hqueue {e : Timed ExecutionReport} (he : e ∈ c.oms.sim.queue.entries) : e.item.IsSim :=
    h.reports e.item (List.mem_append_right _ (List.mem_map_of_mem he))
  intro r hr
  rcases List.mem_append.mp hr with hpending | hqueued
  · rcases Core.mem_pending op hpending with hold | ⟨frontier, -, e, he, rfl⟩
    · exact h.reports r (List.mem_append_left _ hold)
    · exact hqueue ((List.takeWhile_sublist _).subset he)
  · obtain ⟨e, he, rfl⟩ := List.mem_map.mp hqueued
    rcases c.schedules_step op e he with hold | ⟨hsim, -⟩
    · exact hqueue hold
    · exact hsim

theorem Core.Does.order {op : CoreOp} {s : Oms} (h : c.Does op s) {id : ClientOrderId} {o : Order}
    (ho : c.oms.cache.order id = some o) : ∃ o', s.cache.order id = some o' ∧ o.SameTerms o' := by
  have hinsert {id' : ClientOrderId} {p p' : Order} (hp : c.oms.cache.order id' = some p)
      (hterms : p.SameTerms p') (horders : s.cache.orders = c.oms.cache.orders.insert id' p') :
      ∃ o', s.cache.order id = some o' ∧ o.SameTerms o' := by
    rw [Cache.order, horders]
    by_cases hid : id = id'
    · subst hid
      obtain rfl : o = p := Option.some.inj (ho.symm.trans hp)
      exact ⟨p', AList.lookup_insert _, hterms⟩
    · exact ⟨o, (AList.lookup_insert_ne hid).trans ho, .refl o⟩
  cases h with
  | quiet orders positions bought =>
    rw [Cache.order, orders]
    exact ⟨o, ho, .refl o⟩
  | notice order event orders positions bought =>
    refine hinsert order ?_ orders
    rcases event with rfl | ⟨ev, -, rfl⟩
    · exact .refl _
    · exact Order.sameTerms_applied _ ev
  | track untracked known event orders positions bought =>
    rw [Cache.order, orders, AList.lookup_insert_ne]
    · exact ⟨o, ho, .refl o⟩
    · rintro rfl
      rw [untracked] at ho
      cases ho
  | fill pending unseen order accepts =>
    exact hinsert order accepts.sameTerms (orders_folded _ _ _)
  | close closing => exact ⟨o, ho, .refl o⟩

/-- **Where the record of an order comes from.** It is what it was, the order has accepted a notice
or a fill, or it has just been submitted. -/
theorem Core.Does.order_cases {op : CoreOp} {s : Oms} (h : c.Does op s) {id : ClientOrderId}
    {o' : Order} (ho' : s.cache.order id = some o') :
    c.oms.cache.order id = some o'
    ∨ (∃ o ev, c.oms.cache.order id = some o ∧ ev.IsNotice ∧ o.Accepts ev o')
    ∨ (∃ risk portfolio order now ev, op = .submit risk portfolio order now
      ∧ id = order.clientOrderId ∧ c.oms.cache.order id = none ∧ o' = order.applied ev
      ∧ ((∃ reason, ev = .denied reason now)
        ∨ ev = .submitted now ∧ c.oms.Approves risk portfolio order now))
    ∨ ∃ f rest o, op = .applyNext ∧ c.pending = .fill f :: rest ∧ id = f.clientOrderId
      ∧ c.oms.cache.order id = some o ∧ o.Accepts (fillEvent o f) o' := by
  have hinsert {id' : ClientOrderId} {p : Order}
      (horders : s.cache.orders = c.oms.cache.orders.insert id' p) :
      c.oms.cache.order id = some o' ∨ id = id' ∧ o' = p := by
    rw [Cache.order, horders] at ho'
    by_cases hid : id = id'
    · subst hid
      rw [AList.lookup_insert] at ho'
      exact .inr ⟨rfl, (Option.some.inj ho').symm⟩
    · rw [AList.lookup_insert_ne hid] at ho'
      exact .inl ho'
  cases h with
  | quiet orders positions bought =>
    rw [Cache.order, orders] at ho'
    exact .inl ho'
  | @notice _ _ _ o p order event orders positions bought =>
    rcases hinsert orders with hkept | ⟨rfl, rfl⟩
    · exact .inl hkept
    · rcases event with rfl | ⟨ev, hev, rfl⟩
      · exact .inl order
      · rcases o.applied_cases ev with hacc | hsame
        · exact .inr (.inl ⟨o, ev, order, hev, hacc⟩)
        · rw [hsame]
          exact .inl order
  | track untracked known event orders positions bought =>
    rcases hinsert orders with hkept | ⟨rfl, rfl⟩
    · exact .inl hkept
    · exact .inr (.inr (.inl ⟨_, _, _, _, _, rfl, rfl, untracked, rfl, event⟩))
  | fill pending unseen order accepts =>
    rcases hinsert (orders_folded _ _ _) with hkept | ⟨rfl, rfl⟩
    · exact .inl hkept
    · exact .inr (.inr (.inr ⟨_, _, _, rfl, pending, rfl, order, accepts⟩))
  | close closing => exact .inl ho'

omit [DecimalWidth] in
theorem Custody.next_fill (h : Custody c) {f : Fill} {rest : List ExecutionReport} {o : Order}
    (hp : c.pending = .fill f :: rest) (ho : c.oms.cache.order f.clientOrderId = some o) :
    f.instrumentId = o.instrumentId ∧ f.side = o.side := by
  have hmem : f ∈ c.inFlight :=
    List.mem_filterMap.mpr ⟨.fill f, List.mem_append_left _ (hp ▸ List.mem_cons_self), rfl⟩
  obtain ⟨o', ho', hinst, hside⟩ := h.fills f hmem
  obtain rfl : o = o' := Option.some.inj (ho.symm.trans ho')
  exact ⟨hinst, hside⟩

theorem Custody.does_step (h : Custody c) (op : CoreOp) : c.Does op (c.step model op).oms :=
  Core.does_step (fun r hr ↦ h.reports r (List.mem_append_left _ hr)) op

theorem Order.status_applied_denied {order : Order} (hnew : order.IsNew) (reason : Reason)
    (now : UnixNanos) : (order.applied (.denied reason now)).status = .denied := by
  rw [Order.applied_of_mem (List.mem_singleton.mpr hnew.status) rfl]
  rfl

/-- **Where resting orders come from.** They rested before on the same terms, or have just been
approved. -/
theorem Core.resting_step (op : CoreOp) {r : Resting}
    (hr : r ∈ (c.step model op).oms.sim.resting) :
    (∃ r₀ ∈ c.oms.sim.resting, r.order.clientOrderId = r₀.order.clientOrderId
      ∧ r.order.instrumentId = r₀.order.instrumentId ∧ r.order.side = r₀.order.side)
    ∨ (c.step model op).oms.cache.order r.order.clientOrderId = some r.order
      ∧ c.oms.cache.order r.order.clientOrderId = none
      ∧ ∃ risk portfolio order now, op = .submit risk portfolio order now
        ∧ r.order = order.applied (.submitted now) := by
  cases op with
  | onMarket ev =>
    obtain ⟨-, -, -, hkept⟩ : ∃ new, (onMarket model c.oms.cache c.clock.now ev
      c.oms.sim).fills.Perm (new ++ c.oms.sim.fills) ∧ _ ∧ _ := onMarket_spec _ ev c.oms.sim
    obtain ⟨r₀, hr₀, ⟨rfl, -⟩ | ⟨inst, tape, -, -, hleft⟩⟩ := hkept r hr
    · exact .inl ⟨r, hr₀, rfl, rfl, rfl⟩
    · refine .inl ⟨r₀, hr₀, ?_, ?_, ?_⟩ <;> rw [hleft.order] <;> rfl
  | submit risk portfolio order now =>
    change r ∈ (ExecutionEngine.submit ..).2.sim.resting at hr
    obtain heq | ⟨ev, s', heq, hnone, ⟨inst, hinst⟩, hcache, -, ⟨reason, -, hsim⟩ | ⟨rfl, hsim⟩⟩ :=
      submit_cases risk portfolio model c.clock.now order now c.oms
    · rw [heq] at hr
      exact .inl ⟨r, hr, rfl, rfl, rfl⟩
    · rw [heq, hsim] at hr
      exact .inl ⟨r, hr, rfl, rfl, rfl⟩
    · have hterms := order.sameTerms_applied (.submitted now)
      have hknown : s'.cache.instrument (order.applied (.submitted now)).instrumentId
          = some inst := by
        rw [hcache, hterms.instrumentId]
        exact hinst
      obtain ⟨v, r₀, horder, -, hsubmit⟩ := onSubmit_eq model c.clock.now hknown c.oms.sim
      rw [heq, hsim, hsubmit, List.mem_append, List.mem_singleton] at hr
      rcases hr with hr | rfl
      · exact .inl ⟨r, hr, rfl, rfl, rfl⟩
      · refine .inr ⟨?_, ?_, risk, portfolio, order, now, rfl, horder⟩
        · change (ExecutionEngine.submit ..).2.cache.order _ = _
          rw [heq, hcache, horder]
          exact AList.lookup_insert _
        · rw [horder, hterms.clientOrderId]
          exact hnone
  | _ =>
    rcases Core.mem_resting_step model c _ (fun ev hev ↦ by cases hev) hr with
      hold | ⟨_, _, _, _, hop, _⟩
    · exact .inl ⟨r, hold, rfl, rfl, rfl⟩
    · cases hop

theorem Core.inFlight_step (op : CoreOp) {f : Fill} (hf : f ∈ (c.step model op).inFlight) :
    f ∈ c.inFlight ∨ f ∈ c.newFills model op := by
  obtain ⟨r, hr, hfill⟩ := List.mem_filterMap.mp hf
  obtain rfl : r = .fill f := by
    cases r with
    | fill g => exact congrArg _ (Option.some.inj hfill)
    | _ => cases hfill
  rcases List.mem_append.mp hr with hp | hq
  · rcases Core.mem_pending_step hp with hp | hq
    · exact .inl (List.mem_filterMap.mpr ⟨_, List.mem_append_left _ hp, rfl⟩)
    · obtain ⟨r', hr', hf'⟩ := List.mem_filterMap.mp hq
      exact .inl (List.mem_filterMap.mpr ⟨r', List.mem_append_right _ hr', hf'⟩)
  · have hqueued : f ∈ (c.step model op).oms.sim.fills := List.mem_filterMap.mpr ⟨_, hq, rfl⟩
    refine (Core.mem_fills_step hqueued).imp_left fun hold ↦ ?_
    obtain ⟨r', hr', hf'⟩ := List.mem_filterMap.mp hold
    exact List.mem_filterMap.mpr ⟨r', List.mem_append_right _ hr', hf'⟩

/-- **Custody is kept by every operation.** -/
theorem Custody.step (h : Custody c) (op : CoreOp) : Custody (c.step model op) := by
  have hdoes : c.Does op (c.step model op).oms :=
    Core.does_step (fun r hr ↦ h.reports r (List.mem_append_left _ hr)) op
  have hkept {id : ClientOrderId} {iid : InstrumentId} {side : OrderSide}
      (ho : ∃ o, c.oms.cache.order id = some o ∧ iid = o.instrumentId ∧ side = o.side) :
      ∃ o, (c.step model op).oms.cache.order id = some o ∧ iid = o.instrumentId
        ∧ side = o.side := by
    obtain ⟨o, ho, rfl, rfl⟩ := ho
    obtain ⟨o', ho', hterms⟩ := hdoes.order ho
    exact ⟨o', ho', hterms.instrumentId.symm, hterms.side.symm⟩
  refine ⟨h.reports_step op, fun r hr ↦ ?_, fun f hf ↦ ?_⟩
  · rcases Core.resting_step op hr with ⟨r₀, hr₀, hid, hinst, hside⟩ | ⟨htracked, -⟩
    · rw [hid, hinst, hside]
      exact hkept (h.resting r₀ hr₀)
    · exact ⟨r.order, htracked, rfl, rfl⟩
  · rcases Core.inFlight_step op hf with hold | hnew
    · exact hkept (h.fills f hold)
    · obtain ⟨ev, -, inst, tape, -, r, hr, -, n, d, -, rfl⟩ := Core.mem_newFills hnew
      exact hkept (h.resting r hr)

omit [DecimalWidth] in
theorem custody_initialCore (config : BacktestConfig) :
    Custody (BacktestKernel.initialCore config) :=
  ⟨fun _ hr ↦ absurd hr List.not_mem_nil, fun _ hr ↦ absurd hr List.not_mem_nil,
    fun _ hf ↦ absurd hf List.not_mem_nil⟩

end Custody

/-! ## Budgets -/

/-- What a fill adds to an order, in units of its precision. -/
def Fill.share (id : ClientOrderId) (f : Fill) : ℕ :=
  if f.clientOrderId = id then f.lastQty.raw else 0

/-- What may still fill of an order that rests, in units of its precision. -/
def Resting.share (id : ClientOrderId) (r : Resting) : ℕ :=
  if r.order.clientOrderId = id then r.remaining.raw else 0

/-- What the venue has scheduled or may still fill of an order. -/
def SimState.committed (s : SimState) (id : ClientOrderId) : ℕ :=
  (s.fills.map (Fill.share id)).sum + (s.resting.map (Resting.share id)).sum

/-- What is in flight or may still fill of an order. -/
def Core.committed (c : Core) (id : ClientOrderId) : ℕ :=
  ((c.pending.filterMap ExecutionReport.fill?).map (Fill.share id)).sum + c.oms.sim.committed id

section Committed

variable {model : BrokerageModel} {id : ClientOrderId} {s : SimState}

theorem Core.committed_eq (c : Core) : c.committed id
    = (c.inFlight.map (Fill.share id)).sum + (c.oms.sim.resting.map (Resting.share id)).sum := by
  rw [Core.inFlight, List.filterMap_append, List.map_append, List.sum_append, Nat.add_assoc]
  rfl

/-- What a report that is queued commits. -/
theorem sum_share_push {q : DueQueue ExecutionReport} {d : ℕ} {x : ExecutionReport} :
    (((q.push d x).items.filterMap ExecutionReport.fill?).map (Fill.share id)).sum
      = (x.fill?.toList.map (Fill.share id)).sum
        + ((q.items.filterMap ExecutionReport.fill?).map (Fill.share id)).sum := by
  have hperm := ((q.items_push_perm d x).filterMap ExecutionReport.fill?).map (Fill.share id)
  rw [hperm.sum_eq]
  cases hx : x.fill? with
  | none => simp [List.filterMap_cons_none hx]
  | some f => simp [List.filterMap_cons_some hx]

theorem committed_onCancel_le (now : UnixNanos) (id' : ClientOrderId) :
    (onCancel model now id' s).committed id ≤ s.committed id := by
  unfold onCancel
  split_ifs
  · have hfewer : ((s.resting.eraseP fun r ↦ r.order.clientOrderId = id').map
        (Resting.share id)).sum ≤ (s.resting.map (Resting.share id)).sum :=
      ((List.eraseP_sublist).map _).sum_le_sum fun _ _ ↦ Nat.zero_le _
    unfold SimState.committed SimState.fills
    rw [sum_share_push]
    change 0 + ((s.queue.items.filterMap ExecutionReport.fill?).map (Fill.share id)).sum
      + ((s.resting.eraseP fun r ↦ r.order.clientOrderId = id').map (Resting.share id)).sum ≤ _
    omega
  · exact le_rfl

theorem committed_onSubmit_le {cache : Cache} (now : UnixNanos) (order : Order) :
    (onSubmit model cache now order s).committed id
      ≤ s.committed id + if order.clientOrderId = id then order.quantity.raw else 0 := by
  unfold onSubmit
  split
  · exact Nat.le_add_right _ _
  · unfold SimState.committed SimState.fills
    rw [sum_share_push, List.map_append, List.sum_append]
    simp only [ExecutionReport.fill?, Option.toList_none, List.map_nil, List.sum_nil, zero_add,
      List.map_cons, List.sum_cons, Resting.share]
    omega

theorem sum_share_kept_le (id : ClientOrderId) {r : Resting} {kept : List Resting} {q : ℕ}
    (hlen : kept.length ≤ 1) (hkept : ∀ r' ∈ kept, Continues r q r') :
    (kept.map (Resting.share id)).sum
      ≤ if r.order.clientOrderId = id then r.remaining.raw - q else 0 := by
  rcases kept with _ | ⟨r', _ | ⟨r'', l⟩⟩
  · exact Nat.zero_le _
  · have hcontinues := hkept r' List.mem_cons_self
    rw [List.map_singleton, List.sum_singleton, Resting.share, hcontinues.clientOrderId]
    split_ifs
    · exact hcontinues.raw_le
    · exact le_rfl
  · simp at hlen

variable [DecimalWidth]

/-- Matching one order moves part of it from the book into flight. -/
theorem committed_matchOne_le (hmodel : model.NeverOverfills) (id : ClientOrderId)
    (now : UnixNanos) (inst : Instrument) (tape : Tape) (iid : InstrumentId) (s : SimState)
    (r : Resting) :
    (matchOne model now inst tape iid s r).committed id ≤ s.committed id + r.share id := by
  obtain ⟨kept, hlen, ⟨hkept, heq⟩ | ⟨d, -, hwithin, -, hkept, heq⟩⟩ :=
    matchOne_cases hmodel now inst tape iid s r
  · have hsum := sum_share_kept_le id hlen hkept
    rw [heq]
    unfold SimState.committed
    rw [List.map_append, List.sum_append, Resting.share]
    change (s.fills.map (Fill.share id)).sum + _ ≤ _
    rw [Nat.sub_zero] at hsum
    omega
  · have hsum := sum_share_kept_le id hlen hkept
    have hle := hwithin.2
    rw [heq]
    unfold SimState.committed SimState.fills scheduled
    rw [sum_share_push, List.map_append, List.sum_append, Resting.share]
    simp only [ExecutionReport.fill?, Option.toList_some, List.map_cons, List.map_nil,
      List.sum_cons, List.sum_nil, Fill.share, makeFill]
    split_ifs at hsum ⊢ <;> omega

theorem committed_onMarket_le (hmodel : model.NeverOverfills) (cache : Cache) (now : UnixNanos)
    (ev : MarketEvent) : (onMarket model cache now ev s).committed id ≤ s.committed id := by
  have hfold (inst : Instrument) (tape : Tape) (todo : List Resting) (s : SimState) :
      (todo.foldl (matchOne model now inst tape ev.instrumentId) s).committed id
        ≤ s.committed id + (todo.map (Resting.share id)).sum := by
    induction todo generalizing s with
    | nil => exact le_rfl
    | cons r todo ih =>
      have hfirst := committed_matchOne_le hmodel id now inst tape ev.instrumentId s r
      have hrest := ih (matchOne model now inst tape ev.instrumentId s r)
      rw [List.foldl_cons, List.map_cons, List.sum_cons]
      omega
  unfold onMarket
  split
  · refine (hfold _ _ _ _).trans ?_
    obtain ⟨bars, hbars⟩ := rememberBar_frame ev s
    rw [hbars]
    simp [SimState.committed, SimState.fills]
  · exact le_rfl

variable {c : Core}

theorem Core.committed_submit_le (model : BrokerageModel) (c : Core) (id : ClientOrderId)
    (risk : RiskEngine) (portfolio : Portfolio) (order : Order) (now : UnixNanos) :
    (c.step model (.submit risk portfolio order now)).committed id
      ≤ c.committed id + if order.clientOrderId = id then order.quantity.raw else 0 := by
  have hsim : (submit risk portfolio model c.clock.now order now c.oms).2.sim.committed id
      ≤ c.oms.sim.committed id + if order.clientOrderId = id then order.quantity.raw else 0 := by
    obtain heq | ⟨ev, s', heq, -, -, -, -, ⟨reason, -, hsim⟩ | ⟨rfl, hsim⟩⟩ :=
      submit_cases risk portfolio model c.clock.now order now c.oms
    · rw [heq]
      exact Nat.le_add_right _ _
    · rw [heq, hsim]
      exact Nat.le_add_right _ _
    · have hterms := order.sameTerms_applied (.submitted now)
      have hsame : SameBalance order (order.applied (.submitted now)) :=
        Order.sameBalance_applied rfl rfl
      rw [heq, hsim, ← hterms.clientOrderId, ← hsame.quantity]
      exact committed_onSubmit_le _ _
  exact (Nat.add_le_add_left hsim _).trans (Nat.add_assoc _ _ _).ge

omit [DecimalWidth] in
theorem Core.share_le_committed (id : ClientOrderId) {f : Fill} {rest : List ExecutionReport}
    (hp : c.pending = .fill f :: rest) : f.share id ≤ c.committed id := by
  have hfills : c.pending.filterMap ExecutionReport.fill?
      = f :: rest.filterMap ExecutionReport.fill? := by
    rw [hp]
    rfl
  rw [Core.committed, hfills, List.map_cons, List.sum_cons]
  omega

theorem Core.committed_applyNext {f : Fill} {rest : List ExecutionReport}
    (hp : c.pending = .fill f :: rest) :
    (c.step model .applyNext).committed id + f.share id = c.committed id := by
  obtain ⟨hpending, -, hsim⟩ := Core.step_applyNext model c
  have hfills : c.pending.filterMap ExecutionReport.fill?
      = f :: rest.filterMap ExecutionReport.fill? := by
    rw [hp]
    rfl
  unfold Core.committed
  rw [hpending, hsim, hfills, hp, List.tail_cons, List.map_cons, List.sum_cons]
  omega

theorem Core.committed_step_le (hmodel : model.NeverOverfills) (op : CoreOp)
    (htracked : c.oms.cache.order id ≠ none) :
    (c.step model op).committed id ≤ c.committed id := by
  cases op with
  | submit risk portfolio order now =>
    by_cases hid : order.clientOrderId = id
    · have hsome : (c.oms.cache.order order.clientOrderId).isSome = true := by
        rw [hid]
        exact Option.isSome_iff_ne_none.mpr htracked
      have hsame : submit risk portfolio model c.clock.now order now c.oms = ([], c.oms) :=
        if_pos hsome
      change _ + (submit risk portfolio model c.clock.now order now c.oms).2.sim.committed id ≤ _
      rw [hsame]
      exact le_rfl
    · have hle := c.committed_submit_le model id risk portfolio order now
      rwa [if_neg hid] at hle
  | applyNext =>
    obtain ⟨hpending, -, hsim⟩ := Core.step_applyNext model c
    unfold Core.committed
    rw [hpending, hsim]
    have hfewer : ((c.pending.tail.filterMap ExecutionReport.fill?).map (Fill.share id)).sum
        ≤ ((c.pending.filterMap ExecutionReport.fill?).map (Fill.share id)).sum :=
      (((List.tail_sublist _).filterMap _).map _).sum_le_sum fun _ _ ↦ Nat.zero_le _
    omega
  | drain frontier =>
    have hflight : (c.step model (.drain frontier)).inFlight = c.inFlight := by
      change ((c.pending ++ (c.oms.sim.queue.drainDue frontier).1
        ++ (c.oms.sim.queue.drainDue frontier).2.items).filterMap _) = _
      rw [List.append_assoc, DueQueue.drainDue_append, Core.inFlight]
    rw [Core.committed_eq, Core.committed_eq, hflight]
    exact le_rfl
  | cancel id' now =>
    have hsim : (onCancel model c.clock.now id'
        (applyToOrder id' (.pendingCancel now) c.oms).2.sim).committed id
          ≤ c.oms.sim.committed id := by
      rw [sim_applyToOrder]
      exact committed_onCancel_le _ _
    exact Nat.add_le_add_left hsim _
  | onMarket ev => exact Nat.add_le_add_left (committed_onMarket_le hmodel _ _ ev) _
  | closeAt iid px now tagSuffix =>
    rcases c.closeAt_cases model iid px now tagSuffix with ⟨-, heq⟩ | ⟨inst, pos, f, -, heq⟩
    · rw [heq]
    · rw [heq]
      exact le_rfl
  | _ => exact le_rfl

omit [DecimalWidth] in
theorem Custody.committed_eq_zero (h : Custody c) (hnone : c.oms.cache.order id = none) :
    c.committed id = 0 := by
  have hfills (f : Fill) (hf : f ∈ c.inFlight) : f.share id = 0 := by
    refine if_neg ?_
    rintro rfl
    obtain ⟨o, ho, -⟩ := h.fills f hf
    rw [hnone] at ho
    cases ho
  have hresting (r : Resting) (hr : r ∈ c.oms.sim.resting) : r.share id = 0 := by
    refine if_neg ?_
    rintro rfl
    obtain ⟨o, ho, -⟩ := h.resting r hr
    rw [hnone] at ho
    cases ho
  have hzero {α : Type} {l : List α} {g : α → ℕ} (hg : ∀ a ∈ l, g a = 0) : (l.map g).sum = 0 :=
    List.sum_eq_zero fun x hx ↦ by
      obtain ⟨a, ha, rfl⟩ := List.mem_map.mp hx
      exact hg a ha
  rw [Core.committed_eq, hzero hfills, hzero hresting]

end Committed

end Coinext
