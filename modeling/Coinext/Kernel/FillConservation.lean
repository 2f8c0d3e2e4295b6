import Coinext.Kernel.Flight
import Coinext.Kernel.Replay

/-!
# No fill is lost between the venue and the ledger

The step lemmas for the operations in which the venue takes part, and what follows for whole runs:
every fill the venue schedules is folded once, into its order and into the position.

What breaks it is a cancellation. `ExecutionEngine.cancel` moves a working order to `PendingCancel`,
from which no fill is accepted, whether or not fills of it are in flight; and the `Canceled` report
of an order that is not acknowledged yet may overtake its fills. `CancelSafe` is the condition under
which neither happens.
-/

namespace Coinext

/-! ## Submitting -/

section Submit

open ExecutionEngine SimulatedExecutionClient

variable [DecimalWidth] {model : BrokerageModel} {c c' : Core}

omit [DecimalWidth] in
theorem inFlight_push {d : ℕ} {x : ExecutionReport} (hpending : c'.pending = c.pending)
    (hqueue : c'.oms.sim.queue = c.oms.sim.queue.push d x) :
    c'.inFlight.Perm (x.fill?.toList ++ c.inFlight) := by
  rw [Core.inFlight, hpending, hqueue, Core.inFlight]
  have hperm : (c.pending ++ (c.oms.sim.queue.push d x).items).Perm
      (x :: (c.pending ++ c.oms.sim.queue.items)) :=
    ((c.oms.sim.queue.items_push_perm d x).append_left _).trans List.perm_middle
  refine (hperm.filterMap _).trans (.of_eq ?_)
  cases hx : x.fill? with
  | none => rw [List.filterMap_cons_none hx]; rfl
  | some f => rw [List.filterMap_cons_some hx]; rfl

omit [DecimalWidth] in
theorem slice_push_of_ne {d : ℕ} {x : ExecutionReport} {i : ClientOrderId}
    (hi : x.clientOrderId ≠ i) : (c.oms.sim.queue.push d x).entries.filter
      (fun e ↦ decide (e.item.clientOrderId = i)) = (c.slice i).queued :=
  DueQueue.filter_push_of_neg _ _ (p := fun r : ExecutionReport ↦ decide (r.clientOrderId = i))
    (by simpa using hi)

/-- A new order with the event of its routing applied. -/
theorem sound_applied {order : Order} {ev : OrderEvent} (hok : OrderOk c order)
    {inst : Instrument} (hinst : c.oms.cache.instrument order.instrumentId = some inst)
    (hfill : ev.fill? = none) (hamend : ev.amendedQty? = none) (id : ClientOrderId) :
    (order.applied ev).Sound c.oms.cache.instruments id ∧ (order.applied ev).filledQty.raw = 0 := by
  obtain ⟨hnew, hrange, hprec, hsize⟩ := hok
  have hsame := order.sameBalance_applied hfill hamend
  have hfills : order.fills = [] := by rw [hnew]; rfl
  refine ⟨⟨?_, ?_, ?_, ?_, ?_⟩, ?_⟩
  · rw [hsame.instrumentId, hsame.quantity]
    exact ⟨inst, hinst, hsize inst hinst⟩
  · rw [hsame.quantity]
    exact hprec
  · rw [hsame.quantity]
    exact hrange
  · rw [hsame.quantity]
    exact (Order.filledBySum_of_isNew hnew).applied ev
  · rw [hsame.fills, hfills]
    exact fun f hf ↦ absurd hf List.not_mem_nil
  · rw [hsame.filledQty, hnew]
    rfl

theorem status_applied_submitted {order : Order} (hnew : order.IsNew) (ts : UnixNanos) :
    (order.applied (.submitted ts)).status = .submitted := by
  rw [Order.applied_of_mem (List.mem_singleton.mpr hnew.status) rfl]
  rfl

theorem FlightInv.submit (h : FlightInv model c) (risk : RiskEngine) (portfolio : Portfolio)
    {order : Order} (now : UnixNanos) (hok : OrderOk c order) :
    FlightInv model { c with
      oms := (submit risk portfolio model c.clock.now order now c.oms).2 } := by
  have hfills : order.fills = [] := by rw [hok.1]; rfl
  obtain ⟨hquiet, hseen⟩ := c.oms.quiet_submit risk portfolio model c.clock.now now hfills
  rcases submit_cases risk portfolio model c.clock.now order now c.oms with
    heq | ⟨ev, s', heq, hnone, ⟨inst, hinst⟩, hcache, -, hev⟩
  · rw [heq]
    exact h
  rw [heq] at hquiet hseen ⊢
  have hev' : ev.fill? = none ∧ ev.amendedQty? = none := by
    rcases hev with ⟨reason, rfl, -⟩ | ⟨rfl, -⟩ <;> exact ⟨rfl, rfl⟩
  obtain ⟨hsound, hzero⟩ := sound_applied hok hinst hev'.1 hev'.2 order.clientOrderId
  obtain ⟨hpending, hqueued, hresting⟩ := (h.slices order.clientOrderId).untracked hnone
  have hid : (order.applied ev).clientOrderId = order.clientOrderId :=
    (order.sameTerms_applied ev).clientOrderId
  set c' : Core := { c with oms := s' }
  have horders : c'.oms.cache.orders
      = c.oms.cache.orders.insert order.clientOrderId (order.applied ev) := by
    change s'.cache.orders = _
    rw [hcache, Cache.addOrder, hid]
  rcases hev with ⟨reason, rfl, hsim⟩ | ⟨rfl, hsim⟩
  · -- a denied order never reaches the venue
    have hslice : ∀ i, c'.slice i = c.slice i := fun i ↦ by
      rw [Core.slice, Core.slice, show c'.oms.sim = c.oms.sim from hsim]
    have hflight : c'.inFlight = c.inFlight := by
      rw [Core.inFlight, Core.inFlight, show c'.oms.sim = c.oms.sim from hsim]
    refine h.of_insert horders hquiet rfl hseen (congrArg SimState.tradeSeq hsim) rfl rfl
      (.of_eq hflight) (fun i _ ↦ hslice i) ?_
    rw [hslice]
    exact .idle hsound hzero hpending hqueued hresting
  · have hinst' :
        s'.cache.instrument (order.applied (.submitted now)).instrumentId = some inst := by
      rw [(order.sameBalance_applied rfl rfl).instrumentId, hcache]
      exact hinst
    obtain ⟨v, r, hrorder, hrqty, hplaced⟩ := onSubmit_eq model c.clock.now hinst' c.oms.sim
    rw [hplaced, hid] at hsim
    have hqueue : c'.oms.sim.queue = c.oms.sim.queue.push (c.bound model)
        (.accepted order.clientOrderId v) := by
      change s'.sim.queue = _
      rw [hsim]
      rfl
    have hrest : c'.oms.sim.resting = c.oms.sim.resting ++ [r] := by
      change s'.sim.resting = _
      rw [hsim]
    have hrid : r.order.clientOrderId = order.clientOrderId := by rw [hrorder, hid]
    have hflight : c'.inFlight.Perm c.inFlight :=
      inFlight_push (show c'.pending = c.pending from rfl) hqueue
    refine h.of_insert horders hquiet rfl hseen ?_ rfl rfl hflight (fun i hi ↦ ?_) ?_
    · change s'.sim.tradeSeq = c.oms.sim.tradeSeq
      rw [hsim]
    · rw [Core.slice, hqueue, hrest, slice_push_of_ne (Ne.symm hi), List.filter_append,
        List.filter_cons_of_neg (by simpa [hrid] using Ne.symm hi), List.filter_nil,
        List.append_nil]
      rfl
    · refine .placed hsound hzero (status_applied_submitted hok.1 now)
        (e := ⟨c.bound model, c.oms.sim.queue.seq + 1, .accepted order.clientOrderId v⟩) rfl le_rfl
        (by rw [hrorder]) ?_ hpending ?_ (r := r) ?_
      · rw [hrqty]
      · change c'.oms.sim.queue.entries.filter _ = _
        rw [hqueue, DueQueue.filter_push_of_le _
          (p := fun r : ExecutionReport ↦ decide (r.clientOrderId = order.clientOrderId))
          (by simp [ExecutionReport.clientOrderId])]
        · exact congrArg (· ++ _) hqueued
        · change ∀ e ∈ (c.slice order.clientOrderId).queued, _
          rw [hqueued]
          exact fun e he ↦ absurd he List.not_mem_nil
      · change c'.oms.sim.resting.filter _ = _
        rw [hrest, List.filter_append]
        change (c.slice order.clientOrderId).resting ++ _ = _
        rw [hresting, List.filter_cons_of_pos (by simpa using hrid), List.filter_nil,
          List.nil_append]

end Submit

/-! ## Cancelling -/

section Cancel

open ExecutionEngine SimulatedExecutionClient

variable [DecimalWidth] {model : BrokerageModel} {c c' : Core} {id : ClientOrderId} {o : Order}

theorem applied_pendingCancel_of_submitted (hstatus : o.status = .submitted) (ts : UnixNanos) :
    o.applied (.pendingCancel ts) = o := by
  have hmem : o.status ∉ (OrderEvent.pendingCancel ts).allowedFrom := by
    rw [hstatus]
    exact show OrderStatus.submitted ∉ [OrderStatus.accepted, .partiallyFilled, .pendingUpdate] by
      decide
  obtain ⟨e, he⟩ := Order.apply_of_notMem hmem
  rw [Order.applied, he]

omit [DecimalWidth] in
/-- Where the `Canceled` report goes among the reports of its order. -/
theorem queued_cancel (c : Core) (d : ℕ) (id : ClientOrderId) :
    ∃ q₁ q₂, (c.slice id).queued = q₁ ++ q₂ ∧ (∀ e ∈ q₁, e.due ≤ d) ∧ (∀ e ∈ q₂, d < e.due) ∧
      (c.oms.sim.queue.push d (.canceled id)).entries.filter
          (fun e ↦ decide (e.item.clientOrderId = id))
        = q₁ ++ ⟨d, c.oms.sim.queue.seq + 1, .canceled id⟩ :: q₂ := by
  refine ⟨(c.oms.sim.queue.due d).filter fun e ↦ decide (e.item.clientOrderId = id),
    (c.oms.sim.queue.rest d).entries.filter fun e ↦ decide (e.item.clientOrderId = id),
    ?_, ?_, ?_, ?_⟩
  · rw [← List.filter_append, ← DueQueue.entries_eq_append]
    rfl
  · exact fun e he ↦ DueQueue.due_le_of_mem_due (List.mem_of_mem_filter he)
  · exact fun e he ↦ DueQueue.lt_due_of_mem_rest (List.mem_of_mem_filter he)
  · exact DueQueue.filter_push_of_pos _ _
      (p := fun r : ExecutionReport ↦ decide (r.clientOrderId = id))
      (by simp [ExecutionReport.clientOrderId])

/-- The venue has nothing to cancel: only the status of the order may change. -/
theorem TrackedInv.cancel_absent (htracked : TrackedInv c.oms.cache.instruments (c.bound model) id
      (c.slice id) o) (hsafe : CancelSafe model c id) (ho : c.oms.cache.order id = some o)
    (hresting : (c.slice id).resting = []) (now : UnixNanos) :
    TrackedInv c.oms.cache.instruments (c.bound model) id (c.slice id)
      (o.applied (.pendingCancel now)) := by
  rcases hsafe with hnone | ⟨⟨p, hp, hstatus⟩, -⟩
  · refine htracked.of_no_fill (Order.sameBalance_applied rfl rfl) (fun r hr ↦ ?_) hresting
    exact ⟨htracked.folds.isSim r hr, List.filterMap_eq_nil_iff.mp hnone r hr⟩
  · obtain rfl : o = p := Option.some.inj (ho.symm.trans hp)
    rw [applied_pendingCancel_of_submitted hstatus]
    exact htracked

/-- The venue withdraws the order and schedules a `Canceled` report. -/
theorem TrackedInv.cancel_resting (htracked : TrackedInv c.oms.cache.instruments (c.bound model) id
      (c.slice id) o) (hsafe : CancelSafe model c id) (ho : c.oms.cache.order id = some o)
    (hresting : (c.slice id).resting ≠ []) (now : UnixNanos) {sl : Slice}
    (hsl : sl = { c.slice id with
      queued := (c.oms.sim.queue.push (saturatingAddNs c.clock.now (model.latencyNs .cancel))
        (.canceled id)).entries.filter fun e ↦ decide (e.item.clientOrderId = id)
      resting := [] }) :
    TrackedInv c.oms.cache.instruments (c.bound model) id sl (o.applied (.pendingCancel now)) := by
  obtain ⟨q₁, q₂, hqueued, hearly, hlate, hpush⟩ :=
    queued_cancel c (saturatingAddNs c.clock.now (model.latencyNs .cancel)) id
  rw [hpush] at hsl
  subst hsl
  rcases hsafe with hnone | ⟨⟨p, hp, hstatus⟩, hplace⟩
  · -- no fill is under way and none will be, so the new status does no harm
    refine htracked.of_no_fill (Order.sameBalance_applied rfl rfl) (fun r hr ↦ ?_) rfl
    have hold : r ∈ (c.slice id).word ∨ r = .canceled id := by
      rw [Slice.word, List.map_append, List.map_cons] at hr
      rw [Slice.word, hqueued, List.map_append]
      simp only [List.mem_append, List.mem_cons] at hr ⊢
      tauto
    rcases hold with hr | rfl
    · exact ⟨htracked.folds.isSim r hr, List.filterMap_eq_nil_iff.mp hnone r hr⟩
    · exact ⟨trivial, rfl⟩
  · obtain rfl : o = p := Option.some.inj (ho.symm.trans hp)
    rw [applied_pendingCancel_of_submitted hstatus]
    refine htracked.cancel_fresh hstatus rfl hqueued ?_
    rcases hplace with hnil | hlast | ⟨hpending, hacks⟩
    · exact absurd hnil hresting
    · left
      intro e he
      refine Option.not_isSome_iff_eq_none.mp fun hfill ↦ ?_
      exact absurd (hlast e (by rw [hqueued]; exact List.mem_append_right q₁ he) hfill)
        (hlate e he).not_ge
    · right
      intro r hr
      rcases List.mem_append.mp hr with hr | hr
      · exact hpending r hr
      · obtain ⟨e, he, rfl⟩ := List.mem_map.mp hr
        exact hacks e (by rw [hqueued]; exact List.mem_append_left q₂ he) (hearly e he)

theorem FlightInv.cancel (h : FlightInv model c) (now : UnixNanos) (hsafe : CancelSafe model c id) :
    FlightInv model { c with oms := (cancel model c.clock.now id now c.oms).2 } := by
  cases ho : c.oms.cache.order id with
  | none =>
    have hresting := ((h.slices id).untracked ho).2.2
    have hcancel : (ExecutionEngine.cancel model c.clock.now id now c.oms).2 = c.oms := by
      simp only [ExecutionEngine.cancel, applyToOrder, ho]
      rw [onCancel_of_absent hresting]
    rw [hcancel]
    exact h
  | some o =>
    have htracked := (h.slices id).tracked o ho
    have hquiet := c.oms.quiet_applyToOrder id
      (show (OrderEvent.pendingCancel now).fill? = none from rfl)
    rw [applyToOrder_of_order ho] at hquiet
    have hcancel : (ExecutionEngine.cancel model c.clock.now id now c.oms).2
        = { c.oms.setOrder id (o.applied (.pendingCancel now)) with
          sim := onCancel model c.clock.now id c.oms.sim } := by
      rw [ExecutionEngine.cancel]
      simp only [applyToOrder_of_order ho]
      rfl
    rw [hcancel]
    by_cases hresting : (c.slice id).resting = []
    · rw [onCancel_of_absent hresting]
      refine h.of_insert rfl (hquiet.of_cache rfl) rfl rfl rfl rfl rfl (.refl _) (fun i _ ↦ rfl) ?_
      exact htracked.cancel_absent hsafe ho hresting now
    · rw [onCancel_of_resting hresting]
      refine h.of_insert rfl (hquiet.of_cache rfl) rfl rfl rfl rfl rfl
        (inFlight_push (x := .canceled id) rfl rfl) (fun i hi ↦ ?_)
        (htracked.cancel_resting hsafe ho hresting now ?_)
      · rw [Core.slice, slice_push_of_ne (Ne.symm hi), filter_eraseP_of_disjoint]
        · rfl
        · intro r hr
          simpa [of_decide_eq_true hr] using Ne.symm hi
      · rw [Core.slice, filter_eraseP_of_length_le htracked.one]
        rfl

end Cancel

/-! ## Matching -/

section Match

open SimulatedExecutionClient

variable [DecimalWidth] {model : BrokerageModel} {c c' : Core} {inst : Instrument} {tape : Tape}
  {s : SimState}
  {r : Resting} {todo kept : List Resting} {issued : List Fill}

/-- The core in the middle of matching: the venue has dealt with some orders and has `todo` left. -/
def Core.matching (c : Core) (s : SimState) (todo : List Resting) (issued : List Fill) : Core :=
  { c with
    oms := { c.oms with sim := { s with resting := s.resting ++ todo } }
    issued := issued }

omit [DecimalWidth] in
/-- An order is replaced by what is left of it. -/
theorem filter_replace (l todo : List Resting)
    (hkept : ∀ r' ∈ kept, r'.order.clientOrderId = r.order.clientOrderId) (i : ClientOrderId) :
    (i ≠ r.order.clientOrderId → (l ++ kept ++ todo).filter (fun r ↦ r.order.clientOrderId = i)
        = (l ++ r :: todo).filter fun r ↦ r.order.clientOrderId = i) ∧
      (i = r.order.clientOrderId →
        ((l ++ r :: todo).filter fun r ↦ r.order.clientOrderId = i).length ≤ 1 →
        (l ++ r :: todo).filter (fun r ↦ r.order.clientOrderId = i) = [r] ∧
          (l ++ kept ++ todo).filter (fun r ↦ r.order.clientOrderId = i) = kept) := by
  simp only [List.filter_append]
  refine ⟨fun hi ↦ ?_, fun hi hone ↦ ?_⟩
  · have hnone : kept.filter (fun r ↦ r.order.clientOrderId = i) = [] := by
      refine List.filter_eq_nil_iff.mpr fun r' hr' ↦ ?_
      simpa [hkept r' hr'] using Ne.symm hi
    rw [List.filter_cons_of_neg (by simpa using Ne.symm hi), hnone, List.append_nil]
  · rw [List.filter_cons_of_pos (by simp [hi])] at hone ⊢
    rw [List.length_append, List.length_cons] at hone
    have hl := List.length_eq_zero_iff.mp (Nat.eq_zero_of_le_zero (by omega :
      (l.filter fun r ↦ r.order.clientOrderId = i).length ≤ 0))
    have htodo := List.length_eq_zero_iff.mp (Nat.eq_zero_of_le_zero (by omega :
      (todo.filter fun r ↦ r.order.clientOrderId = i).length ≤ 0))
    rw [hl, htodo, List.nil_append, List.nil_append, List.append_nil, List.filter_eq_self.mpr]
    · exact ⟨rfl, rfl⟩
    · intro r' hr'
      simp [hkept r' hr', hi]

omit [DecimalWidth] in
/-- The venue touches one tracked order. -/
theorem FlightInv.of_slice (h : FlightInv model c) {id : ClientOrderId} {o : Order}
    (hcache : c'.oms.cache = c.oms.cache) (hledger : c'.oms.ledger = c.oms.ledger)
    (hnow : c'.clock.now = c.clock.now) (hcloses : c'.closes = c.closes)
    (ho : c.oms.cache.order id = some o) (hother : ∀ i ≠ id, c'.slice i = c.slice i)
    (hself : TrackedInv c.oms.cache.instruments (c.bound model) id (c'.slice id) o)
    (htrades : TradesInv c') (hconserved : c'.issued.Perm (c.oms.recordedAll ++ c'.inFlight)) :
    FlightInv model c' := by
  have hclosed : c'.closed = c.closed := by
    funext iid
    rw [Core.closed, hcloses, Core.closed]
  have hrecorded : c'.oms.recordedAll = c.oms.recordedAll := by
    rw [Oms.recordedAll, hcache, Oms.recordedAll]
  refine ⟨fun i ↦ ?_, htrades, ?_, hrecorded ▸ hconserved⟩
  · rw [hcache, Core.bound, hnow, ← Core.bound]
    by_cases hi : i = id
    · subst hi
      rw [ho]
      refine ⟨fun hnone ↦ (by cases hnone), fun p hp ↦ ?_⟩
      cases hp
      exact hself
    · rw [hother i hi]
      exact h.slices i
  · rw [hclosed]
    exact h.ledger.of_quiet (.of_orders (by rw [hcache]) (by rw [hcache]) (by rw [hcache]))
      (by rw [hledger])

omit [DecimalWidth] in
/-- The next order to match is tracked, and it is the only one with its id. -/
theorem FlightInv.next_resting (h : FlightInv model (c.matching s (r :: todo) issued)) :
    ∃ o, c.oms.cache.order r.order.clientOrderId = some o ∧
      TrackedInv c.oms.cache.instruments (c.bound model) r.order.clientOrderId
        ((c.matching s (r :: todo) issued).slice r.order.clientOrderId) o := by
  have hslice := h.slices r.order.clientOrderId
  cases ho : c.oms.cache.order r.order.clientOrderId with
  | none =>
    have hnil := (hslice.untracked ho).2.2
    have hmem : r ∈ ((c.matching s (r :: todo) issued).slice r.order.clientOrderId).resting :=
      List.mem_filter.mpr ⟨List.mem_append_right _ List.mem_cons_self, by simp⟩
    rw [hnil] at hmem
    cases hmem
  | some o => exact ⟨o, rfl, hslice.tracked o ho⟩

omit [DecimalWidth] in
/-- The trade ids when a fill is scheduled under the next number. -/
theorem TradesInv.schedule (h : TradesInv c) {f : Fill}
    (hid : f.tradeId = simTradeId (c.oms.sim.tradeSeq + 1))
    (hflight : c'.inFlight.Perm (f :: c.inFlight))
    (hseen : c'.oms.ledger.seenTradeIds = c.oms.ledger.seenTradeIds)
    (hseq : c'.oms.sim.tradeSeq = c.oms.sim.tradeSeq + 1) : TradesInv c' := by
  have hfresh : ¬ (f.tradeId ∈ c.oms.ledger.seenTradeIds ∨
      f.tradeId ∈ c.inFlight.map Fill.tradeId) := fun hmem ↦ by
    obtain ⟨k, hk, heq⟩ := h.numbered _ hmem
    have := simTradeId_injective (hid.symm.trans heq)
    omega
  rw [not_or] at hfresh
  refine ⟨?_, ?_, ?_⟩
  · refine ((hflight.map Fill.tradeId).nodup_iff).mpr ?_
    rw [List.map_cons]
    exact List.nodup_cons.mpr ⟨hfresh.2, h.nodup⟩
  · rw [hseen]
    intro g hg
    rcases List.mem_cons.mp (hflight.mem_iff.mp hg) with rfl | hg
    · exact hfresh.1
    · exact h.unseen g hg
  · rw [hseen, hseq]
    intro id hmem
    have hcases : id = f.tradeId ∨ id ∈ c.oms.ledger.seenTradeIds ∨
        id ∈ c.inFlight.map Fill.tradeId := by
      rcases hmem with hmem | hmem
      · exact .inr (.inl hmem)
      · have := (hflight.map Fill.tradeId).mem_iff.mp hmem
        rw [List.map_cons, List.mem_cons] at this
        exact this.imp_right .inr
    rcases hcases with rfl | hold
    · exact ⟨_, le_rfl, hid⟩
    · obtain ⟨k, hk, heq⟩ := h.numbered id hold
      exact ⟨k, hk.trans (Nat.le_succ _), heq⟩

omit [DecimalWidth] in
theorem FlightInv.keep (h : FlightInv model (c.matching s (r :: todo) issued))
    (hlen : kept.length ≤ 1) (hkept : ∀ r' ∈ kept, Continues r 0 r') :
    FlightInv model (c.matching { s with resting := s.resting ++ kept } todo issued) := by
  obtain ⟨o, ho, htracked⟩ := h.next_resting
  have hreplace := filter_replace s.resting todo fun r' hr' ↦ (hkept r' hr').clientOrderId
  obtain ⟨hresting, hleft⟩ := (hreplace _).2 rfl htracked.one
  refine h.of_slice rfl rfl rfl rfl ho (fun i hi ↦ ?_) ?_ ⟨h.trades.nodup, h.trades.unseen,
    h.trades.numbered⟩ h.conserved
  · exact congrArg (Slice.mk _ _) ((hreplace i).1 hi)
  · have hself := htracked.keep hresting hlen hkept
    rw [← hleft] at hself
    exact hself

omit [DecimalWidth] in
/-- The venue schedules a fill of the order. -/
theorem FlightInv.schedule (h : FlightInv model (c.matching s (r :: todo) issued))
    (hlen : kept.length ≤ 1) {d : Decision} (hpos : 0 < d.fillQty.raw)
    (hwithin : Within r d.fillQty) (hkept : ∀ r' ∈ kept, Continues r d.fillQty.raw r') :
    FlightInv model (c.matching
      { scheduled model c.clock.now inst r d s with resting := s.resting ++ kept } todo
      (issued ++ [makeFill model inst r (s.tradeSeq + 1) d (c.bound model)])) := by
  set f := makeFill model inst r (s.tradeSeq + 1) d (c.bound model) with hf
  set c₀ := c.matching s (r :: todo) issued with hc₀
  set c' := c.matching { scheduled model c.clock.now inst r d s with
    resting := s.resting ++ kept } todo (issued ++ [f])
  obtain ⟨o, ho, htracked⟩ := h.next_resting
  have hreplace := filter_replace s.resting todo fun r' hr' ↦ (hkept r' hr').clientOrderId
  obtain ⟨hresting, hleft⟩ := (hreplace _).2 rfl htracked.one
  have hqueue : c'.oms.sim.queue = c₀.oms.sim.queue.push (c.bound model) (.fill f) := rfl
  have hflight : c'.inFlight.Perm (f :: c₀.inFlight) :=
    inFlight_push (show c'.pending = c₀.pending from rfl) hqueue
  have hmem : r ∈ (c₀.slice r.order.clientOrderId).resting := by
    rw [show (c₀.slice r.order.clientOrderId).resting = [r] from hresting]
    exact List.mem_cons_self
  have hready := htracked.ready r hmem (hpos.trans_le hwithin.2)
  refine h.of_slice rfl rfl rfl rfl ho (fun i hi ↦ ?_) ?_ (h.trades.schedule rfl hflight rfl rfl) ?_
  · have hpush := slice_push_of_ne (c := c₀) (d := c.bound model) (x := .fill f) (Ne.symm hi)
    rw [← hqueue] at hpush
    exact congrArg₂ (Slice.mk _) hpush ((hreplace i).1 hi)
  · have hself := htracked.schedule hresting hlen
      (e := ⟨c.bound model, c₀.oms.sim.queue.seq + 1, .fill f⟩) rfl le_rfl rfl rfl hpos hwithin
      hkept
    have hpush := c₀.oms.sim.queue.filter_push_of_le (d := c.bound model) (x := .fill f)
      (p := fun x : ExecutionReport ↦ decide (x.clientOrderId = r.order.clientOrderId))
      (by simp [ExecutionReport.clientOrderId, hf, makeFill]) hready.2
    rw [← hleft] at hself
    have hslice : c'.slice r.order.clientOrderId = ⟨_, _, _⟩ := congrArg (Slice.mk _ · _) hpush
    rw [hslice]
    exact hself
  · calc (issued ++ [f]).Perm ((c.oms.recordedAll ++ c₀.inFlight) ++ [f]) :=
          h.conserved.append_right [f]
      _ = c.oms.recordedAll ++ (c₀.inFlight ++ [f]) := List.append_assoc _ _ _
      _ |>.Perm (c.oms.recordedAll ++ c'.inFlight) :=
          ((List.perm_append_singleton f _).trans hflight.symm).append_left _

/-- **One resting order is matched.** -/
theorem FlightInv.matchOne (hmodel : model.NeverOverfills) (inst : Instrument) (tape : Tape)
    (iid : InstrumentId) (h : FlightInv model (c.matching s (r :: todo) issued)) :
    ∃ new, (SimulatedExecutionClient.matchOne model c.clock.now inst tape iid s r).fills.Perm
        (new ++ s.fills) ∧
      FlightInv model (c.matching (SimulatedExecutionClient.matchOne model c.clock.now inst tape iid
        s r) todo (issued ++ new)) := by
  obtain ⟨kept, hlen, ⟨hkept, heq⟩ | ⟨d, hpos, hwithin, -, hkept, heq⟩⟩ :=
    matchOne_cases hmodel c.clock.now inst tape iid s r
  · rw [heq]
    refine ⟨[], .refl _, ?_⟩
    rw [List.append_nil]
    exact h.keep hlen hkept
  · rw [heq]
    refine ⟨[makeFill model inst r (s.tradeSeq + 1) d (c.bound model)], ?_,
      h.schedule hlen hpos hwithin hkept⟩
    exact (s.queue.items_push_perm _ _).filterMap ExecutionReport.fill?

/-- All resting orders are matched. -/
theorem FlightInv.matchAll (hmodel : model.NeverOverfills) (inst : Instrument) (tape : Tape)
    (iid : InstrumentId) (h : FlightInv model (c.matching s todo issued)) :
    ∃ new, (todo.foldl (SimulatedExecutionClient.matchOne model c.clock.now inst tape iid)
        s).fills.Perm (new ++ s.fills) ∧
      FlightInv model (c.matching (todo.foldl (SimulatedExecutionClient.matchOne model c.clock.now
        inst tape iid) s) [] (issued ++ new)) := by
  induction todo generalizing s issued with
  | nil => exact ⟨[], .refl _, by rw [List.append_nil]; exact h⟩
  | cons r todo ih =>
    obtain ⟨new, hperm, hnext⟩ := h.matchOne hmodel inst tape iid
    obtain ⟨later, hperm', hlast⟩ := ih hnext
    refine ⟨new ++ later, ?_, by rw [← List.append_assoc]; exact hlast⟩
    rw [List.foldl_cons]
    refine hperm'.trans ((hperm.append_left later).trans ?_)
    rw [← List.append_assoc]
    exact List.perm_append_comm.append_right _

omit [DecimalWidth] in
theorem rememberBar_frame (ev : MarketEvent) (s : SimState) :
    ∃ bars, rememberBar ev s = { s with lastBar := bars } := by
  cases ev <;> exact ⟨_, rfl⟩

theorem FlightInv.onMarket (h : FlightInv model c) (hmodel : model.NeverOverfills)
    (ev : MarketEvent) : FlightInv model (c.step model (.onMarket ev)) := by
  set sim := SimulatedExecutionClient.onMarket model c.oms.cache c.clock.now ev c.oms.sim with hsim
  obtain ⟨new, hperm, hnew⟩ : ∃ new, sim.fills.Perm (new ++ c.oms.sim.fills) ∧
      FlightInv model { c with
        oms := { c.oms with sim := sim }
        issued := c.issued ++ new } := by
    rw [SimulatedExecutionClient.onMarket] at hsim
    split at hsim
    · obtain ⟨bars, hbars⟩ := rememberBar_frame ev c.oms.sim
      rw [hbars] at hsim
      have hstart : FlightInv model (c.matching { c.oms.sim with lastBar := bars, resting := [] }
          c.oms.sim.resting c.issued) :=
        h.of_frame le_rfl rfl rfl rfl rfl rfl rfl rfl (.refl _) ⟨h.ledger.keyed, h.ledger.sum,
          h.ledger.seen, h.ledger.nodup⟩
      obtain ⟨new, hperm, hend⟩ := hstart.matchAll hmodel _ _ ev.instrumentId
      rw [← hsim] at hperm hend
      exact ⟨new, hperm, hend.of_frame le_rfl rfl rfl (List.append_nil _).symm rfl rfl rfl rfl
        (.refl _) ⟨hend.ledger.keyed, hend.ledger.sum, hend.ledger.seen, hend.ledger.nodup⟩⟩
    · rw [hsim]
      exact ⟨[], .refl _, by rw [List.append_nil]; exact h⟩
  exact hnew.of_frame le_rfl rfl rfl rfl rfl rfl rfl rfl
    ((diff_perm_of_perm_append hperm).append_left _) ⟨hnew.ledger.keyed, hnew.ledger.sum,
      hnew.ledger.seen, hnew.ledger.nodup⟩

end Match

/-! ## Runs -/

section Run

variable [DecimalWidth] {model : BrokerageModel} {c : Core}

theorem FlightInv.applyNext (h : FlightInv model c) (hok : OpOk c .applyNext) :
    FlightInv model (c.step model .applyNext) := by
  have hstep : ∀ r rest, c.pending = r :: rest → c.step model .applyNext = { c with
      oms := (ExecutionEngine.applyReport r c.clock.now c.oms).2, pending := rest } := by
    intro r rest hp
    simp only [Core.step, Core.exec, hp]
  cases hp : c.pending with
  | nil =>
    simp only [Core.step, Core.exec, hp]
    exact h
  | cons r rest =>
    rw [hstep r rest hp]
    obtain ⟨hpending, o, -, htracked⟩ := h.head hp
    have hsim : r.IsSim := by
      have hfolds := htracked.folds
      rw [Slice.word, hpending, List.cons_append] at hfolds
      exact hfolds.1
    cases r with
    | accepted id v => exact h.deliver hp rfl rfl rfl fun o ↦ o.phase_applied_accepted v _ id
    | fill f =>
      have hhead : ExecutionReport.fill f ∈ c.pending.head? := by
        rw [hp]
        rfl
      exact h.deliver_fill hp (hok _ hhead f rfl)
    | canceled id => exact h.deliver hp rfl rfl rfl fun o ↦ o.phase_applied_canceled _ id
    | _ => exact hsim.elim

/-- **Step lemma.** An operation that loses no fill keeps every fill where it belongs. -/
theorem FlightInv.step (hmodel : model.NeverOverfills) (h : FlightInv model c) (op : CoreOp)
    (hok : OpOk c op) (hcancel : CancelOk model c op) : FlightInv model (c.step model op) := by
  cases op with
  | advance ts => exact h.of_clock _ (c.clock.now_le_advanceTo ts)
  | drain frontier => exact h.drain frontier
  | applyNext => exact h.applyNext hok
  | submit risk portfolio order now => exact h.submit risk portfolio now hok
  | cancel id now => exact h.cancel now hcancel
  | process ev => exact h.process ev
  | onMarket ev => exact h.onMarket hmodel ev
  | closeAt iid px now tagSuffix =>
    rcases c.closeAt_cases model iid px now tagSuffix with
      ⟨-, heq⟩ | ⟨inst, pos, f, hclosing, heq⟩
    · rw [heq]
      exact h
    · rw [heq]
      exact h.close hclosing (hok _ hclosing)
  | setTimer name ts => exact h.of_clock _ le_rfl
  | cancelTimer id => exact h.of_clock _ le_rfl
  | popDue frontier => exact h.of_clock _ (c.clock.now_popDue frontier).ge

/-- Every fill of the venue is folded once, into its order and into the position. -/
structure Conserved (c : Core) : Prop where
  /-- A scheduled fill is in flight or in the log of an order, and nothing else is. -/
  once : c.issued.Perm (c.oms.recordedAll ++ c.inFlight)
  distinct : (c.issued.map Fill.tradeId).Nodup
  /-- A logged fill is in the log of its own order, and has moved its filled quantity. -/
  filled : ∀ id, ∀ o ∈ c.oms.cache.order id, (∀ f ∈ o.fills, f.clientOrderId = id) ∧
    o.filledQty.asDecimal = (o.fills.map fun f ↦ f.lastQty.asDecimal).sum
  /-- Logged fills and synthetic closes make up the position. -/
  position : ∀ iid, c.oms.signed iid
    = ((c.oms.recorded iid).map Fill.signedQty).sum + c.closed iid
  /-- When nothing is in flight, scheduled fills and synthetic closes do. -/
  settled : c.inFlight = [] → ∀ iid, c.oms.signed iid
    = ((c.issued.filter fun f ↦ f.instrumentId = iid).map Fill.signedQty).sum + c.closed iid

omit [DecimalWidth] in
theorem FlightInv.recorded_eq (h : FlightInv model c) (iid : InstrumentId) :
    c.oms.recorded iid = c.oms.recordedAll.filter fun f ↦ f.instrumentId = iid := by
  rw [Oms.recorded, Oms.recordedAll, AList.gather, AList.gather, List.filter_flatMap]
  refine List.flatMap_congr fun e he ↦ ?_
  have hlookup : c.oms.cache.order e.1 = some e.2 := AList.mem_lookup_iff.mpr he
  have hown := ((h.slices e.1).tracked e.2 hlookup).sound.own
  split_ifs with hiid
  · refine (List.filter_eq_self.mpr fun f hf ↦ ?_).symm
    simpa [(hown f hf).2] using hiid
  · refine (List.filter_eq_nil_iff.mpr fun f hf ↦ ?_).symm
    simpa [(hown f hf).2] using hiid

omit [DecimalWidth] in
theorem FlightInv.conserves (h : FlightInv model c) : Conserved c := by
  have hposition : ∀ iid, c.oms.signed iid
      = ((c.oms.recorded iid).map Fill.signedQty).sum + c.closed iid := fun iid ↦ by
    rw [h.ledger.sum iid, add_comm]
  refine ⟨h.conserved, ?_, fun id o ho ↦ ?_, hposition, fun hnone iid ↦ ?_⟩
  · rw [(h.conserved.map Fill.tradeId).nodup_iff, List.map_append, List.nodup_append]
    refine ⟨h.ledger.nodup, h.trades.nodup, ?_⟩
    intro a ha b hb hab
    obtain ⟨f, hf, rfl⟩ := List.mem_map.mp ha
    obtain ⟨g, hg, rfl⟩ := List.mem_map.mp hb
    exact h.trades.unseen g hg (hab ▸ h.ledger.seen f hf)
  · have hsound := ((h.slices id).tracked o ho).sound
    exact ⟨fun f hf ↦ (hsound.own f hf).1, hsound.filled.asDecimal_eq⟩
  · have hperm := h.conserved
    rw [hnone, List.append_nil] at hperm
    rw [hposition iid, h.recorded_eq iid]
    exact congrArg (· + c.closed iid) (((hperm.filter _).map Fill.signedQty).sum_eq).symm

omit [DecimalWidth] in
theorem fresh_initialCore (config : BacktestConfig) :
    (BacktestKernel.initialCore config).oms.Fresh := by
  have hstep (c : Cache) (i : Instrument) (h : c.orders = ∅ ∧ c.positions = ∅) :
      (c.addInstrument i).orders = ∅ ∧ (c.addInstrument i).positions = ∅ := h
  have hadded : (config.instruments.foldl Cache.addInstrument Cache.new).orders = ∅
      ∧ (config.instruments.foldl Cache.addInstrument Cache.new).positions = ∅ :=
    foldl_induction hstep ⟨rfl, rfl⟩ config.instruments
  exact hadded

omit [DecimalWidth] in
theorem flightInv_initialCore (model : BrokerageModel) (config : BacktestConfig) :
    FlightInv model (BacktestKernel.initialCore config) := by
  set c := BacktestKernel.initialCore config
  have hfresh : c.oms.Fresh := fresh_initialCore config
  have horder : ∀ id, c.oms.cache.order id = none := fun id ↦ by
    rw [Cache.order, hfresh.1, AList.lookup_empty]
  have hrecorded : c.oms.recordedAll = [] := by rw [Oms.recordedAll, hfresh.1, AList.gather_empty]
  refine ⟨fun id ↦ ⟨fun _ ↦ ⟨rfl, rfl, rfl⟩, fun o ho ↦ ?_⟩, ⟨List.nodup_nil, ?_, ?_⟩,
    hfresh.ledgerInv, ?_⟩
  · rw [horder] at ho
    cases ho
  · exact fun f hf ↦ absurd hf List.not_mem_nil
  · rintro id (hid | hid)
    · exact absurd hid (Finset.notMem_empty id)
    · exact absurd hid List.not_mem_nil
  · rw [hrecorded]
    exact .refl _

/-- **Conservation.** In every run of the kernel whose operations meet the condition on
cancellations, every fill of the venue is folded once. This holds after each operation, not only in
the states between iterations. -/
theorem fills_conserved {σ : Type} (setup : Setup σ) (events : List MarketEvent)
    (hmodel : setup.config.brokerage.NeverOverfills) (k : BacktestKernel σ)
    (hk : BacktestKernel.Reached setup events k)
    (hrun : Along (Core.step setup.config.brokerage)
      (fun c op ↦ OpOk c op ∧ CancelOk setup.config.brokerage c op)
      (BacktestKernel.initialCore setup.config) k.ops) :
    Conserved k.core ∧ ∀ ops, ops <+: k.ops →
      Conserved (ops.foldl (Core.step setup.config.brokerage)
        (BacktestKernel.initialCore setup.config)) := by
  have hinitial : ∀ ops, ops <+: k.ops → Conserved (ops.foldl (Core.step setup.config.brokerage)
      (BacktestKernel.initialCore setup.config)) := by
    rintro ops ⟨rest, hrest⟩
    rw [← hrest, along_append] at hrun
    exact (hrun.1.induction (fun c op h hok ↦ FlightInv.step hmodel h op hok.1 hok.2)
      (flightInv_initialCore setup.config.brokerage setup.config)).conserves
  refine ⟨?_, hinitial⟩
  rw [hk.replays]
  exact hinitial k.ops List.prefix_rfl

end Run

section Instances

open scoped RustDecimal

/-- The strategy buys one contract on the first bar, and cancels the order at the deadline. -/
def buyUntil (deadline : UnixNanos) : Setup (Option ClientOrderId) where
  config := ⟨[Position.perp false], ⟨"USDT", 2, two_le_maxPrecision⟩,
    ⟨100000, ⟨"USDT", 2, two_le_maxPrecision⟩⟩,
    .unlimited, ({ latencyNs := 10 } : DefaultBrokerageModel).brokerage, 0⟩
  strategyId := ⟨"S"⟩
  strategy := ⟨fun sent cb ↦ match sent, cb with
    | none, .bar _ => .submitMarket (Position.perp false).id .buy ⟨1, 0⟩ fun id ↦
        .setTimer "deadline" deadline fun _ ↦ .done (some id)
    | some id, .timer _ => .cancel id (.done (some id))
    | sent, _ => .done sent⟩
  initial := none
  killed := false
  hash := .lastInserted

/-- A bar of the perpetual at ten. -/
def barAt (ts : UnixNanos) : MarketEvent :=
  .bar { barType := ⟨(Position.perp false).id, ⟨1, .minute, .last⟩, .external⟩, open_ := ⟨100, 1⟩,
         high := ⟨100, 1⟩, low := ⟨100, 1⟩, close := ⟨100, 1⟩, volume := ⟨100, 0⟩, tsEvent := ts,
         tsInit := ts }

/-- The end of a run over two bars, if it is reached. The order is acknowledged at eleven, the
second bar fills it at twenty, and the fill arrives at thirty. -/
def endOf? (deadline : UnixNanos) : Option (BacktestKernel (Option ClientOrderId)) :=
  BacktestKernel.run (buyUntil deadline) 9 (BacktestKernel.sortedEvents [barAt 1, barAt 20])
    (BacktestKernel.start (buyUntil deadline))

def endOf (deadline : UnixNanos) : BacktestKernel (Option ClientOrderId) :=
  (endOf? deadline).getD (BacktestKernel.build (buyUntil deadline))

theorem reached_endOf {deadline : UnixNanos} (h : (endOf? deadline).isSome = true) :
    BacktestKernel.Reached (buyUntil deadline) [barAt 1, barAt 20] (endOf deadline) := by
  obtain ⟨k, hk⟩ := Option.isSome_iff_exists.mp h
  rw [endOf, hk]
  exact .finish hk

/-- The fill has arrived when the order is cancelled. -/
theorem fills_conserved_forty :
    (endOf 40).core.issued.length = 1 ∧
      (endOf 40).core.oms.signed (Position.perp false).id = 1 ∧ Conserved (endOf 40).core ∧
      ∀ ops, ops <+: (endOf 40).ops →
        Conserved (ops.foldl (Core.step (buyUntil 40).config.brokerage)
          (BacktestKernel.initialCore (buyUntil 40).config)) :=
  ⟨by decide +kernel, by decide +kernel,
    fills_conserved (buyUntil 40) [barAt 1, barAt 20] (DefaultBrokerageModel.neverOverfills _)
      (endOf 40) (reached_endOf (by decide +kernel)) (by decide +kernel)⟩

/-- **A fill is lost** when the order is cancelled while the fill is in flight. -/
theorem not_conserved_of_cancel_in_flight :
    ¬ ∀ (setup : Setup (Option ClientOrderId)) (events : List MarketEvent)
      (k : BacktestKernel (Option ClientOrderId)),
      setup.config.brokerage.NeverOverfills → BacktestKernel.Reached setup events k →
      Along (Core.step setup.config.brokerage) OpOk (BacktestKernel.initialCore setup.config)
        k.ops →
      Conserved k.core := by
  intro h
  have hconserved := h (buyUntil 25) [barAt 1, barAt 20] (endOf 25)
    (DefaultBrokerageModel.neverOverfills _) (reached_endOf (by decide +kernel)) (by decide +kernel)
  -- nothing is in flight and the position is flat, but one contract was filled
  exact absurd (hconserved.settled (by decide +kernel) (Position.perp false).id) (by decide +kernel)

end Instances

end Coinext
