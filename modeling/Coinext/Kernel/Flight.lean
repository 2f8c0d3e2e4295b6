import Coinext.Engine.Ledger
import Coinext.Kernel.Core
import Coinext.Kernel.InFlight

/-!
# Where the fills are

Every fill the venue schedules is, from then on, in exactly one place: in flight, or in the log of
its order and in the position. `FlightInv` states this for all orders at once, slice by slice. This
module has the conditions on the operations, and the step lemmas for those that pass time, move
reports, fold them, or close positions.
-/

namespace Coinext

/-! ## Slices of the core -/

namespace Core

/-- What is under way for one client order id. -/
def slice (c : Core) (id : ClientOrderId) : Slice where
  pending := c.pending.filter fun r ↦ r.clientOrderId = id
  queued := c.oms.sim.queue.entries.filter fun e ↦ e.item.clientOrderId = id
  resting := c.oms.sim.resting.filter fun r ↦ r.order.clientOrderId = id

/-- The fills that are scheduled and not folded yet. -/
def inFlight (c : Core) : List Fill :=
  (c.pending ++ c.oms.sim.queue.items).filterMap ExecutionReport.fill?

/-- When a fill scheduled now is due. -/
def bound (model : BrokerageModel) (c : Core) : UnixNanos :=
  saturatingAddNs c.clock.now (model.latencyNs .submit)

/-- What synthetic fills have added to the position of an instrument. -/
def closed (c : Core) (iid : InstrumentId) : Decimal :=
  ((c.closes.filter fun f ↦ f.instrumentId = iid).map Fill.signedQty).sum

/-- The reports about one order, in the order in which they will be folded. -/
theorem word_slice (c : Core) (id : ClientOrderId) :
    (c.slice id).word = (c.pending ++ c.oms.sim.queue.items).filter fun r ↦
      r.clientOrderId = id := by
  rw [Slice.word, List.filter_append, DueQueue.items, List.filter_map]
  rfl

end Core

/-- The fills in flight have trade ids of the venue, each its own, that were not seen yet. -/
structure TradesInv (c : Core) : Prop where
  nodup : (c.inFlight.map Fill.tradeId).Nodup
  unseen : ∀ f ∈ c.inFlight, f.tradeId ∉ c.oms.ledger.seenTradeIds
  numbered : ∀ id, id ∈ c.oms.ledger.seenTradeIds ∨ id ∈ c.inFlight.map Fill.tradeId →
    ∃ k ≤ c.oms.sim.tradeSeq, id = simTradeId k

/-- Every fill is where it belongs. -/
structure FlightInv (model : BrokerageModel) (c : Core) : Prop where
  slices : ∀ id, SliceInv c.oms.cache.instruments (c.bound model) id (c.oms.cache.order id)
    (c.slice id)
  trades : TradesInv c
  ledger : LedgerInv c.closed c.oms
  conserved : c.issued.Perm (c.oms.recordedAll ++ c.inFlight)

/-! ## Conditions on the operations -/

/-- A new order at the size precision of its instrument. -/
def OrderOk (c : Core) (order : Order) : Prop :=
  order.IsNew ∧ (order.quantity.raw : ℤ) ≤ i64Max ∧ order.quantity.precision ≤ maxPrecision ∧
    ∀ inst ∈ c.oms.cache.instrument order.instrumentId,
      order.quantity.precision = inst.sizePrecision

variable [DecimalWidth]

/-- Folding the fill overflows neither in the order nor in the position. -/
def FoldInRange (c : Core) (f : Fill) : Prop :=
  ∀ o ∈ c.oms.cache.order f.clientOrderId,
    (∃ px, Price.fromDecimal (o.fillAverage f (TrackedInv.newFilled o f)) f.lastPx.precision
      = .ok px) ∧
    ∀ inst ∈ c.oms.cache.instrument f.instrumentId,
      Position.Books inst (c.oms.positionOrFlat f.instrumentId inst) f

/-- What is assumed of every operation: submitted orders are new and at their instrument's
precision, and no arithmetic overflows. -/
def OpOk (c : Core) : CoreOp → Prop
  | .submit _ _ order _ => OrderOk c order
  | .applyNext => ∀ r ∈ c.pending.head?, ∀ f ∈ r.fill?, FoldInRange c f
  | .closeAt iid px now tagSuffix => ∀ x ∈ c.oms.closing iid px now tagSuffix,
      Position.Books x.1 x.2.1 x.2.2
  | _ => True

/-- No fill of the order is in flight; or the order is not acknowledged yet, and the `Canceled`
report, if the venue schedules one, comes after all its fills or before its acknowledgement. -/
def CancelSafe (model : BrokerageModel) (c : Core) (id : ClientOrderId) : Prop :=
  let sl := c.slice id
  let at_ := saturatingAddNs c.clock.now (model.latencyNs .cancel)
  sl.fills = [] ∨ (∃ o ∈ c.oms.cache.order id, o.status = .submitted) ∧
    (sl.resting = [] ∨ (∀ e ∈ sl.queued, e.item.fill?.isSome = true → e.due ≤ at_) ∨
      (∀ r ∈ sl.pending, r.isAccepted = false) ∧
        ∀ e ∈ sl.queued, e.due ≤ at_ → e.item.isAccepted = false)

/-- The condition under which an operation loses no fill. -/
def CancelOk (model : BrokerageModel) (c : Core) : CoreOp → Prop
  | .cancel id _ => CancelSafe model c id
  | _ => True

instance (c : Core) : (op : CoreOp) → Decidable (OpOk c op)
  | .submit _ _ order _ => inferInstanceAs (Decidable
      (order = _ ∧ _ ∧ _ ∧ ∀ inst ∈ c.oms.cache.instrument order.instrumentId, _))
  | .applyNext => inferInstanceAs (Decidable (∀ r ∈ c.pending.head?, ∀ f ∈ r.fill?,
      ∀ o ∈ c.oms.cache.order f.clientOrderId,
        (∃ px, Price.fromDecimal (o.fillAverage f (TrackedInv.newFilled o f)) f.lastPx.precision
          = .ok px) ∧ ∀ inst ∈ c.oms.cache.instrument f.instrumentId, _))
  | .closeAt iid px now tagSuffix => inferInstanceAs (Decidable
      (∀ x ∈ c.oms.closing iid px now tagSuffix, _))
  | .advance _ | .drain _ | .cancel .. | .process _ | .onMarket _ | .setTimer .. | .cancelTimer _
  | .popDue _ => isTrue trivial

instance (model : BrokerageModel) (c : Core) : (op : CoreOp) → Decidable (CancelOk model c op)
  | .cancel id _ => inferInstanceAs (Decidable (_ ∨ (∃ o ∈ c.oms.cache.order id, _) ∧ _))
  | .advance _ | .drain _ | .applyNext | .submit .. | .closeAt .. | .process _ | .onMarket _
  | .setTimer .. | .cancelTimer _ | .popDue _ => isTrue trivial

/-! ## Operations that leave orders and reports alone -/

section Frame

variable {model : BrokerageModel} {c c' : Core}

omit [DecimalWidth] in
theorem SliceInv.of_word {insts : Map InstrumentId Instrument} {bound bound' : ℕ}
    {id : ClientOrderId} {order : Option Order} {sl sl' : Slice}
    (h : SliceInv insts bound id order sl) (hbound : bound ≤ bound') (hword : sl'.word = sl.word)
    (hresting : sl'.resting = sl.resting) (hqueued : ∀ e ∈ sl'.queued, e ∈ sl.queued) :
    SliceInv insts bound' id order sl' := by
  refine ⟨fun hnone ↦ ?_, fun o ho ↦ (h.tracked o ho).of_word hbound hword hresting hqueued⟩
  obtain ⟨hp, hq, hr⟩ := h.untracked hnone
  rw [Slice.word, Slice.word, hp, hq, List.map_nil, List.append_nil, List.append_eq_nil_iff,
    List.map_eq_nil_iff] at hword
  exact ⟨hword.1, hword.2, hresting.trans hr⟩

omit [DecimalWidth] in
theorem Core.bound_mono (hnow : c.clock.now ≤ c'.clock.now) : c.bound model ≤ c'.bound model :=
  saturatingAddNs_mono hnow _

omit [DecimalWidth] in
theorem TradesInv.of_perm (h : TradesInv c) (hflight : c'.inFlight.Perm c.inFlight)
    (hseen : c'.oms.ledger.seenTradeIds = c.oms.ledger.seenTradeIds)
    (hseq : c.oms.sim.tradeSeq ≤ c'.oms.sim.tradeSeq) : TradesInv c' := by
  refine ⟨?_, ?_, ?_⟩
  · exact ((hflight.map Fill.tradeId).nodup_iff).mpr h.nodup
  · rw [hseen]
    exact fun f hf ↦ h.unseen f (hflight.mem_iff.mp hf)
  · rw [hseen]
    intro id hid
    obtain ⟨k, hk, heq⟩ := h.numbered id (hid.imp_right ((hflight.map Fill.tradeId).mem_iff.mp))
    exact ⟨k, hk.trans hseq, heq⟩

omit [DecimalWidth] in
theorem FlightInv.of_frame (h : FlightInv model c) (hnow : c.clock.now ≤ c'.clock.now)
    (hpending : c'.pending = c.pending) (hqueue : c'.oms.sim.queue = c.oms.sim.queue)
    (hresting : c'.oms.sim.resting = c.oms.sim.resting)
    (hseq : c'.oms.sim.tradeSeq = c.oms.sim.tradeSeq)
    (horders : c'.oms.cache.orders = c.oms.cache.orders)
    (hinsts : c'.oms.cache.instruments = c.oms.cache.instruments)
    (hseen : c'.oms.ledger.seenTradeIds = c.oms.ledger.seenTradeIds)
    (hissued : c'.issued.Perm c.issued) (hledger : LedgerInv c'.closed c'.oms) :
    FlightInv model c' := by
  have hslice : ∀ id, c'.slice id = c.slice id := fun id ↦ by
    rw [Core.slice, hpending, hqueue, hresting, Core.slice]
  have hflight : c'.inFlight = c.inFlight := by rw [Core.inFlight, hpending, hqueue, Core.inFlight]
  have hrecorded : c'.oms.recordedAll = c.oms.recordedAll := by
    rw [Oms.recordedAll, horders, Oms.recordedAll]
  refine ⟨fun id ↦ ?_, h.trades.of_perm (.of_eq hflight) hseen hseq.ge, hledger, ?_⟩
  · rw [hslice, hinsts, Cache.order, horders]
    exact (h.slices id).of_word (Core.bound_mono hnow) rfl rfl fun e he ↦ he
  · rw [hrecorded, hflight]
    exact hissued.trans h.conserved

omit [DecimalWidth] in
theorem FlightInv.of_clock (h : FlightInv model c) (clock : HistoricalClock)
    (hnow : c.clock.now ≤ clock.now) : FlightInv model { c with clock := clock } :=
  h.of_frame hnow rfl rfl rfl rfl rfl rfl rfl (.refl _) h.ledger

omit [DecimalWidth] in
theorem LedgerInv.process {base : InstrumentId → Decimal} {s : Oms} (h : LedgerInv base s)
    (ev : MarketEvent) : LedgerInv base { s with cache := s.cache.process ev } := by
  obtain ⟨hinsts, horders, hpositions, -⟩ := s.cache.process_frame ev
  exact h.of_quiet (.of_orders hpositions hinsts horders) subset_rfl

omit [DecimalWidth] in
theorem FlightInv.process (h : FlightInv model c) (ev : MarketEvent) :
    FlightInv model { c with oms := { c.oms with cache := c.oms.cache.process ev } } := by
  obtain ⟨hinsts, horders, -, -⟩ := c.oms.cache.process_frame ev
  exact h.of_frame le_rfl rfl rfl rfl rfl horders hinsts rfl (.refl _) (h.ledger.process ev)

omit [DecimalWidth] in
theorem FlightInv.drain (h : FlightInv model c) (frontier : UnixNanos) :
    FlightInv model { c with
      pending := c.pending ++ (c.oms.sim.queue.drainDue frontier).1
      oms := { c.oms with sim := { c.oms.sim with
        queue := (c.oms.sim.queue.drainDue frontier).2 } } } := by
  set c' : Core := { c with
    pending := c.pending ++ (c.oms.sim.queue.drainDue frontier).1
    oms := { c.oms with sim := { c.oms.sim with
      queue := (c.oms.sim.queue.drainDue frontier).2 } } } with hc'
  have hflight : c'.inFlight = c.inFlight := by
    rw [Core.inFlight, hc', List.append_assoc, DueQueue.drainDue_append, Core.inFlight]
  have hword : ∀ id, (c'.slice id).word = (c.slice id).word := fun id ↦ by
    rw [Core.word_slice, Core.word_slice, hc', List.append_assoc, DueQueue.drainDue_append]
  refine ⟨fun id ↦ ?_, h.trades.of_perm (.of_eq hflight) rfl le_rfl, ?_, ?_⟩
  · refine (h.slices id).of_word le_rfl (hword id) rfl fun e he ↦ ?_
    exact ((List.dropWhile_sublist _).filter _).subset he
  · exact ⟨h.ledger.keyed, h.ledger.sum, h.ledger.seen, h.ledger.nodup⟩
  · rw [hflight]
    exact h.conserved

end Frame

/-! ## Closing a position -/

section Close

variable {model : BrokerageModel} {c : Core} {iid : InstrumentId} {px : Price} {now : UnixNanos}
  {tagSuffix : String} {inst : Instrument} {pos : Position} {f : Fill}

omit [DecimalWidth] in
theorem closing_eq_some {s : Oms} (h : s.closing iid px now tagSuffix = some (inst, pos, f)) :
    s.cache.instrument iid = some inst ∧ s.cache.position iid = some pos ∧
      closingFill pos inst iid px now tagSuffix = some f := by
  simp only [Oms.closing, bind, Option.bind_eq_some_iff, Option.some.injEq, Prod.mk.injEq] at h
  obtain ⟨inst', hinst, pos', hpos, f', hfill, rfl, rfl, rfl⟩ := h
  exact ⟨hinst, hpos, hfill⟩

omit [DecimalWidth] in
theorem terms_closingFill (h : closingFill pos inst iid px now tagSuffix = some f) :
    f.instrumentId = iid ∧ f.lastQty = pos.quantity := by
  obtain ⟨side, -, rfl⟩ := Option.map_eq_some_iff.mp h
  exact ⟨rfl, rfl⟩

theorem position_upsert_applied {cache : Cache} (hid : pos.instrumentId = iid) (inst : Instrument)
    (f : Fill) (i : InstrumentId) : (cache.upsertPosition (pos.applied inst f)).position i
      = if i = iid then some (pos.applied inst f) else cache.position i := by
  change (cache.positions.insert (pos.applied inst f).instrumentId (pos.applied inst f)).lookup i
    = _
  rw [Position.instrumentId_applied, hid]
  split_ifs with hi
  · rw [hi, AList.lookup_insert]
  · rw [AList.lookup_insert_ne hi]
    rfl

theorem Oms.Keyed.upsert_applied {s : Oms} (h : s.Keyed)
    (hinst : s.cache.instrument iid = some inst)
    (hpos : s.cache.position iid = some pos) (f : Fill) :
    Oms.Keyed { s with cache := s.cache.upsertPosition (pos.applied inst f) } := by
  obtain ⟨hid, inst', hinst', hwf⟩ := h iid pos hpos
  obtain rfl : inst' = inst := Option.some.inj (hinst'.symm.trans hinst)
  intro i p hp
  rw [position_upsert_applied hid] at hp
  split_ifs at hp with hi
  · cases hp
    subst hi
    exact ⟨(Position.instrumentId_applied _ _ _).trans hid, inst', hinst, hwf.applied f⟩
  · exact h i p hp

/-- A synthetic fill moves the position and the account of synthetic fills alike. -/
theorem LedgerInv.close (h : LedgerInv c.closed c.oms)
    (hclosing : c.oms.closing iid px now tagSuffix = some (inst, pos, f))
    (hbooks : Position.Books inst pos f) :
    LedgerInv (Core.closed { c with closes := c.closes ++ [f] })
      { c.oms with cache := c.oms.cache.upsertPosition (pos.applied inst f) } := by
  obtain ⟨hinst, hpos, hfill⟩ := closing_eq_some hclosing
  obtain ⟨rfl, hqty⟩ := terms_closingFill hfill
  obtain ⟨hid, inst', hinst', hwf⟩ := h.keyed _ pos hpos
  obtain rfl : inst' = inst := Option.some.inj (hinst'.symm.trans hinst)
  have hsigned : (pos.applied inst' f).signed = pos.signed + f.signedQty := by
    refine hwf.signed_applied hbooks (Fill.onGrid_signedQty ?_)
    rw [hqty, ← hwf.quantity]
    exact pos.quantity.onGrid_asDecimal
  set s' : Oms := { c.oms with cache := c.oms.cache.upsertPosition (pos.applied inst' f) }
  refine ⟨h.keyed.upsert_applied hinst hpos f, ?_, h.seen, h.nodup⟩
  · intro i
    have hold := h.sum i
    have hclosed : Core.closed { c with closes := c.closes ++ [f] } i
        = c.closed i + if f.instrumentId = i then f.signedQty else 0 := by
      simp only [Core.closed, List.filter_append, List.map_append, List.sum_append]
      congr 1
      split_ifs with hi <;> simp [hi]
    have hrecorded : s'.recorded i = c.oms.recorded i := rfl
    rw [hclosed, hrecorded, Oms.signed, position_upsert_applied hid]
    by_cases hi : i = f.instrumentId
    · rw [hi, Oms.signed, hpos] at hold
      rw [if_pos hi, if_pos hi.symm, hi]
      simp only at hold ⊢
      rw [hsigned, hold]
      ring
    · rw [if_neg hi, if_neg (Ne.symm hi), add_zero]
      exact hold

theorem FlightInv.close (h : FlightInv model c)
    (hclosing : c.oms.closing iid px now tagSuffix = some (inst, pos, f))
    (hbooks : Position.Books inst pos f) :
    FlightInv model { c with
      oms := { c.oms with cache := c.oms.cache.upsertPosition (pos.applied inst f) }
      closes := c.closes ++ [f] } :=
  h.of_frame le_rfl rfl rfl rfl rfl rfl rfl rfl (.refl _) (h.ledger.close hclosing hbooks)

end Close

/-! ## Folding a report -/

section Deliver

open ExecutionEngine

variable {model : BrokerageModel} {c c' : Core} {r : ExecutionReport}
  {rest : List ExecutionReport} {o o' : Order}

theorem applyToOrder_of_order {s : Oms} {id : ClientOrderId} (ho : s.cache.order id = some o)
    (ev : OrderEvent) : (applyToOrder id ev s).2 = s.setOrder id (o.applied ev) := by
  simp only [applyToOrder, ho]
  rfl

omit [DecimalWidth] in
/-- When one order is set and no other slice changes, there is one slice to look at. -/
theorem sliceInv_of_insert (h : FlightInv model c) {id : ClientOrderId}
    (horders : c'.oms.cache.orders = c.oms.cache.orders.insert id o')
    (hinsts : c'.oms.cache.instruments = c.oms.cache.instruments)
    (hnow : c'.clock.now = c.clock.now) (hother : ∀ i ≠ id, c'.slice i = c.slice i)
    (hself : TrackedInv c.oms.cache.instruments (c.bound model) id (c'.slice id) o')
    (i : ClientOrderId) :
    SliceInv c'.oms.cache.instruments (c'.bound model) i (c'.oms.cache.order i) (c'.slice i) := by
  rw [hinsts, Core.bound, hnow, ← Core.bound, Cache.order, horders]
  by_cases hi : i = id
  · subst hi
    rw [AList.lookup_insert]
    refine ⟨fun hnone ↦ (by cases hnone), fun p hp ↦ ?_⟩
    cases hp
    exact hself
  · rw [AList.lookup_insert_ne hi, hother i hi]
    exact h.slices i

omit [DecimalWidth] in
/-- One order is set, its slice changes and no fill moves. -/
theorem FlightInv.of_insert (h : FlightInv model c) {id : ClientOrderId}
    (horders : c'.oms.cache.orders = c.oms.cache.orders.insert id o')
    (hquiet : c.oms.Quiet c'.oms) (hnow : c'.clock.now = c.clock.now)
    (hseen : c'.oms.ledger.seenTradeIds = c.oms.ledger.seenTradeIds)
    (hseq : c'.oms.sim.tradeSeq = c.oms.sim.tradeSeq) (hissued : c'.issued = c.issued)
    (hcloses : c'.closes = c.closes) (hflight : c'.inFlight.Perm c.inFlight)
    (hother : ∀ i ≠ id, c'.slice i = c.slice i)
    (hself : TrackedInv c.oms.cache.instruments (c.bound model) id (c'.slice id) o') :
    FlightInv model c' := by
  refine ⟨sliceInv_of_insert h horders hquiet.instruments hnow hother hself,
    h.trades.of_perm hflight hseen hseq.ge, ?_, ?_⟩
  · have hclosed : c'.closed = c.closed := by
      funext iid
      rw [Core.closed, hcloses, Core.closed]
    rw [hclosed]
    exact h.ledger.of_quiet hquiet hseen.ge
  · rw [hissued]
    exact h.conserved.trans (hquiet.recordedAll.symm.append hflight.symm)

omit [DecimalWidth] in
/-- The head of the drained reports belongs to a tracked order, and is the next of its reports. -/
theorem FlightInv.head (h : FlightInv model c) (hp : c.pending = r :: rest) :
    (c.slice r.clientOrderId).pending
        = r :: rest.filter (fun x ↦ x.clientOrderId = r.clientOrderId) ∧
      ∃ o, c.oms.cache.order r.clientOrderId = some o ∧
        TrackedInv c.oms.cache.instruments (c.bound model) r.clientOrderId
          (c.slice r.clientOrderId) o := by
  have hpending : (c.slice r.clientOrderId).pending
      = r :: rest.filter (fun x ↦ x.clientOrderId = r.clientOrderId) := by
    rw [Core.slice, hp, List.filter_cons_of_pos (by simp)]
  refine ⟨hpending, ?_⟩
  cases ho : c.oms.cache.order r.clientOrderId with
  | none =>
    have hnil := ((h.slices r.clientOrderId).untracked ho).1
    rw [hpending] at hnil
    cases hnil
  | some o => exact ⟨o, rfl, (h.slices r.clientOrderId).tracked o ho⟩

omit [DecimalWidth] in
/-- The slices when the head of the drained reports is taken off. -/
theorem slice_of_tail (hp : c.pending = r :: rest) (hp' : c'.pending = rest)
    (hsim : c'.oms.sim = c.oms.sim) :
    (∀ i ≠ r.clientOrderId, c'.slice i = c.slice i) ∧
      c'.slice r.clientOrderId = { c.slice r.clientOrderId with
        pending := rest.filter fun x ↦ x.clientOrderId = r.clientOrderId } := by
  refine ⟨fun i hi ↦ ?_, ?_⟩
  · rw [Core.slice, Core.slice, hsim, hp, hp', List.filter_cons_of_neg (by simpa using Ne.symm hi)]
  · rw [Core.slice, Core.slice, hsim, hp']

/-- A report that is no fill. -/
theorem FlightInv.deliver (h : FlightInv model c) (hp : c.pending = r :: rest) {ev : OrderEvent}
    (hfill : r.fill? = none) (hev : ev.fill? = none) (hamend : ev.amendedQty? = none)
    (hphase : ∀ o : Order, (o.applied ev).status.phase = o.status.phase.next r) :
    FlightInv model { c with
      oms := (applyToOrder r.clientOrderId ev c.oms).2
      pending := rest } := by
  obtain ⟨hpending, o, ho, htracked⟩ := h.head hp
  have hquiet := c.oms.quiet_applyToOrder r.clientOrderId hev
  rw [applyToOrder_of_order ho] at hquiet ⊢
  set c' : Core := { c with
    oms := c.oms.setOrder r.clientOrderId (o.applied ev)
    pending := rest }
  have hflight : c'.inFlight = c.inFlight := by
    rw [Core.inFlight, Core.inFlight, hp, List.cons_append, List.filterMap_cons_none hfill]
    rfl
  obtain ⟨hother, hself⟩ := slice_of_tail hp (show c'.pending = rest from rfl) rfl
  refine h.of_insert rfl hquiet rfl rfl rfl rfl rfl (.of_eq hflight) hother ?_
  rw [hself]
  exact htracked.deliver hpending hfill (Order.sameBalance_applied hev hamend) (hphase o)

/-- A fill: its order takes it, and the position follows. -/
theorem FlightInv.deliver_fill (h : FlightInv model c) {f : Fill}
    (hp : c.pending = .fill f :: rest) (hrange : FoldInRange c f) :
    FlightInv model { c with oms := (applyFillReport f c.oms).2, pending := rest } := by
  obtain ⟨hpending, o, (ho : c.oms.cache.order f.clientOrderId = some o), htracked⟩ := h.head hp
  obtain ⟨-, -, hinst, hprec, -⟩ := htracked.next_fill hpending
  obtain ⟨havg, hbooks⟩ := hrange o ho
  have htakes := htracked.accepts_fill hpending havg
  have hflight : c.inFlight = f :: Core.inFlight { c with pending := rest } := by
    rw [Core.inFlight, hp]
    rfl
  have hunseen : f.tradeId ∉ c.oms.ledger.seenTradeIds :=
    h.trades.unseen f (by rw [hflight]; exact List.mem_cons_self)
  have hok : FillOk c.oms o f := by
    obtain ⟨inst, hlookup, hsize⟩ := htracked.sound.known
    have hlookup' : c.oms.cache.instrument f.instrumentId = some inst := by
      rw [hinst]
      exact hlookup
    exact ⟨hinst, inst, hlookup', hprec.trans hsize, hbooks inst hlookup'⟩
  obtain ⟨o', hacc, hfolded⟩ := applyFillReport_of_unseen ho hunseen htakes
  have hseen := seenTradeIds_folded c.oms f o'
  have horders := orders_folded c.oms f o'
  have hsim : (folded c.oms f o').sim = c.oms.sim := sim_foldPosition _ _
  have hinsts := instruments_folded c.oms f o'
  rw [hfolded]
  set c' : Core := { c with oms := folded c.oms f o', pending := rest }
  have hflight' : c'.inFlight = Core.inFlight { c with pending := rest } := by
    rw [Core.inFlight, Core.inFlight]
    change (rest ++ (folded c.oms f o').sim.queue.items).filterMap _ = _
    rw [hsim]
  rw [← hflight'] at hflight
  have hnodup := h.trades.nodup
  rw [hflight, List.map_cons, List.nodup_cons] at hnodup
  obtain ⟨hother, hself⟩ := slice_of_tail hp (show c'.pending = rest from rfl) hsim
  refine ⟨sliceInv_of_insert h horders hinsts rfl hother ?_, ⟨?_, ?_, ?_⟩, ?_, ?_⟩
  · rw [show f.clientOrderId = (ExecutionReport.fill f).clientOrderId from rfl, hself]
    exact htracked.deliver_fill hpending (fill?_fillEvent o f) hacc
  · exact hnodup.2
  · intro g hg
    change g.tradeId ∉ (folded c.oms f o').ledger.seenTradeIds
    rw [hseen, Finset.mem_insert, not_or]
    refine ⟨fun heq ↦ hnodup.1 (heq ▸ List.mem_map_of_mem hg), ?_⟩
    exact h.trades.unseen g (by rw [hflight]; exact List.mem_cons_of_mem f hg)
  · intro id hmem
    have hnumbered := h.trades.numbered id
    change id ∈ (folded c.oms f o').ledger.seenTradeIds ∨ _ at hmem
    change ∃ k ≤ (folded c.oms f o').sim.tradeSeq, _
    rw [hseen, Finset.mem_insert] at hmem
    rw [hsim]
    rw [hflight, List.map_cons, List.mem_cons] at hnumbered
    exact hnumbered (by tauto)
  · exact h.ledger.folded ho hacc hunseen hok
  · calc c.issued.Perm (c.oms.recordedAll ++ c.inFlight) := h.conserved
      _ = c.oms.recordedAll ++ ([f] ++ c'.inFlight) := by rw [hflight]; rfl
      _ = (c.oms.recordedAll ++ [f]) ++ c'.inFlight := (List.append_assoc _ _ _).symm
      _ |>.Perm ((folded c.oms f o').recordedAll ++ c'.inFlight) :=
        (recordedAll_folded ho hacc).symm.append_right _

end Deliver

end Coinext
