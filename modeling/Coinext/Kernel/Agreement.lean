import Coinext.Kernel.Custody
import Coinext.Sim.Quantities

/-!
# The engine and the venue agree

The order-management engine and the venue keep two accounts of the same orders: the engine by the
reports it has folded, the venue by its resting orders. Between the two are the reports in flight.
`Settles` says what these will bring about: an order that rests is short of its quantity by exactly
what rests, once all its fills have arrived, and an order that has ceased to rest is, when its last
report has arrived, filled, cancelled or denied.

So as soon as no report about an order is in flight, the engine has it open if and only if it rests
at the venue, and what the engine takes to be left of it is what the venue has left
(`agreement_of_run`). This rests on the condition under which no fill is lost to a cancellation, and
on the cancel latency being no shorter than the submit latency: a cancellation that overtakes the
acknowledgement is refused by the engine, which then takes a withdrawn order for an open one.
-/

namespace Coinext

open ExecutionEngine SimulatedExecutionClient

/-! ## What the reports in flight will bring about -/

def CoreOp.submitted? : CoreOp → Option Order
  | .submit _ _ order _ => some order
  | _ => none

def ExecutionReport.isCanceled : ExecutionReport → Bool
  | .canceled _ => true
  | _ => false

/-- The statuses of an order of the kernel. -/
def OrderStatus.IsSettling : OrderStatus → Prop
  | .submitted | .accepted | .partiallyFilled | .pendingCancel | .filled | .canceled
  | .denied => True
  | _ => False

/-- What is under way for an order accounts for all of it. -/
structure Settles (sl : Slice) (o : Order) : Prop where
  status : o.status.IsSettling
  resting : ∀ r ∈ sl.resting, 0 < r.remaining.raw
  balance : sl.resting ≠ [] → o.filledQty.raw + sl.fillsRaw + sl.restingRaw = o.quantity.raw
  /-- An order that does not rest is filled, or its last report ends it. -/
  ended : sl.resting = [] → o.filledQty.raw + sl.fillsRaw = o.quantity.raw ∨
    o.status.phase.after sl.word = .done ∧
      (o.status = .pendingCancel → ∃ r ∈ sl.word, r.isCanceled = true)
  unfilled : o.isTerminal = false → o.filledQty.raw < o.quantity.raw

theorem Phase.after_done (w : List ExecutionReport) : Phase.done.after w = .done := by
  induction w with
  | nil => rfl
  | cons r w ih => exact ih

theorem Phase.exists_canceled_of_after {w : List ExecutionReport} (h : Phase.live.after w = .done) :
    ∃ r ∈ w, r.isCanceled = true := by
  induction w with
  | nil => cases h
  | cons r w ih =>
    cases r with
    | canceled id => exact ⟨_, List.mem_cons_self, rfl⟩
    | _ =>
      obtain ⟨r', hr', hcanceled⟩ := ih h
      exact ⟨r', List.mem_cons_of_mem _ hr', hcanceled⟩

namespace Settles

variable {sl sl' : Slice} {o o' : Order}

theorem of_word (h : Settles sl o) (hword : sl'.word = sl.word)
    (hresting : sl'.resting = sl.resting) : Settles sl' o := by
  have hfills : sl'.fillsRaw = sl.fillsRaw := by
    rw [Slice.fillsRaw, Slice.fills, hword, Slice.fillsRaw, Slice.fills]
  refine ⟨h.status, ?_, ?_, ?_, h.unfilled⟩
  · rw [hresting]
    exact h.resting
  · rw [hfills, Slice.restingRaw, hresting]
    exact h.balance
  · rw [hfills, hword, hresting]
    exact h.ended

/-- **Nothing is in flight:** the order is open if and only if it rests, and the same is left of it
for both. -/
theorem agrees {insts : Map InstrumentId Instrument} {bound : ℕ} {id : ClientOrderId}
    (h : Settles sl o) (htracked : TrackedInv insts bound id sl o) (hnone : sl.word = []) :
    (∀ r ∈ sl.resting, (o.status = .accepted ∨ o.status = .partiallyFilled) ∧
      o.leavesQty = r.remaining) ∧ (o.isTerminal = false → ∃ r, sl.resting = [r]) := by
  have hfills : sl.fillsRaw = 0 := by
    rw [Slice.fillsRaw, Slice.fills, hnone]
    rfl
  have hone : ∀ r ∈ sl.resting, sl.resting = [r] := by
    intro r hr
    obtain ⟨r', hr'⟩ := List.length_eq_one_iff.mp
      (le_antisymm htracked.one (List.length_pos_of_mem hr))
    rw [hr', List.mem_singleton] at hr
    rw [hr', hr]
  refine ⟨fun r hr ↦ ⟨?_, ?_⟩, fun hopen ↦ ?_⟩
  · obtain ⟨hlive, -⟩ := htracked.ready r hr (h.resting r hr)
    rw [hnone] at hlive
    cases hs : o.status <;> rw [hs] at hlive <;> first
      | exact .inl rfl
      | exact .inr rfl
      | cases hlive
  · have hbalance := h.balance (List.ne_nil_of_mem hr)
    rw [hfills, Slice.restingRaw, hone r hr, List.map_singleton, List.sum_singleton] at hbalance
    have hfilled := htracked.sound.filled.filledQty_eq
    rw [Order.leavesQty_eq htracked.sound.precision_le (by rw [hfilled])
      (by have := htracked.sound.range; omega)]
    have hraw : o.quantity.raw - o.filledQty.raw = r.remaining.raw := by omega
    exact congrArg₂ Quantity.mk hraw (htracked.resting r hr).2.symm
  · have hstatus := h.status
    have hunfilled := h.unfilled hopen
    cases hresting : sl.resting with
    | cons r rest => exact ⟨r, hresting ▸ hone r (hresting ▸ List.mem_cons_self)⟩
    | nil =>
      exfalso
      rcases h.ended hresting with hfull | ⟨hdone, hpending⟩
      · omega
      · rw [hnone] at hdone hpending
        have hne : o.status ≠ .pendingCancel := fun hs ↦ by
          obtain ⟨r, hr, -⟩ := hpending hs
          cases hr
        rw [Order.isTerminal] at hopen
        cases hs : o.status <;> rw [hs] at hdone hopen hstatus hne <;> first
          | exact hstatus
          | exact hne rfl
          | (cases hopen; done)
          | cases hdone

/-! ## One step of an order -/

theorem denied (hstatus : o.status = .denied) (hresting : sl.resting = []) : Settles sl o where
  status := by rw [hstatus]; trivial
  resting := by rw [hresting]; exact fun r hr ↦ absurd hr List.not_mem_nil
  balance h := absurd hresting h
  ended _ := by
    rw [hstatus]
    exact .inr ⟨Phase.after_done _, fun h ↦ by cases h⟩
  unfilled h := by
    rw [Order.isTerminal, hstatus] at h
    cases h

/-- A new order that has just been routed. -/
theorem placed (hstatus : o.status = .submitted) (hfilled : o.filledQty.raw = 0)
    (hpos : 0 < o.quantity.raw) {r : Resting} (hremaining : r.remaining = o.quantity)
    (hresting : sl.resting = [r]) (hfills : sl.fills = []) : Settles sl o where
  status := by rw [hstatus]; trivial
  resting := by
    rw [hresting]
    intro r' hr'
    rw [List.mem_singleton.mp hr', hremaining]
    exact hpos
  balance _ := by
    simp [Slice.fillsRaw, Slice.restingRaw, hfills, hresting, hfilled, hremaining]
  ended h := by
    rw [hresting] at h
    cases h
  unfilled _ := by omega

/-- An acknowledgement or a cancellation is folded. -/
theorem deliver (h : Settles sl o) {r : ExecutionReport} {rest : List ExecutionReport}
    (hp : sl.pending = r :: rest) (hfill : r.fill? = none) (hsame : SameBalance o o')
    (hphase : o'.status.phase = o.status.phase.next r)
    (hstatus : o'.status = o.status ∨ o.isTerminal = false ∧ o'.status.IsSettling ∧
      o'.status ≠ .pendingCancel)
    (hcanceled : r.isCanceled = true → o'.status ≠ .pendingCancel) :
    Settles { sl with pending := rest } o' := by
  have hword : sl.word = r :: Slice.word { sl with pending := rest } := by
    rw [Slice.word, hp, List.cons_append]
    rfl
  have hfills : sl.fillsRaw = Slice.fillsRaw { sl with pending := rest } := by
    rw [Slice.fillsRaw, Slice.fills, hword, List.filterMap_cons_none hfill]
    rfl
  refine ⟨?_, h.resting, ?_, fun hresting ↦ ?_, fun hopen ↦ ?_⟩
  · rcases hstatus with heq | ⟨-, hsettling, -⟩
    · rw [heq]
      exact h.status
    · exact hsettling
  · rw [hsame.filledQty, hsame.quantity, ← hfills]
    exact h.balance
  · rw [hsame.filledQty, hsame.quantity, ← hfills, hphase]
    refine (h.ended hresting).imp_right ?_
    rintro ⟨hdone, hpending⟩
    rw [hword, Phase.after_cons] at hdone
    refine ⟨hdone, fun hs ↦ ?_⟩
    obtain ⟨r', hr', hr'canceled⟩ := hpending (by
      rcases hstatus with heq | ⟨-, -, hne⟩
      · exact heq ▸ hs
      · exact absurd hs hne)
    rw [hword] at hr'
    rcases List.mem_cons.mp hr' with rfl | hmem
    · exact absurd hs (hcanceled hr'canceled)
    · exact ⟨r', hmem, hr'canceled⟩
  · rw [hsame.filledQty, hsame.quantity]
    refine h.unfilled ?_
    rcases hstatus with heq | ⟨hterminal, -⟩
    · rwa [Order.isTerminal, heq] at hopen
    · exact hterminal

/-- A fill is folded. -/
theorem deliver_fill (h : Settles sl o) {f : Fill} {rest : List ExecutionReport}
    (hp : sl.pending = .fill f :: rest) (hlive : o.status.phase = .live)
    (hquantity : o'.quantity = o.quantity)
    (hfilled : o'.filledQty.raw = o.filledQty.raw + f.lastQty.raw)
    (hstatus : o'.status = if o'.quantity.raw ≤ o'.filledQty.raw then .filled
      else .partiallyFilled) : Settles { sl with pending := rest } o' := by
  have hword : sl.word = .fill f :: Slice.word { sl with pending := rest } := by
    rw [Slice.word, hp, List.cons_append]
    rfl
  have hfills : sl.fillsRaw = f.lastQty.raw + Slice.fillsRaw { sl with pending := rest } := by
    rw [Slice.fillsRaw, Slice.fills, hword]
    rfl
  refine ⟨?_, h.resting, fun hne ↦ ?_, fun hresting ↦ ?_, fun hopen ↦ ?_⟩
  · rw [hstatus]
    split_ifs <;> trivial
  · have hbalance := h.balance hne
    rw [hquantity, hfilled]
    change _ + Slice.fillsRaw { sl with pending := rest } + sl.restingRaw = _
    omega
  · rcases h.ended hresting with hfull | ⟨hdone, -⟩
    · left
      rw [hquantity]
      omega
    · right
      rw [hword, Phase.after_cons, hlive] at hdone
      rw [hstatus]
      split_ifs
      · exact ⟨Phase.after_done _, fun h ↦ by cases h⟩
      · exact ⟨hdone, fun h ↦ by cases h⟩
  · rw [Order.isTerminal, hstatus] at hopen
    split_ifs at hopen with hfull
    · cases hopen
    · exact not_le.mp hfull

/-- The venue schedules a fill of the resting order, or none, and keeps the rest. -/
theorem matched (h : Settles sl o) {r : Resting} {kept : List Resting} {new : List Fill}
    (hr : sl.resting = [r]) (hresting : sl'.resting = kept)
    (hword : sl'.word = sl.word ++ new.map .fill)
    (hkept : ∀ r' ∈ kept, 0 < r'.remaining.raw)
    (hsum : (new.map fun f ↦ f.lastQty.raw).sum + (kept.map fun r ↦ r.remaining.raw).sum
      = r.remaining.raw) : Settles sl' o := by
  have hbalance := h.balance (by rw [hr]; exact List.cons_ne_nil _ _)
  rw [Slice.restingRaw, hr, List.map_singleton, List.sum_singleton] at hbalance
  have hfills : sl'.fillsRaw = sl.fillsRaw + (new.map fun f ↦ f.lastQty.raw).sum := by
    have hnew : (new.map ExecutionReport.fill).filterMap ExecutionReport.fill? = new := by
      rw [List.filterMap_map]
      exact List.filterMap_some
    rw [Slice.fillsRaw, Slice.fills, hword, List.filterMap_append, hnew, List.map_append,
      List.sum_append]
    rfl
  refine ⟨h.status, by rwa [hresting], fun _ ↦ ?_, fun hnil ↦ .inl ?_, h.unfilled⟩
  · rw [hfills, Slice.restingRaw, hresting]
    omega
  · rw [hresting] at hnil
    rw [hnil, List.map_nil, List.sum_nil] at hsum
    omega

/-- The engine asks to cancel an order that does not rest. -/
theorem cancel_absent (h : Settles sl o) (hsame : SameBalance o o')
    (hstatus : o'.status = o.status ∨ o.status.phase = .live ∧ o'.status = .pendingCancel)
    (hfills : o.status.phase = .live → sl.fills = []) (hresting : sl.resting = []) :
    Settles sl o' := by
  rcases hstatus with heq | ⟨hlive, hpending⟩
  · refine ⟨heq ▸ h.status, h.resting, fun hne ↦ absurd hresting hne, ?_, ?_⟩
    · rw [hsame.filledQty, hsame.quantity, heq]
      exact h.ended
    · rw [hsame.filledQty, hsame.quantity, Order.isTerminal, heq]
      exact h.unfilled
  · have hopen : o.isTerminal = false := by
      rw [Order.isTerminal]
      cases hs : o.status <;> rw [hs] at hlive <;> first
        | rfl
        | cases hlive
    have hunfilled := h.unfilled hopen
    refine ⟨by rw [hpending]; trivial, h.resting, fun hne ↦ absurd hresting hne, fun _ ↦ ?_, ?_⟩
    · rcases h.ended hresting with hfull | ⟨hdone, -⟩
      · rw [Slice.fillsRaw, hfills hlive, List.map_nil, List.sum_nil] at hfull
        omega
      · rw [hlive] at hdone
        rw [hpending]
        exact .inr ⟨Phase.after_done _, fun _ ↦ Phase.exists_canceled_of_after hdone⟩
    · rw [hsame.filledQty, hsame.quantity]
      exact fun _ ↦ hunfilled

theorem status_pendingCancel [DecimalWidth] (h : Settles sl o) (now : UnixNanos) :
    (o.applied (.pendingCancel now)).status = o.status ∨
      o.status.phase = .live ∧ (o.applied (.pendingCancel now)).status = .pendingCancel := by
  by_cases hmem : o.status ∈ (OrderEvent.pendingCancel now).allowedFrom
  · rw [Order.applied_of_mem hmem rfl]
    refine .inr ⟨?_, rfl⟩
    have hstatus := h.status
    simp only [OrderEvent.allowedFrom, List.mem_cons, List.not_mem_nil, or_false] at hmem
    rcases hmem with hs | hs | hs <;> rw [hs] at hstatus ⊢
    · rfl
    · rfl
    · exact hstatus.elim
  · obtain ⟨e, he⟩ := Order.apply_of_notMem hmem
    rw [Order.applied, he]
    exact .inl rfl

/-- The venue withdraws the order, and the cancellation is its last report. -/
theorem cancel_resting (h : Settles sl o) (hsame : SameBalance o o')
    (hstatus : o'.status = o.status ∨ o.status.phase = .live ∧ o'.status = .pendingCancel)
    (hlive : o.status.phase.after sl.word = .live) {id : ClientOrderId}
    (hword : sl'.word = sl.word ++ [.canceled id]) (hresting : sl'.resting = []) :
    Settles sl' o' := by
  have hcanceled : ∃ r ∈ sl'.word, r.isCanceled = true := by
    rw [hword]
    exact ⟨.canceled id, List.mem_append_right _ List.mem_cons_self, rfl⟩
  refine ⟨?_, ?_, fun hne ↦ absurd hresting hne, fun _ ↦ .inr ⟨?_, fun _ ↦ hcanceled⟩, ?_⟩
  · rcases hstatus with heq | ⟨-, hpending⟩
    · exact heq ▸ h.status
    · rw [hpending]
      trivial
  · rw [hresting]
    exact fun r hr ↦ absurd hr List.not_mem_nil
  · rcases hstatus with heq | ⟨-, hpending⟩
    · rw [heq, hword, Phase.after_append, hlive]
      rfl
    · rw [hpending]
      exact Phase.after_done _
  · rw [hsame.filledQty, hsame.quantity]
    rcases hstatus with heq | ⟨hphase, -⟩
    · rw [Order.isTerminal, heq]
      exact h.unfilled
    · refine fun _ ↦ h.unfilled ?_
      rw [Order.isTerminal]
      cases hs : o.status <;> rw [hs] at hphase <;> first
        | rfl
        | cases hphase

end Settles

/-! ## Every order of the core -/

/-- Every tracked order is accounted for. -/
def Core.Settling (c : Core) : Prop :=
  ∀ id o, c.oms.cache.order id = some o → Settles (c.slice id) o

section Core

variable {model : BrokerageModel} {c c' : Core} {id : ClientOrderId} {o o' : Order}

theorem Core.Settling.of_word (h : c.Settling)
    (horders : c'.oms.cache.orders = c.oms.cache.orders)
    (hword : ∀ id, (c'.slice id).word = (c.slice id).word)
    (hresting : c'.oms.sim.resting = c.oms.sim.resting) : c'.Settling := by
  intro id o ho
  rw [Cache.order, horders] at ho
  exact (h id o ho).of_word (hword id) (by rw [Core.slice, hresting, Core.slice])

/-- One order is set, and no other slice changes. -/
theorem Core.Settling.of_insert (h : c.Settling)
    (horders : c'.oms.cache.orders = c.oms.cache.orders.insert id o')
    (hother : ∀ i ≠ id, c'.slice i = c.slice i) (hself : Settles (c'.slice id) o') :
    c'.Settling := by
  intro i p hp
  rw [Cache.order, horders] at hp
  by_cases hi : i = id
  · subst hi
    rw [AList.lookup_insert] at hp
    exact Option.some.inj hp ▸ hself
  · rw [AList.lookup_insert_ne hi] at hp
    rw [hother i hi]
    exact h i p hp

variable [DecimalWidth]

theorem Core.Settling.submit (h : c.Settling) (hflight : FlightInv model c) (risk : RiskEngine)
    (portfolio : Portfolio) {order : Order} (now : UnixNanos) (hok : OrderOk c order)
    (hpos : 0 < order.quantity.raw) :
    (c.step model (.submit risk portfolio order now)).Settling := by
  have hstep : c.step model (.submit risk portfolio order now)
      = { c with oms := (ExecutionEngine.submit risk portfolio model c.clock.now order now
          c.oms).2 } := rfl
  rw [hstep]
  rcases submit_cases risk portfolio model c.clock.now order now c.oms with
    heq | ⟨ev, s', heq, hnone, ⟨inst, hinst⟩, hcache, -, hev⟩
  · rw [heq]
    exact h
  rw [heq]
  have hid : (order.applied ev).clientOrderId = order.clientOrderId :=
    (order.sameTerms_applied ev).clientOrderId
  obtain ⟨hpending, hqueued, hresting⟩ := (hflight.slices order.clientOrderId).untracked hnone
  set c' : Core := { c with oms := s' }
  have horders : c'.oms.cache.orders
      = c.oms.cache.orders.insert order.clientOrderId (order.applied ev) := by
    change s'.cache.orders = _
    rw [hcache, Cache.addOrder, hid]
  rcases hev with ⟨reason, rfl, hsim⟩ | ⟨rfl, hsim⟩
  · have hslice : ∀ i, c'.slice i = c.slice i := fun i ↦ by
      rw [Core.slice, Core.slice, show c'.oms.sim = c.oms.sim from hsim]
    refine h.of_insert horders (fun i _ ↦ hslice i) ?_
    rw [hslice]
    exact .denied (Order.status_applied_denied hok.1 reason now) hresting
  · have hsame := order.sameBalance_applied (show (OrderEvent.submitted now).fill? = none from rfl)
      rfl
    have hinst' :
        s'.cache.instrument (order.applied (.submitted now)).instrumentId = some inst := by
      rw [hsame.instrumentId, hcache]
      exact hinst
    obtain ⟨v, r, hrorder, hrqty, hplaced⟩ := onSubmit_eq model c.clock.now hinst' c.oms.sim
    rw [hplaced, hid] at hsim
    have hqueue : c'.oms.sim.queue = c.oms.sim.queue.push (c.bound model)
        (.accepted order.clientOrderId v) := congrArg SimState.queue hsim
    have hrest : c'.oms.sim.resting = c.oms.sim.resting ++ [r] := congrArg SimState.resting hsim
    have hrid : r.order.clientOrderId = order.clientOrderId := by rw [hrorder, hid]
    refine h.of_insert horders (fun i hi ↦ ?_) (.placed (status_applied_submitted hok.1 now) ?_ ?_
      hrqty ?_ ?_)
    · rw [Core.slice, hqueue, hrest, slice_push_of_ne (Ne.symm hi), List.filter_append,
        List.filter_cons_of_neg (by simpa [hrid] using Ne.symm hi), List.filter_nil,
        List.append_nil]
      rfl
    · rw [hsame.filledQty, hok.1]
      rfl
    · rwa [hsame.quantity]
    · change c'.oms.sim.resting.filter _ = _
      rw [hrest, List.filter_append]
      change (c.slice order.clientOrderId).resting ++ _ = _
      rw [hresting, List.filter_cons_of_pos (by simpa using hrid), List.filter_nil,
        List.nil_append]
    · have hqueued' : (c'.slice order.clientOrderId).queued = [⟨c.bound model,
          c.oms.sim.queue.seq + 1, .accepted order.clientOrderId v⟩] := by
        change c'.oms.sim.queue.entries.filter _ = _
        rw [hqueue, DueQueue.filter_push_of_le _
          (p := fun r : ExecutionReport ↦ decide (r.clientOrderId = order.clientOrderId))
          (by simp [ExecutionReport.clientOrderId])]
        · exact congrArg (· ++ _) hqueued
        · change ∀ e ∈ (c.slice order.clientOrderId).queued, _
          rw [hqueued]
          exact fun e he ↦ absurd he List.not_mem_nil
      have hpending' : (c'.slice order.clientOrderId).pending = [] := hpending
      rw [Slice.fills, Slice.word, hpending', hqueued']
      rfl

theorem Core.Settling.cancel (h : c.Settling) (hflight : FlightInv model c) (now : UnixNanos)
    (hsafe : CancelSafe model c id) (hlatency : model.latencyNs .submit ≤ model.latencyNs .cancel) :
    (c.step model (.cancel id now)).Settling := by
  have hstep : c.step model (.cancel id now)
      = { c with oms := (ExecutionEngine.cancel model c.clock.now id now c.oms).2 } := rfl
  rw [hstep]
  cases ho : c.oms.cache.order id with
  | none =>
    have hresting := ((hflight.slices id).untracked ho).2.2
    have hcancel : (ExecutionEngine.cancel model c.clock.now id now c.oms).2 = c.oms := by
      simp only [ExecutionEngine.cancel, applyToOrder, ho]
      rw [onCancel_of_absent hresting]
    rw [hcancel]
    exact h
  | some o =>
    have htracked := (hflight.slices id).tracked o ho
    have hsettles := h id o ho
    have hcancel : (ExecutionEngine.cancel model c.clock.now id now c.oms).2
        = { c.oms.setOrder id (o.applied (.pendingCancel now)) with
          sim := onCancel model c.clock.now id c.oms.sim } := by
      rw [ExecutionEngine.cancel]
      simp only [applyToOrder_of_order ho]
      rfl
    rw [hcancel]
    have hsame := o.sameBalance_applied
      (show (OrderEvent.pendingCancel now).fill? = none from rfl) rfl
    have hstatus := hsettles.status_pendingCancel now
    by_cases hresting : (c.slice id).resting = []
    · rw [onCancel_of_absent hresting]
      refine h.of_insert rfl (fun i _ ↦ rfl) (hsettles.cancel_absent hsame hstatus ?_ hresting)
      intro hlive
      rcases hsafe with hnone | ⟨⟨p, hp, hsubmitted⟩, -⟩
      · exact hnone
      · obtain rfl : o = p := Option.some.inj (ho.symm.trans hp)
        rw [hsubmitted] at hlive
        cases hlive
    · rw [onCancel_of_resting hresting]
      obtain ⟨r, hr⟩ := List.exists_mem_of_ne_nil _ hresting
      obtain ⟨hlive, hdue⟩ := htracked.ready r hr (hsettles.resting r hr)
      -- everything that is queued is due no later than the cancellation
      have hpush := c.oms.sim.queue.filter_push_of_le
        (d := saturatingAddNs c.clock.now (model.latencyNs .cancel)) (x := .canceled id)
        (p := fun x : ExecutionReport ↦ decide (x.clientOrderId = id))
        (by simp [ExecutionReport.clientOrderId]) fun e he ↦ (hdue e he).trans
          (min_le_min_right _ (Nat.add_le_add_left hlatency _))
      refine h.of_insert rfl (fun i hi ↦ ?_) ?_
      · rw [Core.slice, slice_push_of_ne (Ne.symm hi), filter_eraseP_of_disjoint]
        · rfl
        · intro r hr
          simpa [of_decide_eq_true hr] using Ne.symm hi
      · have hword : ∀ c' : Core, c'.pending = c.pending → c'.oms.sim.queue = c.oms.sim.queue.push
            (saturatingAddNs c.clock.now (model.latencyNs .cancel)) (.canceled id) →
            (c'.slice id).word = (c.slice id).word ++ [.canceled id] := by
          intro c' hpending hqueue
          rw [Core.slice, hpending, hqueue, Slice.word, hpush, List.map_append,
            ← List.append_assoc]
          rfl
        exact hsettles.cancel_resting hsame hstatus hlive (hword _ rfl rfl)
          (filter_eraseP_of_length_le htracked.one)

/-- The events of the reports of the venue, fills excepted, and what becomes of a status. -/
theorem status_deliver {ev : OrderEvent}
    (hev : (∃ v ts, ev = .accepted v ts) ∨ ∃ ts, ev = .canceled ts) :
    (o.applied ev).status = o.status ∨ o.isTerminal = false ∧
      (o.applied ev).status.IsSettling ∧ (o.applied ev).status ≠ .pendingCancel := by
  by_cases hmem : o.status ∈ ev.allowedFrom
  · right
    have hopen : o.isTerminal = false := by
      rw [Order.isTerminal]
      rcases hev with ⟨v, ts, rfl⟩ | ⟨ts, rfl⟩
      · rw [List.mem_singleton.mp hmem]
        rfl
      · simp only [OrderEvent.allowedFrom, List.mem_cons, List.not_mem_nil, or_false] at hmem
        rcases hmem with hs | hs | hs <;> rw [hs] <;> rfl
    rcases hev with ⟨v, ts, rfl⟩ | ⟨ts, rfl⟩
    · rw [Order.applied_of_mem hmem rfl]
      exact ⟨hopen, trivial, fun h ↦ by cases h⟩
    · rw [Order.applied_of_mem hmem rfl]
      exact ⟨hopen, trivial, fun h ↦ by cases h⟩
  · obtain ⟨e, he⟩ := Order.apply_of_notMem hmem
    rw [Order.applied, he]
    exact .inl rfl

theorem status_canceled_ne (o : Order) (ts : UnixNanos) :
    (o.applied (.canceled ts)).status ≠ .pendingCancel := by
  by_cases hmem : o.status ∈ (OrderEvent.canceled ts).allowedFrom
  · rw [Order.applied_of_mem hmem rfl]
    exact fun h ↦ by cases h
  · obtain ⟨e, he⟩ := Order.apply_of_notMem hmem
    rw [Order.applied, he]
    exact fun hs ↦ hmem (by rw [hs]; exact List.mem_cons_of_mem _ (List.mem_cons_of_mem _
      List.mem_cons_self))

theorem Core.Settling.applyNext (h : c.Settling) (hflight : FlightInv model c)
    (hok : OpOk c .applyNext) : (c.step model .applyNext).Settling := by
  rcases c.applyNext_cases model with ⟨-, heq⟩ | ⟨r, rest, hp, heq⟩
  · rw [heq]
    exact h
  rw [heq]
  obtain ⟨hpending, o, ho, htracked⟩ := hflight.head hp
  have hsettles := h r.clientOrderId o ho
  have hnotice : ∀ ev : OrderEvent, ev.fill? = none → ev.amendedQty? = none →
      r.fill? = none → (o.applied ev).status.phase = o.status.phase.next r →
      ((∃ v ts, ev = .accepted v ts) ∨ ∃ ts, ev = .canceled ts) →
      (r.isCanceled = true → (o.applied ev).status ≠ .pendingCancel) →
      Core.Settling { c with
        oms := (applyToOrder r.clientOrderId ev c.oms).2
        pending := rest } := by
    intro ev hev hamend hfill hphase hkind hcanceled
    rw [applyToOrder_of_order ho]
    set c' : Core := { c with
      oms := c.oms.setOrder r.clientOrderId (o.applied ev)
      pending := rest }
    obtain ⟨hother, hself⟩ := slice_of_tail hp (show c'.pending = rest from rfl) rfl
    refine h.of_insert rfl hother ?_
    rw [hself]
    exact hsettles.deliver hpending hfill (Order.sameBalance_applied hev hamend) hphase
      (status_deliver hkind) hcanceled
  have hsim : r.IsSim := by
    have hfolds := htracked.folds
    rw [Slice.word, hpending, List.cons_append] at hfolds
    exact hfolds.1
  cases r with
  | accepted id v =>
    exact hnotice (.accepted v c.clock.now) rfl rfl rfl (o.phase_applied_accepted v _ id)
      (.inl ⟨v, _, rfl⟩) fun h ↦ by cases h
  | canceled id =>
    exact hnotice (.canceled c.clock.now) rfl rfl rfl (o.phase_applied_canceled _ id)
      (.inr ⟨_, rfl⟩) fun _ ↦ status_canceled_ne o _
  | fill f =>
    have hhead : ExecutionReport.fill f ∈ c.pending.head? := by
      rw [hp]
      rfl
    obtain ⟨hlive, hid, hinst, -, -⟩ := htracked.next_fill hpending
    have hunseen : f.tradeId ∉ c.oms.ledger.seenTradeIds := by
      refine hflight.trades.unseen f (List.mem_filterMap.mpr ⟨.fill f, ?_, rfl⟩)
      rw [hp]
      exact List.mem_cons_self
    obtain ⟨o', hacc, hfolded⟩ := applyFillReport_of_unseen ho hunseen
      (htracked.accepts_fill hpending (hok _ hhead f rfl o ho).1)
    obtain ⟨-, -, hquantity, hfilled, hstatus⟩ :=
      htracked.sound.of_fill hacc (fill?_fillEvent o f) ⟨hid, hinst⟩
    change Core.Settling { c with oms := (applyFillReport f c.oms).2, pending := rest }
    rw [hfolded]
    set c' : Core := { c with oms := folded c.oms f o', pending := rest }
    obtain ⟨hother, hself⟩ :=
      slice_of_tail hp (show c'.pending = rest from rfl) (sim_foldPosition _ _)
    have hsettled := hsettles.deliver_fill hpending hlive hquantity hfilled hstatus
    rw [← hself] at hsettled
    exact h.of_insert (orders_folded c.oms f o') hother hsettled
  | _ => exact hsim.elim

/-! ## Matching -/

omit [DecimalWidth] in
/-- Fills that are scheduled come after the reports about their order. -/
theorem map_item_pushFills (model : BrokerageModel) (now : UnixNanos) (fills : List Fill)
    (q : DueQueue ExecutionReport)
    (hlate : fillsOf id fills ≠ [] → ∀ e ∈ q.entries.filter fun e ↦ e.item.clientOrderId = id,
      e.due ≤ saturatingAddNs now (model.latencyNs .submit)) :
    ((pushFills model now fills q).entries.filter fun e ↦ e.item.clientOrderId = id).map Timed.item
      = (q.entries.filter fun e ↦ e.item.clientOrderId = id).map Timed.item
        ++ (fillsOf id fills).map .fill := by
  induction fills generalizing q with
  | nil => exact (List.append_nil _).symm
  | cons f fills ih =>
    have hcons : pushFills model now (f :: fills) q = pushFills model now fills
        (q.push (saturatingAddNs now (model.latencyNs .submit)) (.fill f)) := rfl
    rw [hcons]
    by_cases hid : f.clientOrderId = id
    · have hfills : fillsOf id (f :: fills) = f :: fillsOf id fills :=
        List.filter_cons_of_pos (by simpa using hid)
      rw [hfills] at hlate ⊢
      have hdue := hlate (List.cons_ne_nil _ _)
      have hpush := q.filter_push_of_le (d := saturatingAddNs now (model.latencyNs .submit))
        (x := .fill f) (p := fun x : ExecutionReport ↦ decide (x.clientOrderId = id))
        (decide_eq_true hid) hdue
      rw [ih, hpush, List.map_append, List.append_assoc]
      · rfl
      · intro _ e he
        rw [hpush] at he
        rcases List.mem_append.mp he with hold | hnew
        · exact hdue e hold
        · rw [List.mem_singleton.mp hnew]
    · have hfills : fillsOf id (f :: fills) = fillsOf id fills :=
        List.filter_cons_of_neg (by simpa using hid)
      rw [hfills] at hlate ⊢
      have hpush := q.filter_push_of_neg (saturatingAddNs now (model.latencyNs .submit))
        (x := .fill f) (p := fun x : ExecutionReport ↦ decide (x.clientOrderId = id))
        (decide_eq_false hid)
      rw [ih _ (by rwa [hpush]), hpush]

theorem Core.Settling.onMarket (h : c.Settling) (hflight : FlightInv model c)
    (hmodel : model.NeverOverfills) (ev : MarketEvent) :
    (c.step model (.onMarket ev)).Settling := by
  by_cases hoffers : c.oms.cache.instrument ev.instrumentId = none ∨ tape? ev = none
  · have hsame : (c.step model (.onMarket ev)).oms = c.oms :=
      congrArg (fun sim ↦ { c.oms with sim := sim }) (onMarket_of_no_offer hoffers c.oms.sim)
    refine h.of_word (by rw [hsame]) (fun id ↦ ?_) (by rw [hsame])
    rw [Core.slice, hsame]
    rfl
  obtain ⟨hinst, htape⟩ := not_or.mp hoffers
  obtain ⟨inst, hinst⟩ := Option.ne_none_iff_exists'.mp hinst
  obtain ⟨tape, htape⟩ := Option.ne_none_iff_exists'.mp htape
  have hsim : (c.step model (.onMarket ev)).oms.sim = _ := onMarket_eq hinst htape c.oms.sim
  set fills := eventFills model c.clock.now inst tape ev.instrumentId c.oms.sim.tradeSeq
    c.oms.sim.resting
  intro id o ho
  have ho : c.oms.cache.order id = some o := ho
  have hsettles := h id o ho
  have htracked := (hflight.slices id).tracked o ho
  have hresting : ((c.step model (.onMarket ev)).slice id).resting
      = (c.slice id).resting.filterMap (survivor model inst tape ev.instrumentId) := by
    rw [Core.slice, hsim]
    exact restingOf_filterMap_survivor id c.oms.sim.resting
  obtain ⟨hnofills, hfills⟩ := fillsOf_eventFills model c.clock.now inst tape ev.instrumentId id
    c.oms.sim.tradeSeq c.oms.sim.resting
  have hword (hlate : fillsOf id fills ≠ [] → ∀ e ∈ (c.slice id).queued, e.due ≤ c.bound model) :
      ((c.step model (.onMarket ev)).slice id).word
        = (c.slice id).word ++ (fillsOf id fills).map .fill := by
    have hqueued := map_item_pushFills model c.clock.now fills c.oms.sim.queue hlate
    rw [Slice.word, Slice.word, List.append_assoc, Core.slice, hsim]
    exact congrArg _ hqueued
  cases hr : (c.slice id).resting with
  | nil =>
    have hnone : fillsOf id fills = [] := hnofills hr
    refine hsettles.of_word ?_ (by rw [hresting, hr, List.filterMap_nil])
    rw [hword fun hne ↦ absurd hnone hne, hnone]
    exact List.append_nil _
  | cons r rest =>
    have hmem : r ∈ (c.slice id).resting := hr ▸ List.mem_cons_self
    obtain rfl : rest = [] := by
      have hone := htracked.one
      rw [hr, List.length_cons] at hone
      exact List.length_eq_zero_iff.mp (by omega)
    have hpos := hsettles.resting r hmem
    have hword := hword fun _ ↦ (htracked.ready r hmem hpos).2
    obtain ⟨n, hn⟩ := hfills r hr
    rw [hn] at hword
    rw [hr] at hresting
    have hmax : r.remaining.precision ≤ maxPrecision := by
      rw [(htracked.resting r hmem).2]
      exact htracked.sound.precision_le
    rcases survivor_cases hmodel inst tape ev.instrumentId hpos hmax with
      ⟨hoffered, r', hsurvivor, hleft⟩ | ⟨d, hoffered, hfill, hwithin, hleft⟩
    · rw [List.filterMap_cons_some hsurvivor, List.filterMap_nil] at hresting
      refine hsettles.matched hr hresting hword (fun r'' hr'' ↦ ?_) ?_
      · rw [List.mem_singleton.mp hr'', hleft]
        exact hpos
      · simp [eventFills, hoffered, hleft]
    · have hle := hwithin.2
      rcases hleft with ⟨hall, hsurvivor⟩ | ⟨r', hsurvivor, hleft, hpos'⟩
      · rw [List.filterMap_cons_none hsurvivor, List.filterMap_nil] at hresting
        refine hsettles.matched hr hresting hword (fun _ h ↦ absurd h List.not_mem_nil) ?_
        simp [eventFills, hoffered, makeFill, hall]
      · rw [List.filterMap_cons_some hsurvivor, List.filterMap_nil] at hresting
        refine hsettles.matched hr hresting hword (fun r'' hr'' ↦ ?_) ?_
        · rw [List.mem_singleton.mp hr'']
          exact hpos'
        · simp only [eventFills, hoffered, makeFill, hleft, List.map_cons, List.map_nil,
            List.sum_cons, List.sum_nil]
          omega

/-! ## Runs -/

/-- The condition under which an operation keeps the two accounts together. -/
def OpAgrees (model : BrokerageModel) (c : Core) (op : CoreOp) : Prop :=
  OpOk c op ∧ CancelOk model c op ∧ ∀ order ∈ op.submitted?, 0 < order.quantity.raw

instance (model : BrokerageModel) (c : Core) (op : CoreOp) : Decidable (OpAgrees model c op) :=
  inferInstanceAs (Decidable (_ ∧ _ ∧ ∀ order ∈ op.submitted?, _))

/-- **Step lemma.** -/
theorem Core.Settling.step (h : c.Settling) (hflight : FlightInv model c)
    (hmodel : model.NeverOverfills) (hlatency : model.latencyNs .submit ≤ model.latencyNs .cancel)
    (op : CoreOp) (hok : OpAgrees model c op) : (c.step model op).Settling := by
  obtain ⟨hop, hcancel, hpos⟩ := hok
  cases op with
  | submit risk portfolio order now =>
    exact h.submit hflight risk portfolio now hop (hpos order rfl)
  | cancel id now => exact h.cancel hflight now hcancel hlatency
  | applyNext => exact h.applyNext hflight hop
  | onMarket ev => exact h.onMarket hflight hmodel ev
  | process ev =>
    obtain ⟨-, horders, -⟩ := c.oms.cache.process_frame ev
    exact h.of_word horders (fun _ ↦ rfl) rfl
  | drain frontier =>
    refine h.of_word rfl (fun id ↦ ?_) rfl
    rw [Core.word_slice, Core.word_slice]
    change List.filter _ ((c.pending ++ (c.oms.sim.queue.drainDue frontier).1)
      ++ (c.oms.sim.queue.drainDue frontier).2.items) = _
    rw [List.append_assoc, DueQueue.drainDue_append]
  | closeAt iid px now tagSuffix =>
    rcases c.closeAt_cases model iid px now tagSuffix with ⟨-, heq⟩ | ⟨inst, pos, f, -, heq⟩
    · rw [heq]
      exact h
    · rw [heq]
      exact h.of_word rfl (fun _ ↦ rfl) rfl
  | advance | setTimer | cancelTimer | popDue => exact h.of_word rfl (fun _ ↦ rfl) rfl

omit [DecimalWidth] in
theorem settling_initialCore (config : BacktestConfig) :
    (BacktestKernel.initialCore config).Settling := by
  intro id o ho
  rw [Cache.order, (fresh_initialCore config).1, AList.lookup_empty] at ho
  cases ho

/-- What the engine and the venue say of an order is the same. -/
structure Core.Agrees (c : Core) (id : ClientOrderId) : Prop where
  /-- An order that rests is open, and as much is left of it. -/
  resting : ∀ r ∈ c.oms.sim.resting, r.order.clientOrderId = id →
    ∃ o, c.oms.cache.order id = some o ∧ (o.status = .accepted ∨ o.status = .partiallyFilled) ∧
      o.leavesQty = r.remaining
  /-- An open order rests. -/
  open_ : ∀ o, c.oms.cache.order id = some o → o.isTerminal = false →
    ∃ r ∈ c.oms.sim.resting, r.order.clientOrderId = id

omit [DecimalWidth] in
theorem Core.Settling.agrees (h : c.Settling) (hflight : FlightInv model c)
    (hnone : ∀ r ∈ c.reports, r.clientOrderId ≠ id) : c.Agrees id := by
  have hword : (c.slice id).word = [] := by
    rw [Core.word_slice]
    exact List.filter_eq_nil_iff.mpr fun r hr ↦ by simpa using hnone r hr
  constructor
  · intro r hr hid
    have hmem : r ∈ (c.slice id).resting := List.mem_filter.mpr ⟨hr, by simpa using hid⟩
    cases ho : c.oms.cache.order id with
    | none =>
      rw [((hflight.slices id).untracked ho).2.2] at hmem
      cases hmem
    | some o =>
      have hagrees := (h id o ho).agrees ((hflight.slices id).tracked o ho) hword
      exact ⟨o, rfl, hagrees.1 r hmem⟩
  · intro o ho hopen
    have hagrees := (h id o ho).agrees ((hflight.slices id).tracked o ho) hword
    obtain ⟨r, hr⟩ := hagrees.2 hopen
    have hmem : r ∈ (c.slice id).resting := hr ▸ List.mem_cons_self
    exact ⟨r, List.mem_of_mem_filter hmem, by simpa using (List.mem_filter.mp hmem).2⟩

end Core

/-- What the engine and the venue say is the same of every order about which nothing is in
flight. -/
def Core.AllAgree (c : Core) : Prop :=
  ∀ id, (∀ r ∈ c.reports, r.clientOrderId ≠ id) → c.Agrees id

/-- **The engine and the venue agree.** In a run whose cancellations lose no fill and do not
overtake acknowledgements, what the engine and the venue say of an order about which no report is
in flight is the same. This holds after each operation, not only in the states between
iterations. -/
theorem agreement_of_run {σ : Type} [DecimalWidth] (setup : Setup σ) (events : List MarketEvent)
    (hmodel : setup.config.brokerage.NeverOverfills)
    (hlatency : setup.config.brokerage.latencyNs .submit
      ≤ setup.config.brokerage.latencyNs .cancel) (k : BacktestKernel σ)
    (hk : BacktestKernel.Reached setup events k)
    (hrun : Along (Core.step setup.config.brokerage) (OpAgrees setup.config.brokerage)
      (BacktestKernel.initialCore setup.config) k.ops) :
    k.core.AllAgree ∧
      ∀ ops, ops <+: k.ops → (BacktestKernel.coreAfter setup ops).AllAgree := by
  have hprefix : ∀ ops, ops <+: k.ops → (BacktestKernel.coreAfter setup ops).AllAgree := by
    rintro ops ⟨rest, hrest⟩ id hnone
    rw [← hrest, along_append] at hrun
    have hinv := hrun.1.induction (I := fun c ↦ FlightInv setup.config.brokerage c ∧ c.Settling)
      (fun c op h hok ↦ ⟨h.1.step hmodel op hok.1 hok.2.1, h.2.step h.1 hmodel hlatency op hok⟩)
      ⟨flightInv_initialCore _ _, settling_initialCore _⟩
    exact hinv.2.agrees hinv.1 hnone
  refine ⟨?_, hprefix⟩
  rw [hk.replays]
  exact hprefix k.ops List.prefix_rfl

section Instances

open scoped RustDecimal

/-- The order rests until the second bar fills it. -/
theorem agreement_of_run_forty : (endOf 40).core.AllAgree ∧
    ∀ ops, ops <+: (endOf 40).ops → (BacktestKernel.coreAfter (buyUntil 40) ops).AllAgree :=
  agreement_of_run (buyUntil 40) [barAt 1, barAt 20] (DefaultBrokerageModel.neverOverfills _) le_rfl
    (endOf 40) (reached_endOf (by decide +kernel)) (by decide +kernel)

end Instances

end Coinext
