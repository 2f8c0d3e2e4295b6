import Coinext.ExecSvc.Desk
import Coinext.ExecSvc.OpenSet

/-!
# The log as a lifecycle

Three writers append to the log of an order: the command handler, before and behind its call to the
venue, the pump of venue reports, and reconciliation. None of them looks at what the log holds, so a
log that an order can be folded from is a matter of what they are given and in which order.

A step of the desk is sound (`StepOk`) when it stays inside the lifecycle the venue is in. Along a
run of sound steps the log of every submitted order folds, and to its true status
(`foldable_of_run`). No request to cancel a live order is sound once the exchange processes it: the
order is canceled then, and the log does not know (`not_foldable_of_processed`).
-/

namespace Coinext.ExecSvc

namespace TrueOrder

/-- The fill is at the precision of the wire. -/
def OnWire [DecimalWidth] (f : Fill) : Prop :=
  f.lastQty.precision = Binance.wirePrecision ∧ f.lastPx.Held Binance.wirePrecision

/-- The report is one the log can follow: an acceptance or a rejection of a submitted order, a fill
of an order that is accepted, or the cancellation of one. -/
def Allows [DecimalWidth] (t : TrueOrder) : ExecutionReport → Prop
  | .accepted .. | .rejected .. => t.status = .submitted
  | .fill f => t.status ∈ [OrderStatus.accepted, .partiallyFilled] ∧ OnWire f
      ∧ t.filled + f.lastQty.asDecimal ≤ t.quantity.asDecimal
  | .canceled _ => t.status ∈ [OrderStatus.accepted, .partiallyFilled, .pendingCancel]
  | _ => False

end TrueOrder

namespace Desk

/-- The log of every submitted order folds, and to its true status. -/
def Foldable (d : Desk) [DecimalWidth] : Prop :=
  ∀ id t, d.truth id = some t → ∀ o₀ : Order, o₀.IsNew → o₀.quantity = t.quantity →
    ∃ o, (Order.replay (d.oms.store.replay id)).exec o₀ = (.ok (), o) ∧ o.status = t.status

/-- The step stays inside the lifecycle the venue is in. -/
def StepOk [DecimalWidth] [Rendering] (conn : Connection) (d : Desk) : DeskStep → Prop
  | .command cmd env venue => d.handler = none → match cmd.commandKind with
    | .submit =>
      let id := (d.oms.resolveId cmd env.cursorFails).1
      d.oms.store.replay id = [] ∧ (d.oms.kill = false → venue = true ∧ id.text ∉ d.known)
    | .cancel => ∀ id ∈ cmd.explicitId, (d.truth ⟨id⟩).isSome = true → venue = true
    | .unknown => True
  | .request fates => ∀ h ∈ d.handler, h.result = none → match h.call with
    | .submit => conn.bridge.Ready ∧ h.cmd.Orderable → Conclusive conn.maxRetries fates
    -- the cancel of a live order must not be processed, that of a finished one not be confirmed
    | .cancel => conn.bridge.Ready ∧ h.cmd.Addressed → ∀ t ∈ d.truth h.coid,
        ∀ reply ∈ soleAnswer (conn.maxRetries + 1) fates,
          t.status.isTerminal = true ∧ reply ≠ .intact
  | .finish | .killSwitch _ => True
  | .report r _ => ∀ t ∈ d.truth r.clientOrderId,
      t.Allows r ∧ r.clientOrderId.text ∈ d.known
  | .reconcile _ rows => ∀ row ∈ rows, ∀ t ∈ d.truth row.1.clientOrderId,
      row.1.clientOrderId ∈ localOpenClientIds d.oms.store

end Desk

/-! ## Orders that follow the truth -/

section Follow

variable [DecimalWidth]

/-- The order says of itself what is true. -/
structure Agrees (o : Order) (t : TrueOrder) : Prop where
  status : o.status = t.status
  quantity : o.quantity = t.quantity
  precision : o.filledQty.precision = orderPrecision
  filled : o.filledQty.asDecimal = t.filled
  average : ∀ p ∈ o.avgPx, p.Held Binance.wirePrecision

/-- Every fresh order of the submitted quantity folds the events, and then says what is true. -/
structure Follows (events : List OrderEvent) (t : TrueOrder) : Prop where
  precision : t.quantity.precision = orderPrecision
  le_max : (t.quantity.raw : ℤ) ≤ i64Max
  fold : ∀ o₀ : Order, o₀.IsNew → o₀.quantity = t.quantity →
    ∃ o, (Order.replay events).exec o₀ = (.ok (), o) ∧ Agrees o t

/-- The status an event without a fill leads to. -/
def target : OrderEvent → Option OrderStatus
  | .submitted _ => some .submitted
  | .accepted .. => some .accepted
  | .pendingCancel _ => some .pendingCancel
  | .denied .. => some .denied
  | .rejected .. => some .rejected
  | .canceled _ => some .canceled
  | _ => none

theorem Agrees.step {o : Order} {t : TrueOrder} (h : Agrees o t) {ev : OrderEvent}
    {s : OrderStatus} (htarget : target ev = some s) (hmem : t.status ∈ ev.allowedFrom) :
    ∃ o', o.Accepts ev o' ∧ Agrees o' { t with status := s } := by
  rw [← h.status] at hmem
  have hagrees (p : Order) (hstatus : p.status = s) (hqty : p.quantity = o.quantity)
      (hfilled : p.filledQty = o.filledQty) (havg : p.avgPx = o.avgPx) :
      Agrees (p.record ev) { t with status := s } := by
    refine ⟨hstatus, hqty.trans h.quantity, ?_, ?_, ?_⟩
    · exact (congrArg Quantity.precision hfilled).trans h.precision
    · exact (congrArg Quantity.asDecimal hfilled).trans h.filled
    · exact fun p' hp' ↦ h.average p' (havg ▸ hp')
  cases ev with
  | submitted | accepted | pendingCancel | denied | rejected | canceled =>
    cases htarget
    exact ⟨_, ⟨_, hmem, rfl, rfl⟩, hagrees _ rfl rfl rfl rfl⟩
  | _ => cases htarget

/-- A fill at the precision of the wire is accepted while it fits. -/
theorem Agrees.fill {o : Order} {t : TrueOrder} (h : Agrees o t) {f : Fill}
    (hprec : t.quantity.precision = orderPrecision) (hmax : (t.quantity.raw : ℤ) ≤ i64Max)
    (hallows : t.Allows (.fill f)) :
    ∃ o', o.Accepts (.filled f) o' ∧ Agrees o' (t.after (.fill f)) := by
  obtain ⟨hstatus, ⟨hqty, hpx⟩, hle⟩ := hallows
  have hprecision : o.filledQty.precision = f.lastQty.precision := h.precision.trans hqty.symm
  -- the quantities are on one grid, so what fits by value fits by the raw numbers
  have hsum : (⟨o.filledQty.raw + f.lastQty.raw, o.filledQty.precision⟩ : Quantity).asDecimal
      = t.filled + f.lastQty.asDecimal := by
    rw [← h.filled, Quantity.asDecimal, Quantity.asDecimal, Quantity.asDecimal, hprecision]
    push_cast
    ring
  have hraw (q : Quantity) (hq : q.precision = orderPrecision) :
      q.asDecimal ≤ t.filled + f.lastQty.asDecimal ↔ q.raw ≤ o.filledQty.raw + f.lastQty.raw := by
    rw [← hsum]
    exact Quantity.asDecimal_le_iff (hq.trans h.precision.symm)
  have hfit : o.filledQty.raw + f.lastQty.raw ≤ t.quantity.raw := by
    rw [← hsum] at hle
    exact (Quantity.asDecimal_le_iff (q := ⟨o.filledQty.raw + f.lastQty.raw, _⟩)
      (h.precision.trans hprec.symm)).mp hle
  have hadd : o.filledQty.checkedAdd f.lastQty
      = .ok ⟨o.filledQty.raw + f.lastQty.raw, o.filledQty.precision⟩ := by
    refine Quantity.checkedAdd_eq_ok_iff.mpr ⟨hprecision, ?_, ?_, rfl⟩
    · omega
    · rw [h.precision]
      decide
  have hmem : o.status ∈ [OrderStatus.accepted, .partiallyFilled, .pendingUpdate] := by
    rw [h.status]
    exact List.mem_of_mem_take (i := 2) hstatus
  obtain ⟨o', hacc, havg⟩ := Order.accepts_filled hmem (by decide) hadd hpx h.average
  obtain ⟨-, hadd', hqty', hstatus'⟩ := hacc.of_fill rfl
  have hfilled : o'.filledQty = ⟨o.filledQty.raw + f.lastQty.raw, o.filledQty.precision⟩ :=
    Except.ok.inj (hadd'.symm.trans hadd)
  have hquantity : o'.quantity = t.quantity := hqty'.trans h.quantity
  refine ⟨o', hacc, ?_, hquantity, ?_, ?_, havg⟩
  · -- nothing is left exactly when the fills reach the quantity
    have hleaves : o'.leavesQty.isZero = true
        ↔ t.quantity.asDecimal ≤ t.filled + f.lastQty.asDecimal := by
      rw [hraw _ hprec, Order.leavesQty_eq, Quantity.isZero, beq_iff_eq, hfilled, hquantity]
      · exact Nat.sub_eq_zero_iff_le
      · rw [hquantity, hprec]
        decide
      · rw [hfilled, hquantity]
        exact h.precision.trans hprec.symm
      · rw [hfilled]
        push_cast
        omega
    rw [hstatus']
    simp only [TrueOrder.after, hleaves]
  · rw [hfilled]
    exact h.precision
  · rw [hfilled, hsum]
    rfl

/-- One more event that every agreeing order accepts. -/
theorem Follows.append {events : List OrderEvent} {t t' : TrueOrder} {ev : OrderEvent}
    (h : Follows events t) (hqty : t'.quantity = t.quantity)
    (hstep : ∀ o, Agrees o t → ∃ o', o.Accepts ev o' ∧ Agrees o' t') :
    Follows (events ++ [ev]) t' := by
  refine ⟨hqty ▸ h.precision, hqty ▸ h.le_max, fun o₀ hnew ho₀ ↦ ?_⟩
  obtain ⟨o, hreplay, hagrees⟩ := h.fold o₀ hnew (ho₀.trans hqty)
  obtain ⟨o', hacc, hagrees'⟩ := hstep o hagrees
  refine ⟨o', ?_, hagrees'⟩
  rw [Order.exec_replay_append events ev hreplay]
  exact Order.apply_eq_ok_iff.mpr hacc

theorem Follows.event {events : List OrderEvent} {t : TrueOrder} {ev : OrderEvent}
    {s : OrderStatus} (h : Follows events t) (htarget : target ev = some s)
    (hmem : t.status ∈ ev.allowedFrom) : Follows (events ++ [ev]) { t with status := s } :=
  h.append rfl fun _ ho ↦ ho.step htarget hmem

theorem Follows.report {events : List OrderEvent} {t : TrueOrder} (h : Follows events t)
    {r : ExecutionReport} (hallows : t.Allows r) (now : UnixNanos) :
    Follows (events ++ [reportEvent now r]) (t.after r) := by
  cases r with
  | accepted | rejected => exact h.event rfl (by rw [hallows]; exact List.mem_cons_self)
  | fill f => exact h.append rfl fun _ ho ↦ ho.fill h.precision h.le_max hallows
  | canceled => exact h.event rfl hallows
  | _ => exact absurd hallows id

theorem follows_nil {q : Quantity} (hprec : q.precision = orderPrecision)
    (hmax : (q.raw : ℤ) ≤ i64Max) : Follows [] ⟨q, .initialized, 0⟩ := by
  refine ⟨hprec, hmax, fun o₀ hnew hq ↦ ⟨o₀, rfl, ?_⟩⟩
  rw [hnew]
  refine ⟨rfl, hq, ?_, ?_, ?_⟩
  · exact (congrArg Quantity.precision hq).trans hprec
  · exact Quantity.asDecimal_zero _
  · rintro p ⟨⟩

end Follow

/-! ## Steps -/

namespace Desk

section Track

variable [DecimalWidth]

/-- Every submitted order has events, and an order that folds them says what is true. -/
def Tracks (d : Desk) : Prop :=
  ∀ id t, d.truth id = some t → d.oms.store.replay id ≠ [] ∧ Follows (d.oms.store.replay id) t

theorem Tracks.foldable {d : Desk} (h : Tracks d) : Foldable d := by
  intro id t ht o₀ hnew hqty
  obtain ⟨o, hfold, hagrees⟩ := (h id t ht).2.fold o₀ hnew hqty
  exact ⟨o, hfold, hagrees.status⟩

theorem Tracks.truth_eq_none {d : Desk} (h : Tracks d) {id : ClientOrderId}
    (hnil : d.oms.store.replay id = []) : d.truth id = none := by
  by_contra hsome
  obtain ⟨t, ht⟩ := Option.ne_none_iff_exists'.mp hsome
  exact (h id t ht).1 hnil

/-- A step that is about one order has to follow that order only. -/
theorem Tracks.of_one {d d' : Desk} (h : Tracks d) (c : ClientOrderId)
    (hlog : ∀ id, id ≠ c → d'.oms.store.replay id = d.oms.store.replay id)
    (htruth : ∀ id, id ≠ c → d'.truth id = d.truth id)
    (hc : ∀ t, d'.truth c = some t →
      d'.oms.store.replay c ≠ [] ∧ Follows (d'.oms.store.replay c) t) : Tracks d' := by
  intro id t ht
  by_cases hid : id = c
  · subst hid
    exact hc t ht
  · rw [hlog id hid]
    exact h id t (htruth id hid ▸ ht)

/-- A first order under an id. -/
theorem Tracks.place {d d' : Desk} (h : Tracks d) {c : ClientOrderId} (t : TrueOrder)
    (events : List OrderEvent) (hnil : d.oms.store.replay c = [])
    (hlog : ∀ id, d'.oms.store.replay id
      = if id = c then d.oms.store.replay id ++ events else d.oms.store.replay id)
    (htruth : d'.truth = place d.truth c t) (hevents : events ≠ []) (hfollows : Follows events t) :
    Tracks d' := by
  have hplace : d'.truth = Function.update d.truth c (some t) := by
    rw [htruth, Desk.place, h.truth_eq_none hnil]
    rfl
  refine h.of_one c (fun id hid ↦ by rw [hlog, if_neg hid]) (fun id hid ↦ ?_) (fun t' ht' ↦ ?_)
  · rw [hplace, Function.update_of_ne hid]
  · rw [hplace, Function.update_self, Option.some.injEq] at ht'
    rw [hlog, if_pos rfl, hnil, List.nil_append, ← ht']
    exact ⟨hevents, hfollows⟩

/-- One more event of an order whose truth changes with it. -/
theorem Tracks.revise {d d' : Desk} (h : Tracks d) {c : ClientOrderId} {e : OrderEvent}
    {f : TrueOrder → TrueOrder}
    (hlog : ∀ id, d'.oms.store.replay id
      = if id = c then d.oms.store.replay id ++ [e] else d.oms.store.replay id)
    (htruth : d'.truth = revise d.truth c f)
    (hfollows : ∀ t, d.truth c = some t → Follows (d.oms.store.replay c) t →
      Follows (d.oms.store.replay c ++ [e]) (f t)) : Tracks d' := by
  refine h.of_one c (fun id hid ↦ by rw [hlog, if_neg hid]) (fun id hid ↦ ?_) (fun t' ht' ↦ ?_)
  · rw [htruth, revise_of_ne hid]
  · rw [htruth, revise_self, Option.map_eq_some_iff] at ht'
    obtain ⟨t, ht, rfl⟩ := ht'
    rw [hlog, if_pos rfl]
    exact ⟨by simp, hfollows t ht (h c t ht).2⟩

/-- What a handler relies on when it goes on behind its call. The order of a submit is new to the
exchange until the call has succeeded, and no report has moved it. A cancel that has been confirmed
is of no order that was submitted. -/
structure Awaits (d : Desk) (h : Handler) : Prop where
  submit : h.call = .submit → h.result ≠ some (.ok ()) →
    h.coid.text ∉ d.known ∧ ∀ t ∈ d.truth h.coid, t.status = .submitted
  cancel : h.call = .cancel → h.result = some (.ok ()) → d.truth h.coid = none

omit [DecimalWidth] in
theorem Awaits.of_eq {d d' : Desk} {h : Handler} (hawaits : Awaits d h)
    (hknown : d'.known = d.known) (htruth : d'.truth = d.truth) : Awaits d' h := by
  refine ⟨?_, ?_⟩
  · rw [hknown, htruth]
    exact hawaits.submit
  · rw [htruth]
    exact hawaits.cancel

/-- The logs follow the truth, and the handler can go on. -/
structure Sound (d : Desk) : Prop where
  tracks : Tracks d
  awaits : ∀ h ∈ d.handler, Awaits d h

end Track

section Steps

variable [DecimalWidth] [Rendering] {conn : Connection} {d : Desk}

theorem submittedQty_bounds (cmd : ExecCommand) :
    (submittedQty cmd).precision = orderPrecision ∧ ((submittedQty cmd).raw : ℤ) ≤ i64Max := by
  have hzero : (Quantity.zero orderPrecision).precision = orderPrecision
      ∧ ((Quantity.zero orderPrecision).raw : ℤ) ≤ i64Max := by decide
  unfold submittedQty
  cases hqty : quantityFromF64 cmd.qtyValue.maxZero orderPrecision with
  | error e => exact hzero
  | ok q =>
    cases hv : cmd.qtyValue.maxZero with
    | finite v =>
      rw [hv, quantityFromF64] at hqty
      cases hdec : Quantity.fromDecimal v orderPrecision with
      | error e => simp [hdec, Except.mapError] at hqty
      | ok q' =>
        obtain ⟨h0, -, -, hmax, hq'⟩ := Quantity.fromDecimal_eq_ok_iff.mp hdec
        have hq : q' = q := by simpa [hdec, Except.mapError] using hqty
        rw [← hq, hq']
        exact ⟨rfl, by rwa [Int.toNat_of_nonneg (mantissa_nonneg h0 _)]⟩
    | nan => simp [hv, quantityFromF64] at hqty
    | infinite negative => cases negative <;> simp [hv, quantityFromF64] at hqty

theorem follows_first (cmd : ExecCommand) {e : OrderEvent} {s : OrderStatus}
    (htarget : target e = some s) (hmem : OrderStatus.initialized ∈ e.allowedFrom) :
    Follows [e] ⟨submittedQty cmd, s, 0⟩ :=
  (follows_nil (submittedQty_bounds cmd).1 (submittedQty_bounds cmd).2).event htarget hmem

/-- A submit under a new id. -/
theorem Sound.submit (h : Sound d) (hfree : d.handler = none) {cmd : ExecCommand}
    {env : Circumstances} {venue : Bool} (hkind : cmd.commandKind = .submit)
    (hok : StepOk conn d (.command cmd env venue)) :
    Sound (d.step conn (.command cmd env venue)) := by
  simp only [StepOk, hkind] at hok
  obtain ⟨hnil, hvenue⟩ := hok hfree
  by_cases hkill : d.oms.kill = true
  · -- the submit is denied
    have hparts : d.oms.beforeCall cmd env venue
        = ((d.oms.handleSubmit cmd env (none : Option (VenueBridge Unit)) ()).oms, none) := by
      cases venue <;> simp [PaperOms.beforeCall, PaperOms.handleAsync, hkind, hkill]
    refine ⟨h.tracks.place ⟨submittedQty cmd, .denied, 0⟩
      [.denied (.text "kill-switch engaged") env.now]
      hnil (fun id ↦ ?_) ?_ (List.cons_ne_nil _ _) (follows_first cmd rfl List.mem_cons_self), ?_⟩
    · simp [step, hfree, hparts, PaperOms.handleSubmit, hkill]
    · simp [step, hfree, hkind, firstTruth, hkill]
    · simp [step, hfree, hparts]
  · -- the submit is noted, and the call has yet to be made
    obtain ⟨rfl, hnew⟩ := hvenue (by simpa using hkill)
    refine ⟨h.tracks.place ⟨submittedQty cmd, .submitted, 0⟩ [.submitted env.now] hnil
      (fun id ↦ ?_) ?_ (List.cons_ne_nil _ _) (follows_first cmd rfl List.mem_cons_self), ?_⟩
    · simp [step, hfree, PaperOms.beforeCall, hkind, hkill]
    · simp [step, hfree, hkind, firstTruth, hkill]
    · intro h' hh'
      have htruth : d.truth (d.oms.resolveId cmd env.cursorFails).1 = none :=
        h.tracks.truth_eq_none hnil
      simp only [step, hfree, PaperOms.beforeCall, hkind, hkill] at hh' ⊢
      cases hh'
      refine ⟨fun _ _ ↦ ⟨hnew, fun t ht ↦ ?_⟩, fun hcall ↦ by cases hcall⟩
      have hplaced : some ⟨submittedQty cmd, .submitted, 0⟩ = some t := by
        simpa [place, htruth, firstTruth, hkill] using ht
      rw [← Option.some.inj hplaced]

/-- A cancel notes nothing before its call. On paper it notes that the order is canceled, so it must
be one that was never submitted. -/
theorem Sound.cancel (h : Sound d) (hfree : d.handler = none) {cmd : ExecCommand}
    {env : Circumstances} {venue : Bool} (hkind : cmd.commandKind = .cancel)
    (hok : StepOk conn d (.command cmd env venue)) :
    Sound (d.step conn (.command cmd env venue)) := by
  simp only [StepOk, hkind] at hok
  cases hid : cmd.explicitId with
  | none =>
    have hparts : d.oms.beforeCall cmd env venue = (d.oms, none) := by
      cases venue <;> simp [PaperOms.beforeCall, PaperOms.handleAsync, PaperOms.handleCancel,
        hkind, hid]
    refine ⟨fun id t ht ↦ ?_, ?_⟩
    · simp only [step, hfree, hparts, hkind] at ht ⊢
      exact h.tracks id t ht
    · simp [step, hfree, hparts]
  | some id =>
    cases venue with
    | true =>
      refine ⟨fun id' t ht ↦ ?_, fun h' hh' ↦ ?_⟩
      · simp only [step, hfree, PaperOms.beforeCall, hkind, hid] at ht ⊢
        exact h.tracks id' t ht
      · simp only [step, hfree, PaperOms.beforeCall, hkind, hid] at hh'
        cases hh'
        exact ⟨(by cases ·), fun _ ↦ (by cases ·)⟩
    | false =>
      have hnone : d.truth ⟨id⟩ = none := by
        by_contra hsome
        cases hok hfree id hid (Option.isSome_iff_ne_none.mpr hsome)
      have hparts : d.oms.beforeCall cmd env false
          = ((d.oms.handleCancel cmd env (none : Option (VenueBridge Unit)) ()).oms, none) := by
        simp [PaperOms.beforeCall, PaperOms.handleAsync, hkind]
      have htruth : (d.step conn (.command cmd env false)).truth = d.truth := by
        simp [step, hfree, hkind]
      refine ⟨h.tracks.of_one ⟨id⟩ (fun id' hne ↦ ?_) (fun _ _ ↦ by rw [htruth])
        (fun t ht ↦ ?_), ?_⟩
      · simp [step, hfree, hparts, PaperOms.handleCancel, hid, hne]
      · rw [htruth, hnone] at ht
        cases ht
      · simp [step, hfree, hparts]

theorem Sound.request (h : Sound d) {fates : List Fate} (hok : StepOk conn d (.request fates)) :
    Sound (d.step conn (.request fates)) := by
  rcases hd : d.handler with _ | ⟨call, cmd, coid, now, _ | result⟩
  · simpa [step, hd] using h
  · obtain ⟨hsubmit, hcancel⟩ := h.awaits _ hd
    have hmeets := hok _ hd rfl
    rcases hrun : Handler.run ⟨call, cmd, coid, now, none⟩ conn.bridge ⟨d.known, fates⟩
      with ⟨result, exchange⟩
    cases call with
    | submit =>
      obtain ⟨hnew, hstatus⟩ := hsubmit rfl (by simp)
      obtain ⟨hsucceeds, hlive⟩ := submitTo_exchange conn.bridge rfl cmd coid now ⟨d.known, fates⟩
      simp only [Handler.run] at hrun
      rw [hrun] at hsucceeds hlive
      have hstep : d.step conn (.request fates) = { d with
          handler := some ⟨.submit, cmd, coid, now, some result⟩
          known := exchange.known } := by
        simp [step, hd, Handler.run, hrun]
      rw [hstep]
      refine ⟨h.tracks, fun h' hh' ↦ ?_⟩
      cases hh'
      refine ⟨fun _ hfailed ↦ ⟨fun hknown ↦ ?_, hstatus⟩, (by cases ·)⟩
      -- an order that is live has its first answer, and with it the call succeeds
      rcases hlive.mp hknown with hold | ⟨hready, reply, hreply⟩
      · exact hnew hold
      · have hintact := hmeets hready reply hreply
        exact hfailed (congrArg some (hsucceeds.mpr ⟨hnew, hready, hintact ▸ hreply⟩))
    | cancel =>
      obtain ⟨hconfirmed, hprocessed⟩ :=
        cancel_exchange conn.bridge rfl cmd coid.text ⟨d.known, fates⟩
      simp only [Handler.run] at hrun
      rw [hrun] at hconfirmed hprocessed
      have hstep : d.step conn (.request fates) = { d with
          handler := some ⟨.cancel, cmd, coid, now, some result⟩
          known := exchange.known } := by
        simp only [step, hd, Handler.run, hrun, true_and]
        split_ifs with hused
        · -- what is processed is the cancel of a finished order
          obtain ⟨hready, hanswer⟩ := hprocessed.mp hused
          obtain ⟨reply, hreply⟩ := Option.isSome_iff_exists.mp hanswer
          rw [revise_eq_self fun t ht ↦ ?_]
          exact if_pos (hmeets hready t ht reply hreply).1
        · rfl
      rw [hstep]
      refine ⟨h.tracks, fun h' hh' ↦ ?_⟩
      cases hh'
      refine ⟨(by cases ·), fun _ hresult ↦ ?_⟩
      obtain ⟨hready, hintact⟩ := hconfirmed.mp (Option.some.inj hresult)
      by_contra hsome
      obtain ⟨t, ht⟩ := Option.ne_none_iff_exists'.mp hsome
      exact (hmeets hready t ht _ hintact).2 rfl
  · simpa [step, hd] using h

/-- Behind its call, a submit that has failed is noted as rejected, and a cancel that was confirmed
as pending. -/
theorem Sound.finish (h : Sound d) : Sound (d.step conn .finish) := by
  rcases hd : d.handler with _ | ⟨call, cmd, coid, now, _ | result⟩
  · simpa [step, hd] using h
  · simpa [step, hd] using h
  · obtain ⟨hsubmit, hcancel⟩ := h.awaits _ hd
    have hfree : (d.step conn .finish).handler = none := by rw [step, hd]
    refine ⟨?_, by simp [hfree]⟩
    cases call with
    | submit =>
      cases result with
      | ok u =>
        intro id t ht
        simp only [step, hd, Handler.afterCall] at ht ⊢
        exact h.tracks id t ht
      | error e =>
        obtain ⟨hnew, hstatus⟩ := hsubmit rfl (by simp)
        refine h.tracks.revise (c := coid) (e := .rejected (.text e) now)
          (f := TrueOrder.turnedDown) (fun id ↦ ?_) ?_ (fun t ht hfollows ↦ ?_)
        · simp [step, hd, Handler.afterCall]
        · simp [step, hd, hnew]
        · rw [TrueOrder.turnedDown, if_pos (hstatus t ht)]
          exact hfollows.event rfl (by rw [hstatus t ht]; exact List.mem_cons_self)
    | cancel =>
      cases result with
      | error e =>
        intro id t ht
        simp only [step, hd, Handler.afterCall] at ht ⊢
        exact h.tracks id t ht
      | ok u =>
        -- nobody submitted the order
        have htruth : (d.step conn .finish).truth = d.truth := by simp [step, hd]
        refine h.tracks.of_one coid (fun id hne ↦ ?_) (fun _ _ ↦ by rw [htruth]) (fun t ht ↦ ?_)
        · simp [step, hd, Handler.afterCall, hne]
        · rw [htruth, hcancel rfl rfl] at ht
          cases ht

/-- A report moves the order it names, which the exchange knows. -/
theorem Sound.report (h : Sound d) {r : ExecutionReport} {now : UnixNanos}
    (hok : StepOk conn d (.report r now)) : Sound (d.step conn (.report r now)) := by
  refine ⟨h.tracks.revise (c := r.clientOrderId) (e := reportEvent now r) (f := (·.after r))
    (fun _ ↦ SqliteEventStore.replay_append ..) rfl
    (fun t ht hfollows ↦ hfollows.report (hok t ht).1 now), fun h' hh' ↦ ?_⟩
  obtain ⟨hsubmit, hcancel⟩ := h.awaits h' hh'
  have hother (hne : h'.coid ≠ r.clientOrderId) :
      (d.step conn (.report r now)).truth h'.coid = d.truth h'.coid := revise_of_ne hne _
  refine ⟨fun hcall hresult ↦ ⟨(hsubmit hcall hresult).1, ?_⟩, fun hcall hresult ↦ ?_⟩
  · obtain ⟨hnew, hstatus⟩ := hsubmit hcall hresult
    by_cases hid : h'.coid = r.clientOrderId
    · -- the exchange reports on no order it does not know
      intro t ht
      rw [hid] at hnew ht
      obtain ⟨t₀, ht₀, -⟩ := Option.map_eq_some_iff.mp ((revise_self ..).symm.trans ht)
      exact absurd (hok t₀ ht₀).2 hnew
    · rwa [hother hid]
  · have hnone := hcancel hcall hresult
    by_cases hid : h'.coid = r.clientOrderId
    · rw [hid] at hnone ⊢
      exact (revise_self ..).trans (by rw [hnone]; rfl)
    · rwa [hother hid]

omit [DecimalWidth] in
/-- Reconciliation seeds only the orders it misses. -/
theorem replay_reconcileOnStart {store : SqliteEventStore} {id : ClientOrderId} (now : UnixNanos)
    {rows : List (ExecutionReport × UnixNanos)}
    (hid : ∀ row ∈ rows, row.1.clientOrderId = id → id ∈ localOpenClientIds store) :
    (reconcileOnStart store now rows).1.replay id = store.replay id := by
  have hother (s : SqliteEventStore) (row : ExecutionReport × UnixNanos)
      (hne : id ≠ row.1.clientOrderId) : (seedReport now s row).replay id = s.replay id := by
    obtain ⟨r, ts⟩ := row
    cases r <;> simp_all [seedReport, publishVenueReport, SqliteEventStore.replay_append,
      ExecutionReport.clientOrderId]
  simp only [reconcileOnStart]
  -- no row of the order is among the missing ones, at whichever point of the fold
  refine List.foldlRecOn rows _
    (motive := fun (s : SqliteEventStore) ↦ s.replay id = store.replay id) rfl
    fun s hs row hrow ↦ ?_
  split
  · rename_i hmissing
    rw [← hs]
    refine hother s row fun heq ↦ ?_
    rw [← heq] at hmissing
    exact (Finset.mem_sdiff.mp hmissing).2 (hid row hrow heq.symm)
  · exact hs

theorem Sound.reconcile (h : Sound d) {now : UnixNanos}
    {rows : List (ExecutionReport × UnixNanos)} (hok : StepOk conn d (.reconcile now rows)) :
    Sound (d.step conn (.reconcile now rows)) := by
  refine ⟨fun id t ht ↦ ?_, fun h' hh' ↦ (h.awaits h' hh').of_eq rfl rfl⟩
  have hsame : (d.step conn (.reconcile now rows)).oms.store.replay id = d.oms.store.replay id := by
    refine replay_reconcileOnStart now fun row hrow hid ↦ ?_
    subst hid
    exact hok row hrow t ht
  rw [hsame]
  exact h.tracks id t ht

theorem Sound.step (h : Sound d) {a : DeskStep} (hok : StepOk conn d a) :
    Sound (d.step conn a) := by
  cases a with
  | command cmd env venue =>
    by_cases hfree : d.handler = none
    · cases hkind : cmd.commandKind with
      | submit => exact h.submit hfree hkind hok
      | cancel => exact h.cancel hfree hkind hok
      | unknown =>
        have hparts : d.oms.beforeCall cmd env venue = (d.oms, none) := by
          cases venue <;> simp [PaperOms.beforeCall, PaperOms.handleAsync, hkind]
        refine ⟨fun id t ht ↦ ?_, ?_⟩
        · simp only [Desk.step, hfree, hparts, hkind] at ht ⊢
          exact h.tracks id t ht
        · simp [Desk.step, hfree, hparts]
    · have hbusy : d.step conn (.command cmd env venue) = d := by
        simp [Desk.step, Option.isSome_iff_ne_none.mpr hfree]
      rwa [hbusy]
  | request fates => exact h.request hok
  | finish => exact h.finish
  | killSwitch engaged => exact ⟨h.tracks, fun h' hh' ↦ (h.awaits h' hh').of_eq rfl rfl⟩
  | report r now => exact h.report hok
  | reconcile now rows => exact h.reconcile hok

/-- **The log as a lifecycle.** In every state of a run of sound steps, the log of every submitted
order folds, and to its true status. -/
theorem foldable_of_run (conn : Connection) (steps : List DeskStep)
    (hrun : Along (Desk.step conn) (StepOk conn) .start steps) :
    ∀ front, front <+: steps → Foldable (front.foldl (Desk.step conn) .start) := by
  rintro front ⟨rest, rfl⟩
  have hfront := (along_append.mp hrun).1
  have hstart : Sound .start := ⟨fun id t ht ↦ (by cases ht), fun h hh ↦ (by cases hh)⟩
  exact (hfront.induction (fun _ _ h hok ↦ h.step hok) hstart).tracks.foldable

/-- Once the exchange has processed the cancel of a live order, the log is behind: whatever it held,
it does not hold the cancellation. -/
theorem Sound.not_foldable_of_processed (h : Sound d) {hd : Handler}
    (hhandler : d.handler = some hd) (hcall : hd.call = .cancel) (hopen : hd.result = none)
    {t : TrueOrder} (ht : d.truth hd.coid = some t) (hlive : t.status.isTerminal = false)
    {fates : List Fate} (hready : conn.bridge.Ready ∧ hd.cmd.Addressed)
    (hanswer : (soleAnswer (conn.maxRetries + 1) fates).isSome = true) :
    ¬ Foldable (d.step conn (.request fates)) := by
  obtain ⟨call, cmd, coid, now, result⟩ := hd
  cases hcall
  cases hopen
  obtain ⟨-, hprocessed⟩ := cancel_exchange conn.bridge rfl cmd coid.text ⟨d.known, fates⟩
  have hused := hprocessed.mpr ⟨hready, hanswer⟩
  have htruth : (d.step conn (.request fates)).truth coid
      = some { t with status := .canceled } := by
    simp only [Desk.step, hhandler, Handler.run, hused, and_self, if_true, revise_self]
    rw [ht, Option.map_some, TrueOrder.canceled, hlive]
    rfl
  have hlog : (d.step conn (.request fates)).oms = d.oms := by simp only [Desk.step, hhandler]
  let o₀ := Order.new ⟨""⟩ coid ⟨⟨""⟩, ⟨""⟩⟩ .buy .market t.quantity none none .gtc {} 0
  intro hfoldable
  obtain ⟨o, hfold, hstatus⟩ := hfoldable coid _ htruth o₀ rfl rfl
  obtain ⟨o', hfold', hagrees⟩ := (h.tracks coid t ht).2.fold o₀ rfl rfl
  rw [hlog] at hfold
  obtain rfl : o = o' := congrArg Prod.snd (hfold.symm.trans hfold')
  rw [← hagrees.status, hstatus] at hlive
  cases hlive

end Steps

section Instances

open scoped RustDecimal BlankText

/-- A connection with credentials and the usual limits. -/
def connected : Connection := { creds := ⟨some "key", true⟩, headerFromStr := fun _ ↦ .ok () }

/-- An order is submitted through the venue, and accepted there. -/
def acceptedSteps : List DeskStep :=
  [.command submitOne { now := 1 } true, .request [.processed .intact], .finish,
    .report (.accepted ⟨"a"⟩ ⟨"v"⟩) 2]

/-- The log of an order that is submitted and accepted folds. -/
theorem foldable_acceptedSteps :
    Foldable (acceptedSteps.foldl (Desk.step connected) .start)
      ∧ ((acceptedSteps.foldl (Desk.step connected) .start).truth ⟨"a"⟩).isSome = true := by
  have hcalled : (((acceptedSteps.take 1).foldl (Desk.step connected) .start).handler.map
      Handler.call) = some .submit := by decide +kernel
  have hfinished : ((acceptedSteps.take 3).foldl (Desk.step connected) .start).truth ⟨"a"⟩
      = some ⟨⟨100000000, 8⟩, .submitted, 0⟩ := by decide +kernel
  refine ⟨foldable_of_run connected acceptedSteps
    ⟨fun _ ↦ ⟨by decide +kernel, fun _ ↦ ⟨rfl, Finset.notMem_empty _⟩⟩, ?_, trivial, ?_, trivial⟩
    _ List.prefix_rfl, by decide +kernel⟩
  · intro h hh _
    have hsubmit : h.call = .submit := Option.some.inj ((congrArg _ hh).symm.trans hcalled)
    rw [hsubmit]
    intro _ reply hreply
    exact (Option.some.inj hreply).symm
  · intro t ht
    refine ⟨?_, by decide +kernel⟩
    rw [show t = _ from Option.some.inj (ht.symm.trans hfinished)]
    rfl

/-- The order is submitted, accepted and expires. The expiry is noted as a submit, which an accepted
order refuses. -/
theorem not_foldable_of_expired :
    ¬ ∀ (conn : Connection) (steps : List DeskStep),
      Foldable (steps.foldl (Desk.step conn) .start) := by
  intro h
  have htruth : ((acceptedSteps ++ [DeskStep.report (.expired ⟨"a"⟩) 3]).foldl
      (Desk.step connected) .start).truth ⟨"a"⟩ = some ⟨⟨100000000, 8⟩, .expired, 0⟩ := by
    decide +kernel
  have hnew : (Order.new ⟨"default"⟩ ⟨"a"⟩ ⟨⟨"BTCUSDT"⟩, ⟨"BINANCE"⟩⟩ .buy .market ⟨100000000, 8⟩
      none none .gtc {} 0).IsNew := rfl
  obtain ⟨o, hfold, -⟩ := h connected _ _ _ htruth _ hnew rfl
  have hok := congrArg (fun r ↦ r.1.isOk) hfold
  change _ = true at hok
  rw [SqliteEventStore.replay_eq] at hok
  revert hok
  decide +kernel

end Instances

end Desk

end Coinext.ExecSvc
