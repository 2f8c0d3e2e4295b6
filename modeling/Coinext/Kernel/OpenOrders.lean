import Coinext.Kernel.Custody

/-!
# What open orders may still trade

An order may fill until it is complete, cancelled, or about to be cancelled. What is left of it is
its open quantity, and `Oms.openQty` adds the open quantities of a class of orders. A fill that is
accepted moves its quantity from the open quantity of its order to the position: that it is not more
than what was open is the budget of the order (`Budgeted`), which every operation keeps.
-/

namespace Coinext

open ExecutionEngine SimulatedExecutionClient

/-! ## Budgets over runs -/

/-- A submitted order is a new one, at the size precision of its instrument. -/
def Core.SubmitsNew (c : Core) : CoreOp → Prop
  | .submit _ _ order _ => OrderOk c order
  | _ => True

instance (c : Core) : (op : CoreOp) → Decidable (c.SubmitsNew op)
  | .submit _ _ order _ => inferInstanceAs (Decidable
      (order = _ ∧ _ ∧ _ ∧ ∀ inst ∈ c.oms.cache.instrument order.instrumentId, _))
  | .advance _ | .drain _ | .applyNext | .cancel .. | .process _ | .onMarket _ | .closeAt ..
  | .setTimer .. | .cancelTimer _ | .popDue _ => isTrue trivial

/-- The operation closes no position by force. -/
def Core.ClosesNothing (c : Core) : CoreOp → Prop
  | .closeAt iid px now tagSuffix => c.oms.closing iid px now tagSuffix = none
  | _ => True

instance (c : Core) : (op : CoreOp) → Decidable (c.ClosesNothing op)
  | .closeAt iid px now tagSuffix =>
    inferInstanceAs (Decidable (c.oms.closing iid px now tagSuffix = none))
  | .advance _ | .drain _ | .applyNext | .cancel .. | .process _ | .onMarket _ | .submit ..
  | .setTimer .. | .cancelTimer _ | .popDue _ => isTrue trivial

/-- What is filled, in flight and resting never exceeds an order. -/
structure Budgeted (c : Core) : Prop where
  custody : Custody c
  sound : ∀ id o, c.oms.cache.order id = some o → o.Sound c.oms.cache.instruments id
  budget : ∀ id o, c.oms.cache.order id = some o →
    o.filledQty.raw + c.committed id ≤ o.quantity.raw

theorem budgeted_initialCore (config : BacktestConfig) :
    Budgeted (BacktestKernel.initialCore config) := by
  have hnone (id : ClientOrderId) :
      (BacktestKernel.initialCore config).oms.cache.order id = none := by
    rw [Cache.order, (fresh_initialCore config).1, AList.lookup_empty]
  refine ⟨custody_initialCore config, fun id o ho ↦ ?_, fun id o ho ↦ ?_⟩
  · rw [hnone] at ho
    cases ho
  · rw [hnone] at ho
    cases ho

section Budget

variable [DecimalWidth] {model : BrokerageModel} {c : Core}

theorem sameBalance_of_notice {o o' : Order}
    (h : o' = o ∨ ∃ ev : OrderEvent, ev.IsNotice ∧ o' = o.applied ev) : SameBalance o o' := by
  rcases h with rfl | ⟨ev, hev, rfl⟩
  · exact ⟨rfl, rfl, rfl, rfl⟩
  · exact Order.sameBalance_applied hev.fill?_eq_none hev.amendedQty?_eq_none

/-- **Budgets are kept by every operation.** -/
theorem Budgeted.step (hmodel : model.NeverOverfills) (h : Budgeted c) (op : CoreOp)
    (hop : c.SubmitsNew op) : Budgeted (c.step model op) := by
  -- an order that the operation leaves alone, and one that it writes
  have hkept {id : ClientOrderId} {o : Order} (ho : c.oms.cache.order id = some o) :
      o.Sound c.oms.cache.instruments id
        ∧ o.filledQty.raw + (c.step model op).committed id ≤ o.quantity.raw := by
    have hle : (c.step model op).committed id ≤ c.committed id :=
      c.committed_step_le hmodel op (by rw [ho]; exact Option.some_ne_none o)
    have hbudget := h.budget id o ho
    exact ⟨h.sound id o ho, by omega⟩
  have hinsert {id' : ClientOrderId} {o' : Order} {s : Oms}
      (horders : s.cache.orders = c.oms.cache.orders.insert id' o')
      (hnew : o'.Sound c.oms.cache.instruments id'
        ∧ o'.filledQty.raw + (c.step model op).committed id' ≤ o'.quantity.raw)
      {id : ClientOrderId} {o : Order} (ho : s.cache.order id = some o) :
      o.Sound c.oms.cache.instruments id
        ∧ o.filledQty.raw + (c.step model op).committed id ≤ o.quantity.raw := by
    rw [Cache.order, horders] at ho
    by_cases hid : id = id'
    · subst hid
      rw [AList.lookup_insert] at ho
      cases ho
      exact hnew
    · rw [AList.lookup_insert_ne hid] at ho
      exact hkept ho
  have hboth (id : ClientOrderId) (o : Order)
      (ho : (c.step model op).oms.cache.order id = some o) :
      o.Sound c.oms.cache.instruments id
        ∧ o.filledQty.raw + (c.step model op).committed id ≤ o.quantity.raw := by
    have hdoes : c.Does op (c.step model op).oms := h.custody.does_step op
    generalize (c.step model op).oms = s at hdoes ho
    cases hdoes with
    | quiet orders positions bought =>
      rw [Cache.order, orders] at ho
      exact hkept ho
    | notice order event orders positions bought =>
      have hsame := sameBalance_of_notice event
      refine hinsert orders ?_ ho
      rw [hsame.filledQty, hsame.quantity]
      exact ⟨(hkept order).1.of_same hsame, (hkept order).2⟩
    | @track risk portfolio order now ev s untracked known event orders positions bought =>
      obtain ⟨inst, hinst⟩ := known
      have hev : ev.fill? = none ∧ ev.amendedQty? = none := by
        rcases event with ⟨reason, rfl⟩ | ⟨rfl, -⟩ <;> exact ⟨rfl, rfl⟩
      have hsame : SameBalance order (order.applied ev) := Order.sameBalance_applied hev.1 hev.2
      obtain ⟨hsound, hzero⟩ := sound_applied hop hinst hev.1 hev.2 order.clientOrderId
      refine hinsert orders ⟨hsound, ?_⟩ ho
      have hle := c.committed_submit_le model order.clientOrderId risk portfolio order now
      rw [if_pos rfl, h.custody.committed_eq_zero untracked] at hle
      rw [hzero, hsame.quantity]
      omega
    | @fill f rest o₀ o₁ pending unseen order accepts =>
      have hown := h.custody.next_fill pending order
      obtain ⟨hsound, -, hqty, hraw, -⟩ := (h.sound _ _ order).of_fill accepts
        (fill?_fillEvent _ _) ⟨rfl, hown.1⟩
      refine hinsert (orders_folded _ _ _) ⟨hsound, ?_⟩ ho
      have hmoved : (c.step model .applyNext).committed f.clientOrderId + f.share f.clientOrderId
          = c.committed f.clientOrderId := Core.committed_applyNext pending
      have hbudget := h.budget _ _ order
      rw [Fill.share, if_pos rfl] at hmoved
      rw [hraw, hqty]
      omega
    | close closing => exact hkept ho
  have hinsts : (c.step model op).oms.cache.instruments = c.oms.cache.instruments :=
    (c.grows_step model op).instruments
  refine ⟨h.custody.step op, fun id o ho ↦ ?_, fun id o ho ↦ (hboth id o ho).2⟩
  rw [hinsts]
  exact (hboth id o ho).1

end Budget

/-! ## Open quantities -/

/-- An order in this status may still be filled, now or once it is acknowledged. -/
def OrderStatus.canFill : OrderStatus → Bool
  | .submitted | .accepted | .partiallyFilled | .pendingUpdate => true
  | _ => false

/-- What an order may still trade. -/
def Order.openQty (o : Order) : Decimal := if o.status.canFill then o.leavesQty.asDecimal else 0

/-- What the orders of a class may still trade. -/
def Oms.openQty (s : Oms) (p : Order → Bool) : Decimal :=
  s.cache.orders.total fun o ↦ if p o then o.openQty else 0

theorem Order.openQty_nonneg (o : Order) : 0 ≤ o.openQty := by
  unfold openQty
  split_ifs
  · exact Quantity.asDecimal_nonneg _
  · exact le_rfl

theorem Oms.openQty_nonneg (s : Oms) (p : Order → Bool) : 0 ≤ s.openQty p := by
  refine List.sum_nonneg fun x hx ↦ ?_
  obtain ⟨e, -, rfl⟩ := List.mem_map.mp hx
  simp only
  split_ifs
  · exact e.2.openQty_nonneg
  · exact le_rfl

theorem Oms.openQty_mono (s : Oms) {p q : Order → Bool} (h : ∀ o, p o = true → q o = true) :
    s.openQty p ≤ s.openQty q := by
  refine List.sum_le_sum fun e _ ↦ ?_
  simp only
  split_ifs with hp hq hq
  · exact le_rfl
  · exact absurd (h e.2 hp) hq
  · exact e.2.openQty_nonneg
  · exact le_rfl

section Open

variable [DecimalWidth] {model : BrokerageModel} {c : Core}

omit [DecimalWidth] in
theorem leavesQty_of_sameBalance {o o' : Order} (h : SameBalance o o') :
    o'.leavesQty = o.leavesQty := by
  rw [Order.leavesQty, Order.leavesQty, h.quantity, h.filledQty]

theorem Order.openQty_notice_le {o o' : Order}
    (h : o' = o ∨ ∃ ev : OrderEvent, ev.IsNotice ∧ o' = o.applied ev) : o'.openQty ≤ o.openQty := by
  have hsame := sameBalance_of_notice h
  rcases h with rfl | ⟨ev, hev, rfl⟩
  · exact le_rfl
  · have hstatus : (o.applied ev).status.canFill = true → o.status.canFill = true := by
      rcases o.applied_cases ev with ⟨p, hmem, heff, hp⟩ | hrefused
      · rw [hp]
        cases ev with
        | accepted v ts =>
          rw [List.mem_singleton.mp hmem]
          exact fun _ ↦ rfl
        | canceled ts | pendingCancel ts =>
          cases heff
          exact fun hfill ↦ (by cases hfill)
        | _ => exact hev.elim
      · rw [hrefused]
        exact id
    unfold openQty
    rw [leavesQty_of_sameBalance hsame]
    split_ifs with hafter hbefore
    · exact le_rfl
    · exact absurd (hstatus hafter) hbefore
    · exact Quantity.asDecimal_nonneg _
    · exact le_rfl

/-- An accepted fill closes what it fills. -/
theorem Budgeted.openQty_fill (h : Budgeted c) {f : Fill} {rest : List ExecutionReport}
    {o o' : Order} (hp : c.pending = .fill f :: rest)
    (ho : c.oms.cache.order f.clientOrderId = some o) (hacc : o.Accepts (fillEvent o f) o') :
    o'.openQty + f.lastQty.asDecimal = o.openQty := by
  have hsound := h.sound _ _ ho
  obtain ⟨hmem, hadd, -, -⟩ := hacc.of_fill (fill?_fillEvent o f)
  obtain ⟨hsound', -, hqty, hraw, hstatus⟩ := hsound.of_fill hacc (fill?_fillEvent o f)
    ⟨rfl, (h.custody.next_fill hp ho).1⟩
  -- the fill is within what is left of the order
  have hbudget := h.budget _ _ ho
  have hshare := Core.share_le_committed f.clientOrderId hp
  rw [Fill.share, if_pos rfl] at hshare
  have hfits : o.filledQty.raw + f.lastQty.raw ≤ o.quantity.raw := by omega
  have hprecision (p : Order) (hsound : p.Sound c.oms.cache.instruments f.clientOrderId) :
      p.filledQty.precision = p.quantity.precision := by rw [hsound.filled.filledQty_eq]
  have hprec : f.lastQty.precision = o.quantity.precision :=
    (Quantity.checkedAdd_eq_ok_iff.mp hadd).1.symm.trans (hprecision o hsound)
  have hrange := hsound.range
  have hleaves : o.leavesQty = ⟨o.quantity.raw - o.filledQty.raw, o.quantity.precision⟩ :=
    Order.leavesQty_eq hsound.precision_le (hprecision o hsound) (by omega)
  have hleaves' : o'.leavesQty = ⟨o'.quantity.raw - o'.filledQty.raw, o'.quantity.precision⟩ :=
    Order.leavesQty_eq hsound'.precision_le (hprecision o' hsound') (by rw [hraw]; omega)
  have hopen : o.openQty = o.leavesQty.asDecimal := by
    refine if_pos ?_
    simp only [List.mem_cons, List.not_mem_nil, or_false] at hmem
    rcases hmem with hs | hs | hs <;> rw [hs] <;> rfl
  have hopen' : o'.openQty = o'.leavesQty.asDecimal := by
    unfold Order.openQty
    rw [hstatus]
    split_ifs with hfull hfill hfill
    · cases hfill
    · rw [hleaves', Nat.sub_eq_zero_of_le hfull]
      exact (Quantity.asDecimal_zero _).symm
    · rfl
    · exact absurd rfl hfill
  rw [hopen, hopen', hleaves, hleaves', hqty, hraw]
  simp only [Quantity.asDecimal, hprec]
  rw [← add_mul, Nat.sub_add_eq, ← Nat.cast_add, Nat.sub_add_cancel (by omega)]

/-- An accepted fill is at the size precision of its instrument. -/
theorem Budgeted.precision_of_fill (h : Budgeted c) {f : Fill} {rest : List ExecutionReport}
    {o o' : Order} (hp : c.pending = .fill f :: rest)
    (ho : c.oms.cache.order f.clientOrderId = some o) (hacc : o.Accepts (fillEvent o f) o') :
    ∃ inst, c.oms.cache.instrument f.instrumentId = some inst
      ∧ f.lastQty.precision = inst.sizePrecision := by
  obtain ⟨inst, hinst, hprec⟩ := (h.sound _ _ ho).known
  obtain ⟨-, hadd, -, -⟩ := hacc.of_fill (fill?_fillEvent o f)
  refine ⟨inst, ?_, ?_⟩
  · rw [(h.custody.next_fill hp ho).1]
    exact hinst
  · rw [← hprec, ← (Quantity.checkedAdd_eq_ok_iff.mp hadd).1, (h.sound _ _ ho).filled.filledQty_eq]

theorem Order.openQty_denied {order : Order} (hnew : order.IsNew) (reason : Reason)
    (now : UnixNanos) : (order.applied (.denied reason now)).openQty = 0 := by
  rw [Order.openQty, Order.status_applied_denied hnew]
  rfl

theorem Order.openQty_submitted {order : Order} (hok : OrderOk c order) (now : UnixNanos) :
    (order.applied (.submitted now)).openQty = order.quantity.asDecimal := by
  have hfilled : order.filledQty = Quantity.zero order.quantity.precision := by rw [hok.1]; rfl
  have hrange : (order.filledQty.raw : ℤ) ≤ i64Max := by
    rw [hfilled]
    exact show (0 : ℤ) ≤ i64Max by decide
  have hleaves : order.leavesQty = order.quantity := by
    rw [Order.leavesQty_eq hok.2.2.1 (by rw [hfilled]; rfl) hrange, hfilled]
    rfl
  have hsame : SameBalance order (order.applied (.submitted now)) :=
    Order.sameBalance_applied rfl rfl
  rw [Order.openQty, status_applied_submitted hok.1, leavesQty_of_sameBalance hsame, hleaves]
  rfl

/-- A class of orders that no event after the submission enters or leaves. -/
def Order.Stable (p : Order → Bool) : Prop :=
  ∀ o o' ev, o.Accepts ev o' → (∀ ts, ev ≠ .submitted ts) → p o' = p o

theorem Order.Stable.notice {p : Order → Bool} (hp : Order.Stable p) {o o' : Order}
    (h : o' = o ∨ ∃ ev : OrderEvent, ev.IsNotice ∧ o' = o.applied ev) : p o' = p o := by
  rcases h with rfl | ⟨ev, hev, rfl⟩
  · rfl
  · rcases o.applied_cases ev with hacc | hsame
    · exact hp o _ ev hacc fun ts hts ↦ by rw [hts] at hev; exact hev
    · rw [hsame]

theorem Order.Stable.fill {p : Order → Bool} (hp : Order.Stable p) {o o' : Order} {f : Fill}
    (hacc : o.Accepts (fillEvent o f) o') : p o' = p o :=
  hp o o' _ hacc fun ts hts ↦ by
    have hfill := fill?_fillEvent o f
    rw [hts] at hfill
    cases hfill

variable {s : Oms} {p : Order → Bool}

omit [DecimalWidth] in
theorem Oms.openQty_of_orders (h : s.cache.orders = c.oms.cache.orders) :
    s.openQty p = c.oms.openQty p := by
  rw [Oms.openQty, h, Oms.openQty]

omit [DecimalWidth] in
theorem Oms.openQty_track {id : ClientOrderId} {o : Order} (hnone : c.oms.cache.order id = none)
    (h : s.cache.orders = c.oms.cache.orders.insert id o) :
    s.openQty p = (if p o then o.openQty else 0) + c.oms.openQty p := by
  rw [Oms.openQty, h, AList.total_insert_of_lookup_eq_none hnone]
  rfl

omit [DecimalWidth] in
theorem Oms.openQty_write {id : ClientOrderId} {o o' : Order} (ho : c.oms.cache.order id = some o)
    (h : s.cache.orders = c.oms.cache.orders.insert id o') (hp : p o' = p o) :
    s.openQty p + (if p o then o.openQty - o'.openQty else 0) = c.oms.openQty p := by
  set g : Order → Decimal := fun o ↦ if p o then o.openQty else 0 with hg
  have htotal :
      (c.oms.cache.orders.insert id o').total g + g o = c.oms.cache.orders.total g + g o' :=
    AList.total_insert_of_lookup ho
  simp only [hg, hp] at htotal
  rw [Oms.openQty, h, Oms.openQty]
  split_ifs at htotal ⊢ <;> linarith

theorem Oms.openQty_notice_le (hp : Order.Stable p) {id : ClientOrderId} {o o' : Order}
    (ho : c.oms.cache.order id = some o)
    (hev : o' = o ∨ ∃ ev : OrderEvent, ev.IsNotice ∧ o' = o.applied ev)
    (h : s.cache.orders = c.oms.cache.orders.insert id o') : s.openQty p ≤ c.oms.openQty p := by
  have hwrite := Oms.openQty_write ho h (hp.notice hev)
  have hle := Order.openQty_notice_le hev
  split_ifs at hwrite <;> linarith

/-- **A folded fill moves from the open quantity of its order.** -/
theorem Budgeted.openQty_folded (h : Budgeted c) (hstable : Order.Stable p) {f : Fill}
    {rest : List ExecutionReport} {o o' : Order} (hp : c.pending = .fill f :: rest)
    (ho : c.oms.cache.order f.clientOrderId = some o) (hacc : o.Accepts (fillEvent o f) o') :
    (folded c.oms f o').openQty p + (if p o then f.lastQty.asDecimal else 0)
      = c.oms.openQty p := by
  have hwrite := Oms.openQty_write ho (orders_folded c.oms f o') (hstable.fill hacc)
  have hfill := h.openQty_fill hp ho hacc
  rwa [← hfill, add_sub_cancel_left] at hwrite

end Open

end Coinext
