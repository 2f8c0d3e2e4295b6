import Coinext.Kernel.OpenOrders
import Coinext.Kernel.PositionCap
import Coinext.Kernel.PriceReference
import Coinext.Kernel.Routing

/-!
# Shares are sold on the day after they were bought

The engine compares a sell with the long position less what was bought on the session day. It reads
the position when the order is submitted, and the fills come later. Sells that are open at that
moment are not in the comparison, so two of them may sell the same shares.

## The invariant

Write `S D` for what was sold up to the end of day `D`, `B D` for what was bought before it, and
`O D` for what is open of the sells that were submitted up to the end of `D`. Then

  `S D + O D ≤ B D` for every `D`,

which for `O D ≥ 0` says that what is sold on `D` was held when `D` began. A fill moves its quantity
from `O` to `S`, and no fill is dated before its order. A sell that is approved on day `T` grows `O
D` for `D ≥ T` only; there the check of the engine, with the open sells in it, is the inequality
itself, since the fills that are folded by then are dated up to `T`.
-/

namespace Coinext

open ExecutionEngine

/-! ## Sums over fills -/

/-- The session day of a fill. -/
def Fill.day (f : Fill) : ℕ := dayKeyShanghai f.tsEvent

/-- What the fills of one side trade on days of a kind. -/
def tradedQty (side : OrderSide) (p : ℕ → Prop) [DecidablePred p] (l : List Fill) : Decimal :=
  (l.map fun f ↦ if f.side = side ∧ p f.day then f.lastQty.asDecimal else 0).sum

/-- What is sold on a day. -/
def soldOn (day : ℕ) (l : List Fill) : Decimal := tradedQty .sell (· = day) l

/-- What is held when a day begins. -/
def heldBefore (day : ℕ) (l : List Fill) : Decimal :=
  ((l.filter fun f ↦ f.day < day).map Fill.signedQty).sum

section Sums

variable {side : OrderSide} {p q : ℕ → Prop} [DecidablePred p] [DecidablePred q]
  {l l' : List Fill} {day : ℕ}

theorem tradedQty_cons (f : Fill) (l : List Fill) : tradedQty side p (f :: l)
    = (if f.side = side ∧ p f.day then f.lastQty.asDecimal else 0) + tradedQty side p l := rfl

theorem tradedQty_append :
    tradedQty side p (l ++ l') = tradedQty side p l + tradedQty side p l' := by
  rw [tradedQty, List.map_append, List.sum_append]
  rfl

theorem tradedQty_perm (h : l.Perm l') : tradedQty side p l = tradedQty side p l' :=
  (h.map _).sum_eq

theorem tradedQty_mono (h : ∀ d, p d → q d) : tradedQty side p l ≤ tradedQty side q l := by
  refine List.sum_le_sum fun f _ ↦ ?_
  split_ifs with hp hq hq
  · exact le_rfl
  · exact absurd ⟨hp.1, h _ hp.2⟩ hq
  · exact f.lastQty.asDecimal_nonneg
  · exact le_rfl

theorem tradedQty_nonneg (side : OrderSide) (p : ℕ → Prop) [DecidablePred p] (l : List Fill) :
    0 ≤ tradedQty side p l := by
  refine List.sum_nonneg fun x hx ↦ ?_
  obtain ⟨f, -, rfl⟩ := List.mem_map.mp hx
  split_ifs
  · exact f.lastQty.asDecimal_nonneg
  · exact le_rfl

theorem heldBefore_cons (f : Fill) (l : List Fill) : heldBefore day (f :: l)
    = (if f.day < day then f.signedQty else 0) + heldBefore day l := by
  unfold heldBefore
  by_cases hlt : f.day < day
  · rw [List.filter_cons, if_pos (decide_eq_true hlt), if_pos hlt]
    rfl
  · rw [List.filter_cons, if_neg (by simpa using hlt), if_neg hlt, zero_add]

/-- What is sold on a day and what was bought before it, against what is held when it begins and
what is sold up to its end. -/
theorem soldOn_add_boughtBefore (l : List Fill) (day : ℕ) :
    soldOn day l + tradedQty .buy (· < day) l
      = heldBefore day l + tradedQty .sell (· ≤ day) l := by
  unfold soldOn
  induction l with
  | nil => simp [tradedQty, heldBefore]
  | cons f l ih =>
    rw [tradedQty_cons, tradedQty_cons, tradedQty_cons, heldBefore_cons, Fill.signedQty]
    cases f.side with
    | buy =>
      simp only [OrderSide.sign, reduceCtorEq, false_and, if_false, true_and]
      push_cast
      rw [one_mul]
      linarith
    | sell =>
      simp only [OrderSide.sign, reduceCtorEq, false_and, if_false, true_and]
      push_cast
      rcases lt_trichotomy f.day day with hlt | heq | hgt
      · rw [if_neg hlt.ne, if_pos hlt, if_pos hlt.le]
        linarith
      · rw [if_pos heq, if_neg heq.not_lt, if_pos heq.le]
        linarith
      · rw [if_neg hgt.ne', if_neg hgt.not_gt, if_neg hgt.not_ge]
        linarith

/-- Up to a day, the signed size less what was bought on the day is what was bought before it less
all that was sold. -/
theorem sum_signedQty_add (hlast : ∀ f ∈ l, f.day ≤ day) :
    (l.map Fill.signedQty).sum + tradedQty .sell (fun _ ↦ True) l
      = tradedQty .buy (· < day) l + tradedQty .buy (· = day) l := by
  induction l with
  | nil => simp [tradedQty]
  | cons f l ih =>
    have hrest := ih fun g hg ↦ hlast g (List.mem_cons_of_mem f hg)
    rw [List.map_cons, List.sum_cons, tradedQty_cons, tradedQty_cons, tradedQty_cons,
      Fill.signedQty]
    cases f.side with
    | buy =>
      simp only [OrderSide.sign, reduceCtorEq, false_and, if_false, true_and]
      push_cast
      rcases (hlast f List.mem_cons_self).lt_or_eq with hlt | heq
      · rw [if_pos hlt, if_neg hlt.ne]
        linarith
      · rw [if_neg heq.not_lt, if_pos heq]
        linarith
    | sell =>
      simp only [OrderSide.sign, reduceCtorEq, false_and, if_false, true_and, if_true]
      push_cast
      linarith

end Sums

/-! ## When orders were submitted -/

/-- The time of the submission in the log of an order. -/
def Order.submittedAt? (o : Order) : Option UnixNanos := o.events.findSome? fun
  | .submitted ts => some ts
  | _ => none

section Submission

variable [DecimalWidth]

theorem Order.Accepts.submittedAt? {o o' : Order} {ev : OrderEvent} (h : o.Accepts ev o')
    (hev : ∀ ts, ev ≠ .submitted ts) : o'.submittedAt? = o.submittedAt? := by
  rw [Order.submittedAt?, h.events, List.findSome?_append]
  cases ev with
  | submitted ts => exact absurd rfl (hev ts)
  | _ => exact Option.or_none

theorem submittedAt?_submitted {order : Order} (hnew : order.IsNew) (now : UnixNanos) :
    (order.applied (.submitted now)).submittedAt? = some now := by
  have hevents : order.events = _ := congrArg Order.events hnew
  rw [Order.applied_of_mem (List.mem_singleton.mpr hnew.status) rfl, Order.submittedAt?,
    Order.record]
  simp only [hevents, Order.new]
  rfl

end Submission

/-! ## Dates -/

/-- The operation keeps to the clock: it moves the clock within its range, and drains what is
due. -/
def Core.OnClock (c : Core) : CoreOp → Prop
  | .advance ts => ts ≤ u64Max
  | .drain frontier => frontier ≤ c.clock.now
  | _ => True

instance (c : Core) : (op : CoreOp) → Decidable (c.OnClock op)
  | .advance ts => inferInstanceAs (Decidable (ts ≤ u64Max))
  | .drain frontier => inferInstanceAs (Decidable (frontier ≤ c.clock.now))
  | .applyNext | .submit .. | .cancel .. | .process _ | .onMarket _ | .closeAt .. | .setTimer ..
  | .cancelTimer _ | .popDue _ => isTrue trivial

/-- The order was submitted no later than `ts`. -/
def Core.SubmittedBy (c : Core) (id : ClientOrderId) (ts : UnixNanos) : Prop :=
  ∃ o, c.oms.cache.order id = some o ∧ ∃ t, o.submittedAt? = some t ∧ t ≤ ts

/-- No order rests before it was submitted, no fill is dated before its order, and no fill is folded
before its date. -/
structure Dated (c : Core) : Prop where
  now_le : c.clock.now ≤ u64Max
  resting : ∀ r ∈ c.oms.sim.resting, c.SubmittedBy r.order.clientOrderId c.clock.now
  fills : ∀ f ∈ c.inFlight, c.SubmittedBy f.clientOrderId f.tsEvent
  queue : ∀ e ∈ c.oms.sim.queue.entries, ∀ f, e.item = .fill f → f.tsEvent = e.due
  pending : ∀ f, .fill f ∈ c.pending → f.tsEvent ≤ c.clock.now
  recorded : ∀ f ∈ c.oms.recordedAll, f.tsEvent ≤ c.clock.now

section Dated

variable [DecimalWidth] {model : BrokerageModel} {c : Core}

theorem Core.SubmittedBy.step (hcustody : Custody c) {id : ClientOrderId} {ts ts' : UnixNanos}
    (h : c.SubmittedBy id ts) (hle : ts ≤ ts') (op : CoreOp) :
    (c.step model op).SubmittedBy id ts' := by
  obtain ⟨o, ho, t, ht, hts⟩ := h
  have hdoes : c.Does op (c.step model op).oms := hcustody.does_step op
  obtain ⟨o', ho', -⟩ := hdoes.order ho
  refine ⟨o', ho', t, ?_, hts.trans hle⟩
  rcases hdoes.order_cases ho' with hkept | ⟨p, ev, hp, hev, hacc⟩ |
    ⟨_, _, _, _, _, _, _, hnone, _, _⟩ | ⟨f, _, p, _, _, _, hp, hacc⟩
  · obtain rfl : o = o' := Option.some.inj (ho.symm.trans hkept)
    exact ht
  · obtain rfl : o = p := Option.some.inj (ho.symm.trans hp)
    rw [hacc.submittedAt? fun ts hts ↦ by rw [hts] at hev; exact hev]
    exact ht
  · rw [hnone] at ho
    cases ho
  · obtain rfl : o = p := Option.some.inj (ho.symm.trans hp)
    rw [hacc.submittedAt? fun ts hts ↦ by
      have hfill := fill?_fillEvent o f
      rw [hts] at hfill
      cases hfill]
    exact ht

theorem fills_applied_of_isNew {order : Order} (hnew : order.IsNew) {ev : OrderEvent}
    (hev : ev.fill? = none) : (order.applied ev).fills = [] := by
  rw [order.fills_applied hev, hnew]
  rfl

theorem Core.Does.mem_recordedAll {op : CoreOp} {s : Oms} (h : c.Does op s)
    (hnew : c.SubmitsNew op) {f : Fill} (hf : f ∈ s.recordedAll) :
    f ∈ c.oms.recordedAll ∨ .fill f ∈ c.pending := by
  obtain ⟨id, o', ho', hmem⟩ := AList.mem_gather.mp hf
  have hold {o : Order} (ho : c.oms.cache.order id = some o) (hf : f ∈ o.fills) :
      f ∈ c.oms.recordedAll := AList.mem_gather.mpr ⟨id, o, ho, hf⟩
  rcases h.order_cases ho' with hkept | ⟨o, ev, ho, hev, hacc⟩ |
    ⟨_, _, order, now, ev, rfl, rfl, -, rfl, hevent⟩ | ⟨g, rest, o, -, hpending, -, ho, hacc⟩
  · exact .inl (hold hkept hmem)
  · rw [hacc.fills_of_fill?_eq_none hev.fill?_eq_none] at hmem
    exact .inl (hold ho hmem)
  · rw [fills_applied_of_isNew hnew.1 (by rcases hevent with ⟨_, rfl⟩ | ⟨rfl, -⟩ <;> rfl)] at hmem
    cases hmem
  · rw [hacc.fills_of_fill (fill?_fillEvent _ _)] at hmem
    rcases List.mem_append.mp hmem with hmem | hmem
    · exact .inl (hold ho hmem)
    · rw [List.mem_singleton.mp hmem, hpending]
      exact .inr List.mem_cons_self

/-- **Dates are kept by every operation.** -/
theorem Dated.step (h : Dated c) (hcustody : Custody c) (op : CoreOp) (hnew : c.SubmitsNew op)
    (hwired : c.Wired op) (hclock : c.OnClock op) : Dated (c.step model op) := by
  have hnow := Core.now_le_step model c op
  refine ⟨?_, fun r hr ↦ ?_, fun f hf ↦ ?_, fun e he f hf ↦ ?_, fun f hf ↦ ?_, fun f hf ↦ ?_⟩
  · by_cases hplain : op.IsPlain
    · rw [(Core.step_of_isPlain model hplain c).2.1]
      exact h.now_le
    · cases op with
      | advance ts =>
        change (c.clock.advanceTo ts).now ≤ u64Max
        unfold HistoricalClock.advanceTo
        split_ifs
        · exact hclock
        · exact h.now_le
      | drain frontier => exact h.now_le
      | applyNext =>
        rw [(Core.step_applyNext model c).2.1]
        exact h.now_le
      | _ => exact absurd trivial hplain
  · rcases Core.resting_step op hr with ⟨r₀, hr₀, hid, -⟩ |
      ⟨ho, -, risk, portfolio, order, now, rfl, horder⟩
    · rw [hid]
      exact (h.resting r₀ hr₀).step hcustody hnow op
    · refine ⟨r.order, ho, now, ?_, ?_⟩
      · rw [horder]
        exact submittedAt?_submitted hnew.1 now
      · rw [hwired.2]
        exact hnow
  · rcases Core.inFlight_step op hf with hold | hscheduled
    · exact (h.fills f hold).step hcustody le_rfl op
    · obtain ⟨ev, -, inst, tape, -, r, hr, -, n, d, -, rfl⟩ := Core.mem_newFills hscheduled
      exact (h.resting r hr).step hcustody (le_saturatingAddNs h.now_le _) op
  · rcases c.schedules_step op e he with hold | ⟨-, hdated⟩
    · exact h.queue e hold f hf
    · exact hdated f hf
  · rcases Core.mem_pending op hf with hold | ⟨frontier, rfl, e, he, hitem⟩
    · exact (h.pending f hold).trans hnow
    · rw [h.queue e ((List.takeWhile_sublist _).subset he) f hitem]
      exact (DueQueue.due_le_of_mem_due he).trans hclock
  · rcases (hcustody.does_step op).mem_recordedAll hnew hf with hold | hpending
    · exact (h.recorded f hold).trans hnow
    · exact (h.pending f hpending).trans hnow

end Dated

/-! ## Days -/

/-- The order is a sell of the instrument that was submitted by the end of the day. -/
def Order.sellsBy (iid : InstrumentId) (day : ℕ) (o : Order) : Bool :=
  o.on iid .sell && o.submittedAt?.any fun ts ↦ dayKeyShanghai ts ≤ day

theorem Order.sellsBy_iff {iid : InstrumentId} {day : ℕ} {o : Order} :
    Order.sellsBy iid day o = true ↔ (o.instrumentId = iid ∧ o.side = .sell)
      ∧ ∃ ts, o.submittedAt? = some ts ∧ dayKeyShanghai ts ≤ day := by
  rw [Order.sellsBy, Bool.and_eq_true, Order.on, decide_eq_true_eq, Option.any_eq_true]
  simp only [decide_eq_true_eq]

/-- A sell of shares that is approved while others are open leaves them what they may still sell. -/
def Core.LeavesShares (c : Core) : CoreOp → Prop
  | .submit risk portfolio order now => c.oms.Approves risk portfolio order now →
      order.side = .sell → ∀ inst ∈ c.oms.cache.instrument order.instrumentId,
        isAshareEquity inst = true → 0 < c.oms.openQty (Order.on order.instrumentId .sell) →
        c.oms.openQty (Order.on order.instrumentId .sell) + order.quantity.asDecimal
          ≤ sellableQty c.oms.ledger portfolio order.instrumentId now inst
  | _ => True

instance (c : Core) : (op : CoreOp) → Decidable (c.LeavesShares op)
  | .submit risk portfolio order now =>
    inferInstanceAs (Decidable (c.oms.Approves risk portfolio order now → order.side = .sell →
      ∀ inst ∈ c.oms.cache.instrument order.instrumentId, _ → _ → _))
  | .advance _ | .drain _ | .applyNext | .cancel .. | .process _ | .onMarket _ | .closeAt ..
  | .setTimer .. | .cancelTimer _ | .popDue _ => isTrue trivial

/-- What holds of the books for the shares of an instrument. -/
structure Oms.Covered (iid : InstrumentId) (s : Oms) : Prop where
  /-- The position is the sum of the fills. -/
  sum : s.signed iid = ((s.recorded iid).map Fill.signedQty).sum
  /-- The table of same-day buys is what was bought on each day. -/
  bought : ∀ day, (s.ledger.boughtToday.lookup (iid, day)).getD 0
    = tradedQty .buy (· = day) (s.recorded iid)
  /-- What was sold up to a day, or may still be sold by orders of that time, was bought before
  it. -/
  covered : ∀ day, tradedQty .sell (· ≤ day) (s.recorded iid)
      + s.openQty (Order.sellsBy iid day) ≤ tradedQty .buy (· < day) (s.recorded iid)

/-- What every operation keeps. -/
structure DayInv [DecimalWidth] (iid : InstrumentId) (c : Core) : Prop
    extends Oms.Covered iid c.oms where
  budgeted : Budgeted c
  sound : c.oms.Sound
  dated : Dated c

section Days

variable [DecimalWidth] {model : BrokerageModel} {c : Core} {iid : InstrumentId} {inst : Instrument}

theorem Order.stable_sellsBy (iid : InstrumentId) (day : ℕ) :
    Order.Stable (Order.sellsBy iid day) := by
  intro o o' ev hacc hev
  rw [Order.sellsBy, Order.sellsBy, Order.stable_on iid .sell o o' ev hacc hev,
    hacc.submittedAt? hev]

/-- **The check of the engine**, with the open sells in it. -/
theorem DayInv.openQty_add_le (h : DayInv iid c) (hinst : c.oms.cache.instrument iid = some inst)
    (hshare : isAshareEquity inst = true) {risk : RiskEngine} {portfolio : Portfolio}
    {order : Order} {now : UnixNanos} (hiid : order.instrumentId = iid) (hside : order.side = .sell)
    (happroves : c.oms.Approves risk portfolio order now)
    (hwired : c.Wired (.submit risk portfolio order now))
    (hleaves : c.LeavesShares (.submit risk portfolio order now)) :
    c.oms.openQty (Order.on iid .sell) + order.quantity.asDecimal
      ≤ max (c.oms.signed iid
        - tradedQty .buy (· = dayKeyShanghai c.clock.now) (c.oms.recorded iid)) 0 := by
  subst hiid
  have hsellable : sellableQty c.oms.ledger portfolio order.instrumentId now inst
      ≤ max (c.oms.signed order.instrumentId - tradedQty .buy (· = dayKeyShanghai c.clock.now)
        (c.oms.recorded order.instrumentId)) 0 := by
    have hday : dayKeyForInst inst now = dayKeyShanghai c.clock.now := by
      rw [dayKeyForInst, if_pos hshare, hwired.2]
    have hbought := tradedQty_nonneg .buy (· = dayKeyShanghai c.clock.now)
      (c.oms.recorded order.instrumentId)
    simp only [sellableQty, hday, h.bought, hwired.1]
    unfold Oms.signed
    cases c.oms.cache.position order.instrumentId with
    | none => exact le_rfl
    | some pos =>
      simp only [Position.signed]
      cases pos.side with
      | long => exact le_rfl
      | flat => exact le_rfl
      | short =>
        -- nothing is long, so nothing may be sold
        refine le_trans (max_le ?_ le_rfl) (le_max_right _ _)
        simpa using hbought
  refine le_trans ?_ hsellable
  rcases (c.oms.openQty_nonneg (Order.on order.instrumentId .sell)).eq_or_lt with hnone | hopen
  · obtain ⟨-, inst', hinst', hpre, -⟩ := happroves
    obtain rfl : inst = inst' := Option.some.inj (hinst.symm.trans hinst')
    rw [← hnone, zero_add]
    unfold preCheck at hpre
    split_ifs at hpre with hexpired
    simp only at hpre
    split_ifs at hpre with hover
    by_contra hlt
    exact hover ⟨hside, hshare, not_le.mp hlt⟩
  · exact hleaves happroves hside inst hinst hshare hopen

/-- **An approved sell is covered** on its day and later. -/
theorem DayInv.covers (h : DayInv iid c) {q : Decimal} {day : ℕ}
    (hday : dayKeyShanghai c.clock.now ≤ day)
    (hle : c.oms.openQty (Order.on iid .sell) + q ≤ max (c.oms.signed iid
      - tradedQty .buy (· = dayKeyShanghai c.clock.now) (c.oms.recorded iid)) 0) :
    tradedQty .sell (· ≤ day) (c.oms.recorded iid) + (q + c.oms.openQty (Order.sellsBy iid day))
      ≤ tradedQty .buy (· < day) (c.oms.recorded iid) := by
  have hcovered := h.covered day
  have hopen := c.oms.openQty_nonneg (Order.on iid .sell)
  rcases le_max_iff.mp hle with hle | hle
  · -- what is folded is dated up to today
    have hlast : ∀ f ∈ c.oms.recorded iid, f.day ≤ dayKeyShanghai c.clock.now := by
      intro f hf
      obtain ⟨id, o, ho, hmem⟩ := AList.mem_gather.mp hf
      refine dayKeyShanghai_mono (h.dated.recorded f (AList.mem_gather.mpr ⟨id, o, ho, ?_⟩))
      split_ifs at hmem
      · exact hmem
      · cases hmem
    have hsum := sum_signedQty_add hlast
    rw [← h.sum] at hsum
    have hsold : tradedQty .sell (· ≤ day) (c.oms.recorded iid)
        ≤ tradedQty .sell (fun _ ↦ True) (c.oms.recorded iid) := tradedQty_mono fun _ _ ↦ trivial
    have hbought : tradedQty .buy (· < dayKeyShanghai c.clock.now) (c.oms.recorded iid)
        ≤ tradedQty .buy (· < day) (c.oms.recorded iid) :=
      tradedQty_mono fun _ hlt ↦ hlt.trans_le hday
    have hfewer : c.oms.openQty (Order.sellsBy iid day) ≤ c.oms.openQty (Order.on iid .sell) :=
      c.oms.openQty_mono fun o ho ↦ (Bool.and_eq_true_iff.mp ho).1
    linarith
  · -- nothing may be sold, and the order is for nothing
    linarith

/-- What the table of same-day buys gains. -/
theorem lookup_boughtToday_folded {s : Oms} {f : Fill} {o' : Order} {inst' : Instrument}
    (hinst' : s.cache.instrument f.instrumentId = some inst') (iid : InstrumentId) (day : ℕ) :
    ((folded s f o').ledger.boughtToday.lookup (iid, day)).getD 0
      = (s.ledger.boughtToday.lookup (iid, day)).getD 0
        + if f.instrumentId = iid ∧ f.side = .buy ∧ isAshareEquity inst' = true
            ∧ dayKeyForInst inst' f.tsEvent = day then f.lastQty.asDecimal else 0 := by
  have hknown : ((markSeen f s).setOrder f.clientOrderId o').cache.instrument f.instrumentId
      = some inst' := hinst'
  have hledger : (folded s f o').ledger = recordBuy inst' f (markSeen f s).ledger := by
    rw [folded, foldPosition_of_instrument hknown]
    rfl
  rw [hledger, recordBuy]
  split_ifs with hbuy hkey hkey
  · obtain ⟨rfl, -, -, rfl⟩ := hkey
    change (AList.lookup _ (AList.insert _ _ _)).getD 0 = _
    rw [AList.lookup_insert]
    rfl
  · have hother : (iid, day) ≠ (f.instrumentId, dayKeyForInst inst' f.tsEvent) := by
      intro heq
      obtain ⟨rfl, rfl⟩ := Prod.mk.inj heq
      exact hkey ⟨rfl, hbuy.1, hbuy.2, rfl⟩
    change (AList.lookup _ (AList.insert _ _ _)).getD 0 = _
    rw [AList.lookup_insert_ne hother, add_zero]
    rfl
  · exact absurd ⟨hkey.2.1, hkey.2.2.1⟩ hbuy
  · rw [add_zero]
    rfl

/-- A fill of the instrument, as it is folded. -/
theorem DayInv.fill (h : DayInv iid c) (hinst : c.oms.cache.instrument iid = some inst)
    (hshare : isAshareEquity inst = true) {f : Fill} {rest : List ExecutionReport} {o o' : Order}
    (hp : c.pending = .fill f :: rest) (ho : c.oms.cache.order f.clientOrderId = some o)
    (hacc : o.Accepts (fillEvent o f) o') (hok : OpOk c .applyNext) :
    (folded c.oms f o').Covered iid := by
  obtain ⟨hinstrument, hside⟩ := h.budgeted.custody.next_fill hp ho
  obtain ⟨inst', hinst', hprec⟩ := h.budgeted.precision_of_fill hp ho hacc
  have hfold : FoldInRange c f := hok _ (by rw [hp]; rfl) f rfl
  have hfillOk : FillOk c.oms o f :=
    ⟨hinstrument, inst', hinst', hprec, (hfold o ho).2 inst' hinst'⟩
  have hrecorded := recorded_folded ho hacc hinstrument iid
  have htraded (side : OrderSide) (p : ℕ → Prop) [DecidablePred p] :
      tradedQty side p ((folded c.oms f o').recorded iid)
        = tradedQty side p (c.oms.recorded iid) + if f.instrumentId = iid ∧ f.side = side ∧ p f.day
            then f.lastQty.asDecimal else 0 := by
    rw [tradedQty_perm hrecorded, tradedQty_append]
    by_cases hiid : f.instrumentId = iid
    · simp [hiid, tradedQty]
    · simp [hiid, tradedQty]
  refine ⟨?_, fun day ↦ ?_, fun day ↦ ?_⟩
  · rw [(hrecorded.map Fill.signedQty).sum_eq, List.map_append, List.sum_append, ← h.sum,
      Oms.signed_folded h.sound.keyed hinst']
    by_cases hiid : iid = f.instrumentId
    · obtain ⟨-, hwf, hheld⟩ := Oms.Keyed.positionOrFlat h.sound.keyed hinst'
      rw [if_pos hiid, if_pos hiid.symm, hwf.signed_applied ((hfold o ho).2 inst' hinst')
        (Fill.onGrid_signedQty (hprec ▸ f.lastQty.onGrid_asDecimal)), hheld, hiid]
      simp
    · rw [if_neg hiid, if_neg (Ne.symm hiid)]
      simp
  · rw [lookup_boughtToday_folded hinst', h.bought, htraded]
    congr 1
    refine if_congr (and_congr_right fun hiid ↦ ?_) rfl rfl
    obtain rfl : inst = inst' := Option.some.inj (hinst.symm.trans (hiid ▸ hinst'))
    rw [dayKeyForInst, if_pos hshare]
    simp [hshare, Fill.day]
  · -- the order had been submitted by the day of the fill
    have hsells : f.instrumentId = iid ∧ f.side = .sell ∧ f.day ≤ day →
        Order.sellsBy iid day o = true := by
      rintro ⟨hiid, hsell, hday⟩
      have hflight : f ∈ c.inFlight :=
        List.mem_filterMap.mpr ⟨.fill f, List.mem_append_left _ (hp ▸ List.mem_cons_self), rfl⟩
      obtain ⟨o₀, ho₀, t, ht, hts⟩ := h.dated.fills f hflight
      obtain rfl : o = o₀ := Option.some.inj (ho.symm.trans ho₀)
      have hsubmitted : dayKeyShanghai t ≤ day := (dayKeyShanghai_mono hts).trans hday
      rw [Order.sellsBy_iff, ← hinstrument, ← hside]
      exact ⟨⟨hiid, hsell⟩, t, ht, hsubmitted⟩
    have hopen := h.budgeted.openQty_folded (Order.stable_sellsBy iid day) hp ho hacc
    have hcovered := h.covered day
    have hqty := f.lastQty.asDecimal_nonneg
    have hmoved : (if f.instrumentId = iid ∧ f.side = .sell ∧ f.day ≤ day
          then f.lastQty.asDecimal else 0)
        ≤ if Order.sellsBy iid day o then f.lastQty.asDecimal else 0 := by
      split_ifs with hsold hopen hopen
      · exact le_rfl
      · exact absurd (hsells hsold) hopen
      · exact hqty
      · exact le_rfl
    have hgained : 0 ≤ if f.instrumentId = iid ∧ f.side = .buy ∧ f.day < day
        then f.lastQty.asDecimal else 0 := by
      split_ifs
      · exact hqty
      · exact le_rfl
    rw [htraded, htraded]
    linarith

/-- What is recorded when no fill is folded. -/
theorem Oms.recorded_write {s : Oms} {id : ClientOrderId} {o o' : Order}
    (ho : c.oms.cache.order id = some o)
    (hev : o' = o ∨ ∃ ev : OrderEvent, ev.IsNotice ∧ o' = o.applied ev)
    (h : s.cache.orders = c.oms.cache.orders.insert id o') (iid : InstrumentId) :
    (s.recorded iid).Perm (c.oms.recorded iid) := by
  have hsame : o'.instrumentId = o.instrumentId ∧ o'.fills = o.fills := by
    rcases hev with rfl | ⟨ev, hev, rfl⟩
    · exact ⟨rfl, rfl⟩
    · exact ⟨(o.sameTerms_applied ev).instrumentId, o.fills_applied hev.fill?_eq_none⟩
  have hg : (if o'.instrumentId = iid then o'.fills else [])
      = (if o.instrumentId = iid then o.fills else []) ++ [] := by
    rw [hsame.1, hsame.2, List.append_nil]
  have hperm := AList.gather_insert_of_lookup
    (g := fun o ↦ if o.instrumentId = iid then o.fills else []) ho hg
  rw [Oms.recorded, h]
  rwa [List.append_nil] at hperm

/-- What a step that folds nothing keeps, when it opens no sell that is not covered. -/
theorem DayInv.of_recorded (h : DayInv iid c) {s : Oms}
    (hrecorded : (s.recorded iid).Perm (c.oms.recorded iid))
    (hpositions : s.cache.positions = c.oms.cache.positions)
    (hbought : s.ledger.boughtToday = c.oms.ledger.boughtToday)
    (hcovered : ∀ day, tradedQty .sell (· ≤ day) (c.oms.recorded iid)
      + s.openQty (Order.sellsBy iid day) ≤ tradedQty .buy (· < day) (c.oms.recorded iid)) :
    s.Covered iid := by
  refine ⟨?_, fun day ↦ ?_, fun day ↦ ?_⟩
  · rw [(hrecorded.map Fill.signedQty).sum_eq, ← h.sum, Oms.signed, Cache.position, hpositions]
    rfl
  · rw [hbought, h.bought, tradedQty_perm hrecorded]
  · rw [tradedQty_perm hrecorded, tradedQty_perm hrecorded]
    exact hcovered day

/-- **Every operation keeps the shares covered.** -/
theorem DayInv.step (hmodel : model.NeverOverfills) (h : DayInv iid c)
    (hinst : c.oms.cache.instrument iid = some inst) (hshare : isAshareEquity inst = true)
    (op : CoreOp) (hok : OpOk c op) (hcloses : c.ClosesNothing op) (hwired : c.Wired op)
    (hclock : c.OnClock op) (hleaves : c.LeavesShares op) : DayInv iid (c.step model op) := by
  have hnew : c.SubmitsNew op := by
    cases op with
    | submit risk portfolio order now => exact hok
    | _ => exact trivial
  have hcovered : (c.step model op).oms.Covered iid := by
    have hdoes : c.Does op (c.step model op).oms := h.budgeted.custody.does_step op
    generalize (c.step model op).oms = s at hdoes
    cases hdoes with
    | quiet orders positions bought =>
      refine h.of_recorded ?_ positions bought fun day ↦ ?_
      · rw [Oms.recorded, orders]
        exact .refl _
      · rw [Oms.openQty_of_orders orders]
        exact h.covered day
    | notice order event orders positions bought =>
      refine h.of_recorded (Oms.recorded_write order event orders iid) positions bought fun day ↦ ?_
      have hle := Oms.openQty_notice_le (Order.stable_sellsBy iid day) order event orders
      have hcovered := h.covered day
      linarith
    | @track risk portfolio order now ev s untracked known event orders positions bought =>
      have hterms := order.sameTerms_applied ev
      have hfills : (order.applied ev).fills = [] :=
        fills_applied_of_isNew hnew.1 (by rcases event with ⟨_, rfl⟩ | ⟨rfl, -⟩ <;> rfl)
      refine h.of_recorded ?_ positions bought fun day ↦ ?_
      · rw [Oms.recorded, orders, AList.gather_insert_of_lookup_eq_none untracked, hfills, ite_self]
        exact .refl _
      · rw [Oms.openQty_track untracked orders]
        have hcovered := h.covered day
        rcases event with ⟨reason, rfl⟩ | ⟨rfl, happroves⟩
        · rw [Order.openQty_denied hnew.1, ite_self, zero_add]
          exact hcovered
        · rw [Order.openQty_submitted hnew]
          split_ifs with hsells
          · rw [Order.sellsBy_iff, hterms.instrumentId, hterms.side,
              submittedAt?_submitted hnew.1] at hsells
            obtain ⟨⟨hiid, hside⟩, ts, hts, hday⟩ := hsells
            cases hts
            rw [hwired.2] at hday
            exact h.covers hday
              (h.openQty_add_le hinst hshare hiid hside happroves hwired hleaves)
          · rw [zero_add]
            exact hcovered
    | fill pending unseen order accepts =>
      exact h.fill hinst hshare pending order accepts hok
    | close closing =>
      rw [show c.oms.closing _ _ _ _ = none from hcloses] at closing
      cases closing
  exact ⟨hcovered, h.budgeted.step hmodel op hnew, Core.sound_step model h.sound op,
    h.dated.step h.budgeted.custody op hnew hwired hclock⟩

theorem dayInv_initialCore {config : BacktestConfig} (hstart : config.startNs ≤ u64Max)
    (iid : InstrumentId) : DayInv iid (BacktestKernel.initialCore config) := by
  have hfresh := fresh_initialCore config
  have hrecorded : (BacktestKernel.initialCore config).oms.recorded iid = [] := by
    rw [Oms.recorded, hfresh.1, AList.gather_empty]
  refine ⟨⟨?_, fun day ↦ ?_, fun day ↦ ?_⟩, budgeted_initialCore config, hfresh.sound,
    ⟨hstart, ?_, ?_, ?_, ?_, ?_⟩⟩
  · rw [hrecorded, Oms.signed, Cache.position, hfresh.2, AList.lookup_empty]
    rfl
  · rw [hrecorded]
    rfl
  · rw [hrecorded, Oms.openQty, hfresh.1]
    change (0 : Decimal) + 0 ≤ 0
    rw [add_zero]
  · exact fun r hr ↦ absurd hr List.not_mem_nil
  · exact fun f hf ↦ absurd hf List.not_mem_nil
  · exact fun e he ↦ absurd he List.not_mem_nil
  · exact fun f hf ↦ absurd hf List.not_mem_nil
  · rw [Oms.recordedAll, hfresh.1, AList.gather_empty]
    exact fun f hf ↦ absurd hf List.not_mem_nil

/-- **What is sold on a day was held when it began**, in every run of the engine with the simulated
venue in which a sell that is approved while others are open leaves them what they may sell. What is
held when a day begins is the position, as long as no fill is dated on it or later. -/
theorem sold_le_held {config : BacktestConfig} (hstart : config.startNs ≤ u64Max)
    (hmodel : model.NeverOverfills)
    (hinst : (BacktestKernel.initialCore config).oms.cache.instrument iid = some inst)
    (hshare : isAshareEquity inst = true) (ops : List CoreOp)
    (hrun : Along (Core.step model) (fun c op ↦ OpOk c op ∧ c.ClosesNothing op ∧ c.Wired op
      ∧ c.OnClock op ∧ c.LeavesShares op) (BacktestKernel.initialCore config) ops) (day : ℕ) :
    let s := (ops.foldl (Core.step model) (BacktestKernel.initialCore config)).oms
    soldOn day (s.recorded iid) ≤ heldBefore day (s.recorded iid)
      ∧ ((∀ f ∈ s.recorded iid, f.day < day) → heldBefore day (s.recorded iid) = s.signed iid) := by
  intro s
  have hinv := hrun.induction (I := fun c ↦ DayInv iid c ∧ c.oms.cache.instrument iid = some inst)
    ?_ ⟨dayInv_initialCore hstart iid, hinst⟩
  · have hcovered : s.Covered iid := hinv.1.toCovered
    constructor
    · have hsum := soldOn_add_boughtBefore (s.recorded iid) day
      have hopen := s.openQty_nonneg (Order.sellsBy iid day)
      have hle := hcovered.covered day
      linarith
    · intro hbefore
      rw [hcovered.sum, heldBefore, List.filter_eq_self.mpr]
      exact fun f hf ↦ decide_eq_true (hbefore f hf)
  · rintro c op ⟨hc, hinst⟩ ⟨hok, hcloses, hwired, hclock, hleaves⟩
    refine ⟨hc.step hmodel hinst hshare op hok hcloses hwired hclock hleaves, ?_⟩
    rw [Cache.instrument, (c.grows_step model op).instruments]
    exact hinst

end Days

section Instances

open scoped RustDecimal

/-- The share trades at ten. -/
def shareTrade (ts : UnixNanos) : MarketEvent :=
  .trade ⟨ashare.id, ⟨1000, 2⟩, ⟨1000, 0⟩, .buy, ⟨"T"⟩, ts, ts⟩

/-- The strategy buys on the first trade, and sends two orders to sell a lot each on the third. -/
def sellTwice (bought : ℕ) : Setup ℕ where
  config := { ashareConfig with
    brokerage := ({ latencyNs := 0 } : DefaultBrokerageModel).brokerage }
  strategyId := ⟨"S"⟩
  strategy := ⟨fun seen cb ↦ match seen, cb with
    | 0, .trade _ => .submitMarket ashare.id .buy ⟨bought, 0⟩ fun _ ↦ .done 1
    | 1, .trade _ => .done 2
    | 2, .trade _ => .submitMarket ashare.id .sell ⟨100, 0⟩ fun _ ↦
        .submitMarket ashare.id .sell ⟨100, 0⟩ fun _ ↦ .done 3
    | seen, _ => .done seen⟩
  initial := 0
  killed := false
  hash := .lastInserted

/-- Two trades on the first day, and two on the next. -/
def shareTrades : List MarketEvent :=
  [shareTrade 1, shareTrade 2, shareTrade (nextDay + 1), shareTrade (nextDay + 2)]

def soldTwice? (bought : ℕ) : Option (BacktestKernel ℕ) :=
  BacktestKernel.run (sellTwice bought) 12 (BacktestKernel.sortedEvents shareTrades)
    (BacktestKernel.start (sellTwice bought))

def soldTwice (bought : ℕ) : BacktestKernel ℕ :=
  (soldTwice? bought).getD (BacktestKernel.build (sellTwice bought))

theorem wired_soldTwice (bought : ℕ) (h : (soldTwice? bought).isSome = true) :
    Along (Core.step (sellTwice bought).config.brokerage) Core.Wired
      (BacktestKernel.initialCore (sellTwice bought).config) (soldTwice bought).ops := by
  rw [soldTwice]
  generalize hrun : soldTwice? bought = r at h
  cases r with
  | none => cases h
  | some k =>
    have hreached : BacktestKernel.Reached (sellTwice bought) shareTrades k := .finish hrun
    exact hreached.routed.imp fun _ _ hop ↦ hop.wired

/-- Two lots were bought, and are sold on the next day. -/
theorem sold_le_held_two :
    let s := ((soldTwice 200).ops.foldl (Core.step (sellTwice 200).config.brokerage)
      (BacktestKernel.initialCore (sellTwice 200).config)).oms
    soldOn 1 (s.recorded ashare.id) = 200
      ∧ soldOn 1 (s.recorded ashare.id) ≤ heldBefore 1 (s.recorded ashare.id)
      ∧ ((∀ f ∈ s.recorded ashare.id, f.day < 1) →
        heldBefore 1 (s.recorded ashare.id) = s.signed ashare.id) := by
  have hmodel : (sellTwice 200).config.brokerage.NeverOverfills :=
    DefaultBrokerageModel.neverOverfills _
  -- one evaluation for the run, its conditions and what it sold
  obtain ⟨hrun, hconditions, hsold⟩ : (soldTwice? 200).isSome = true
      ∧ Along (Core.step (sellTwice 200).config.brokerage)
        (fun c op ↦ OpOk c op ∧ c.ClosesNothing op ∧ c.OnClock op ∧ c.LeavesShares op)
        (BacktestKernel.initialCore (sellTwice 200).config) (soldTwice 200).ops
      ∧ soldOn 1 (((soldTwice 200).ops.foldl (Core.step (sellTwice 200).config.brokerage)
        (BacktestKernel.initialCore (sellTwice 200).config)).oms.recorded ashare.id) = 200 := by
    decide +kernel
  have hinst : (BacktestKernel.initialCore (sellTwice 200).config).oms.cache.instrument ashare.id
      = some ashare := by decide
  have hheld := sold_le_held (by decide) hmodel hinst (by decide) (soldTwice 200).ops
    ((hconditions.and (wired_soldTwice 200 hrun)).imp
      fun c op hop ↦ ⟨hop.1.1, hop.1.2.1, hop.2, hop.1.2.2⟩) 1
  exact ⟨hsold, hheld⟩

/-- **More is sold than was held** when two sells of the same lot are sent together. -/
theorem sold_more_than_held_of_two_in_flight :
    ¬ ∀ (config : BacktestConfig) (model : BrokerageModel) (iid : InstrumentId) (inst : Instrument)
      (ops : List CoreOp) (day : ℕ), config.startNs ≤ u64Max → model.NeverOverfills →
      (BacktestKernel.initialCore config).oms.cache.instrument iid = some inst →
      isAshareEquity inst = true →
      Along (Core.step model) (fun c op ↦ OpOk c op ∧ c.ClosesNothing op ∧ c.Wired op
        ∧ c.OnClock op) (BacktestKernel.initialCore config) ops →
      soldOn day ((ops.foldl (Core.step model)
          (BacktestKernel.initialCore config)).oms.recorded iid)
        ≤ heldBefore day ((ops.foldl (Core.step model)
          (BacktestKernel.initialCore config)).oms.recorded iid) := by
  intro h
  obtain ⟨hrun, hconditions, hsold⟩ : (soldTwice? 100).isSome = true
      ∧ Along (Core.step (sellTwice 100).config.brokerage)
        (fun c op ↦ OpOk c op ∧ c.ClosesNothing op ∧ c.OnClock op)
        (BacktestKernel.initialCore (sellTwice 100).config) (soldTwice 100).ops
      ∧ ¬ soldOn 1 (((soldTwice 100).ops.foldl (Core.step (sellTwice 100).config.brokerage)
          (BacktestKernel.initialCore (sellTwice 100).config)).oms.recorded ashare.id)
        ≤ heldBefore 1 (((soldTwice 100).ops.foldl (Core.step (sellTwice 100).config.brokerage)
          (BacktestKernel.initialCore (sellTwice 100).config)).oms.recorded ashare.id) := by
    decide +kernel
  have hmodel : (sellTwice 100).config.brokerage.NeverOverfills :=
    DefaultBrokerageModel.neverOverfills _
  exact hsold (h (sellTwice 100).config (sellTwice 100).config.brokerage ashare.id ashare
    (soldTwice 100).ops 1 (by decide) hmodel (by decide) (by decide)
    ((hconditions.and (wired_soldTwice 100 hrun)).imp
      fun c op hop ↦ ⟨hop.1.1, hop.1.2.1, hop.2, hop.1.2.2⟩))

end Instances

end Coinext
