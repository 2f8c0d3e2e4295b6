import Coinext.Kernel.Custody
import Coinext.Kernel.Liquidation
import Coinext.Kernel.Routing
import Coinext.Kernel.Settlement

/-!
# After the expiry

A settlement closes the position and cancels the orders of the contract that are not terminal. An
order that the venue has acknowledged is pending cancellation from then on, and takes no fill. An
order whose acknowledgement is still in flight cannot be cancelled that way, and goes on to be
accepted and filled after the expiry.

`Winding` is what holds from the moment the position is closed: the contract has expired, nothing is
held in it, and its orders are over, except those that the settlement has still to cancel. Once
there are no such orders every operation of the kernel keeps it.
-/

namespace Coinext

open ExecutionEngine

/-- Statuses in which an order has traded or may trade at the venue. -/
def OrderStatus.isTrading : OrderStatus → Bool
  | .accepted | .partiallyFilled | .filled => true
  | _ => false

/-- Statuses from which an order is not filled any more. -/
def OrderStatus.isOver (s : OrderStatus) : Bool := s.isTerminal || s = .pendingCancel

/-- Statuses in which the venue has acknowledged an order, which is not complete yet. -/
def OrderStatus.isWorking : OrderStatus → Bool
  | .accepted | .partiallyFilled => true
  | _ => false

/-- What is submitted is a new order. -/
def CoreOp.SubmitsFresh : CoreOp → Prop
  | .submit _ _ order _ => order.IsNew
  | _ => True

instance : (op : CoreOp) → Decidable op.SubmitsFresh
  | .submit _ _ order _ => inferInstanceAs (Decidable order.IsNew)
  | .advance _ | .drain _ | .applyNext | .cancel .. | .process _ | .onMarket _ | .closeAt ..
  | .setTimer .. | .cancelTimer _ | .popDue _ => isTrue trivial

/-! ## The records of orders -/

/-- Orders are stored under their ids, and are over, working, or not acknowledged yet. -/
structure Filed [DecimalWidth] (c : Core) : Prop where
  custody : Custody c
  sound : c.oms.Sound
  key : ∀ id o, c.oms.cache.order id = some o → o.clientOrderId = id
  status : ∀ id o, c.oms.cache.order id = some o →
    o.status.isOver ∨ o.status.isWorking ∨ o.status = .submitted

section Filed

variable [DecimalWidth] {model : BrokerageModel} {c : Core}

theorem Order.Accepts.status_of_notice {o o' : Order} {ev : OrderEvent} (h : o.Accepts ev o')
    (hev : ev.IsNotice) : o.status = .submitted ∧ o'.status = .accepted
      ∨ o'.status = .pendingCancel ∨ o'.status = .canceled := by
  obtain ⟨p, hmem, heff, rfl⟩ := h
  cases ev with
  | accepted v ts =>
    cases heff
    exact .inl ⟨List.mem_singleton.mp hmem, rfl⟩
  | canceled ts =>
    cases heff
    exact .inr (.inr rfl)
  | pendingCancel ts =>
    cases heff
    exact .inr (.inl rfl)
  | _ => exact hev.elim

theorem Order.status_applied_pendingCancel {o : Order} (h : o.status.isWorking) (now : UnixNanos) :
    (o.applied (.pendingCancel now)).status = .pendingCancel := by
  have hmem : o.status ∈ (OrderEvent.pendingCancel now).allowedFrom := by
    revert h
    cases o.status <;> simp [OrderStatus.isWorking, OrderEvent.allowedFrom]
  rw [Order.applied_of_mem hmem rfl]
  rfl

theorem Filed.step (h : Filed c) (op : CoreOp) (hnew : op.SubmitsFresh) :
    Filed (c.step model op) := by
  have hdoes : c.Does op (c.step model op).oms := h.custody.does_step op
  refine ⟨h.custody.step op, Core.sound_step model h.sound op, fun id o' ho' ↦ ?_,
    fun id o' ho' ↦ ?_⟩
  · rcases hdoes.order_cases ho' with hkept | ⟨o, ev, ho, -, hacc⟩ |
      ⟨_, _, order, _, ev, -, rfl, -, rfl, -⟩ | ⟨f, _, o, -, -, -, ho, hacc⟩
    · exact h.key id o' hkept
    · exact hacc.sameTerms.clientOrderId.trans (h.key id o ho)
    · exact (order.sameTerms_applied ev).clientOrderId
    · exact hacc.sameTerms.clientOrderId.trans (h.key id o ho)
  · rcases hdoes.order_cases ho' with hkept | ⟨o, ev, ho, hev, hacc⟩ |
      ⟨_, _, order, now, ev, rfl, rfl, -, rfl, ⟨reason, rfl⟩ | ⟨rfl, -⟩⟩ |
      ⟨f, _, o, -, -, -, ho, hacc⟩
    · exact h.status id o' hkept
    · rcases hacc.status_of_notice hev with ⟨-, hs⟩ | hs | hs <;> rw [hs]
      · exact .inr (.inl rfl)
      · exact .inl rfl
      · exact .inl rfl
    · rw [Order.status_applied_denied hnew]
      exact .inl rfl
    · rw [status_applied_submitted hnew]
      exact .inr (.inr rfl)
    · rw [(hacc.of_fill (fill?_fillEvent o f)).2.2.2]
      split_ifs
      · exact .inl rfl
      · exact .inr (.inl rfl)

theorem filed_initialCore (config : BacktestConfig) :
    Filed (BacktestKernel.initialCore config) := by
  have hfresh := fresh_initialCore config
  have hnone (id : ClientOrderId) :
      (BacktestKernel.initialCore config).oms.cache.order id = none := by
    rw [Cache.order, hfresh.1, AList.lookup_empty]
  refine ⟨custody_initialCore config, hfresh.sound, fun id o ho ↦ ?_, fun id o ho ↦ ?_⟩
  · rw [hnone] at ho
    cases ho
  · rw [hnone] at ho
    cases ho

end Filed

/-! ## Winding up -/

/-- The contract has expired, nothing is held in it, and its orders are over, except those of `todo`
which are working. -/
structure Winding (iid : InstrumentId) (todo : Set ClientOrderId) (c : Core) : Prop where
  expired : ∃ inst expiry, c.oms.cache.instrument iid = some inst ∧ inst.expiryNs = some expiry
    ∧ expiry ≤ c.clock.now
  flat : ∀ pos, c.oms.cache.position iid = some pos → pos.side = .flat
  orders : ∀ id o, c.oms.cache.order id = some o → o.instrumentId = iid →
    o.status.isOver ∨ id ∈ todo ∧ o.status.isWorking

section Winding

variable [DecimalWidth] {model : BrokerageModel} {c : Core}
  {iid : InstrumentId} {todo : Set ClientOrderId} {op : CoreOp}

omit [DecimalWidth] in
theorem Winding.not_approves (h : Winding iid todo c) {risk : RiskEngine} {portfolio : Portfolio}
    {order : Order} (hiid : order.instrumentId = iid) :
    ¬ c.oms.Approves risk portfolio order c.clock.now := by
  rintro ⟨-, inst, hinst, hpre, -⟩
  obtain ⟨inst', expiry, hinst', hexpiry, hpast⟩ := h.expired
  obtain rfl : inst' = inst := by
    rw [hiid] at hinst
    exact Option.some.inj (hinst'.symm.trans hinst)
  rw [preCheck, hexpiry, Option.any_some, if_pos (decide_eq_true hpast)] at hpre
  cases hpre

theorem Winding.ne_of_accepts_fill (h : Winding iid ∅ c) {id : ClientOrderId} {o o' : Order}
    {f : Fill} (ho : c.oms.cache.order id = some o) (hacc : o.Accepts (fillEvent o f) o') :
    o.instrumentId ≠ iid := by
  intro hiid
  rcases h.orders id o ho hiid with hover | ⟨hmem, -⟩
  · have hs := (hacc.of_fill (fill?_fillEvent o f)).1
    simp only [List.mem_cons, List.not_mem_nil, or_false] at hs
    rcases hs with hs | hs | hs <;> rw [hs] at hover <;> cases hover
  · exact hmem

/-- **What becomes of an order on the contract.** It is as it was, cancelled, about to be, or
denied. -/
theorem Winding.order_step (h : Winding iid todo c) (hcustody : Custody c)
    (hop : op.IsQuiet ∨ todo = ∅) (hnew : op.SubmitsFresh)
    (hwired : c.Wired op) {id : ClientOrderId} {o' : Order}
    (ho' : (c.step model op).oms.cache.order id = some o') (hiid : o'.instrumentId = iid) :
    c.oms.cache.order id = some o'
      ∨ o'.status = .pendingCancel ∨ o'.status = .canceled ∨ o'.status = .denied := by
  rcases (hcustody.does_step op).order_cases ho' with hkept | ⟨o, ev, ho, hev, hacc⟩ |
    ⟨risk, portfolio, order, now, ev, rfl, rfl, -, rfl, ⟨reason, rfl⟩ | ⟨rfl, happroves⟩⟩ |
    ⟨f, _, o, rfl, -, -, ho, hacc⟩
  · exact .inl hkept
  · rcases hacc.status_of_notice hev with ⟨hs, -⟩ | hs | hs
    · -- nothing waits for its acknowledgement
      rcases h.orders id o ho (hacc.sameTerms.instrumentId ▸ hiid) with hover | ⟨-, hworking⟩
      · rw [hs] at hover
        cases hover
      · rw [hs] at hworking
        cases hworking
    · exact .inr (.inl hs)
    · exact .inr (.inr (.inl hs))
  · exact .inr (.inr (.inr (Order.status_applied_denied hnew reason now)))
  · rw [(order.sameTerms_applied _).instrumentId] at hiid
    rw [hwired.2] at happroves
    exact absurd happroves (h.not_approves hiid)
  · obtain rfl : todo = ∅ := hop.resolve_left fun hquiet ↦ hquiet
    exact absurd (hacc.sameTerms.instrumentId ▸ hiid) (h.ne_of_accepts_fill ho hacc)

theorem position_folded_of_ne {s : Oms} (h : s.Keyed) {f : Fill} (hne : iid ≠ f.instrumentId)
    (o' : Order) : (folded s f o').cache.position iid = s.cache.position iid := by
  have hkeyed : ((markSeen f s).setOrder f.clientOrderId o').Keyed := h.congr rfl rfl
  cases hinst : s.cache.instrument f.instrumentId with
  | none =>
    have hnone : ((markSeen f s).setOrder f.clientOrderId o').cache.instrument f.instrumentId
        = none := hinst
    simp only [folded, foldPosition, hnone]
    rfl
  | some inst =>
    rw [folded, position_foldPosition hkeyed hinst, if_neg hne]
    rfl

theorem Winding.flat_step (h : Winding iid todo c) (hfiled : Filed c)
    (hop : op.IsQuiet ∨ todo = ∅) {pos : Position}
    (hpos : (c.step model op).oms.cache.position iid = some pos) : pos.side = .flat := by
  have hdoes : c.Does op (c.step model op).oms := hfiled.custody.does_step op
  generalize (c.step model op).oms = s at hdoes hpos
  cases hdoes with
  | quiet orders positions bought | notice order event orders positions bought
  | track untracked known event orders positions bought =>
    rw [Cache.position, positions] at hpos
    exact h.flat pos hpos
  | @fill f _ o o' pending unseen order accepts =>
    obtain rfl : todo = ∅ := hop.resolve_left fun hquiet ↦ hquiet
    have hother : iid ≠ f.instrumentId := by
      rw [(hfiled.custody.next_fill pending order).1]
      exact (h.ne_of_accepts_fill order accepts).symm
    rw [position_folded_of_ne hfiled.sound.keyed hother] at hpos
    exact h.flat pos hpos
  | @close iid' px now tagSuffix inst pos' f closing =>
    obtain ⟨-, hpos', hfill⟩ := closing_eq_some closing
    rw [position_upsert_applied (hfiled.sound.keyed iid' pos' hpos').1] at hpos
    split_ifs at hpos with heq
    · -- what is flat is not closed
      subst heq
      exact absurd (h.flat pos' hpos') (closingFill_eq_some hfill).1
    · exact h.flat pos hpos

/-- **Every operation keeps a contract that has been wound up**, and those between its steps keep
one that is being wound up. -/
theorem Winding.step (h : Winding iid todo c) (hfiled : Filed c) (hop : op.IsQuiet ∨ todo = ∅)
    (hnew : op.SubmitsFresh) (hwired : c.Wired op) :
    Winding iid todo (c.step model op) := by
  refine ⟨?_, fun pos hpos ↦ h.flat_step hfiled hop hpos, fun id o' ho' hiid ↦ ?_⟩
  · obtain ⟨inst, expiry, hinst, hexpiry, hpast⟩ := h.expired
    refine ⟨inst, expiry, ?_, hexpiry, hpast.trans (Core.now_le_step model c op)⟩
    rw [Cache.instrument, (c.grows_step model op).instruments]
    exact hinst
  · rcases h.order_step hfiled.custody hop hnew hwired ho' hiid with hkept | hs | hs | hs
    · exact h.orders id o' hkept hiid
    · rw [hs]
      exact .inl rfl
    · rw [hs]
      exact .inl rfl
    · rw [hs]
      exact .inl rfl

theorem Winding.cancel {id : ClientOrderId} {now : UnixNanos} {ids : List ClientOrderId}
    (h : Winding iid {i | i ∈ id :: ids} c) (hfiled : Filed c) :
    Winding iid {i | i ∈ ids} (c.step model (.cancel id now)) := by
  have hstep : Winding iid {i | i ∈ id :: ids} (c.step model (.cancel id now)) :=
    h.step hfiled (.inl trivial) trivial trivial
  refine ⟨hstep.expired, hstep.flat, fun i o' ho' hiid ↦ ?_⟩
  rcases hstep.orders i o' ho' hiid with hover | ⟨hmem, hworking⟩
  · exact .inl hover
  rcases List.mem_cons.mp hmem with rfl | hmem
  · -- a working order is pending cancellation now
    have hcache : (c.step model (.cancel i now)).oms.cache
        = (applyToOrder i (.pendingCancel now) c.oms).2.cache := rfl
    rw [hcache] at ho'
    cases ho : c.oms.cache.order i with
    | none =>
      simp only [applyToOrder, ho] at ho'
      cases ho'
    | some o =>
      rw [applyToOrder_of_order ho] at ho'
      obtain rfl : o.applied (.pendingCancel now) = o' :=
        Option.some.inj ((AList.lookup_insert _).symm.trans ho')
      rcases o.applied_cases (.pendingCancel now) with ⟨p, -, heff, hp⟩ | hsame
      · cases heff
        rw [hp]
        exact .inl rfl
      · rw [hsame] at hworking
        have hpending := Order.status_applied_pendingCancel hworking now
        rw [hsame] at hpending
        rw [hpending] at hworking
        cases hworking
  · exact .inr ⟨hmem, hworking⟩

end Winding

namespace BacktestKernel

section Settled

variable {σ : Type} [DecimalWidth] {setup : Setup σ} {events feed : List MarketEvent}
  {k k' : BacktestKernel σ} {iid : InstrumentId} {todo : Set ClientOrderId} {expiry ts : UnixNanos}

variable (setup) in
theorem laterNow : LoopMoves setup fun k k' : BacktestKernel σ ↦
    k.core.clock.now ≤ k'.core.clock.now where
  refl _ := le_rfl
  trans h h' := h.trans h'
  frame hcore _ _ _ := by rw [hcore]
  journal _ _ _ := le_rfl
  setTimer _ _ _ := le_rfl
  cancelTimer _ _ := le_rfl
  submit _ _ := le_rfl
  cancel _ _ _ := le_rfl
  closeAt k _ _ _ _ := k.core.now_le_step _ _
  loop k _ _ := k.core.now_le_step _ _
  marketCall _ _ := le_rfl

theorem Settles.expiry_le_now (h : Settles setup events expiry iid k) :
    expiry ≤ k.core.clock.now := by
  obtain @⟨feed, k, ts, front, back, hlooped, hfrontier, hdue⟩ := h
  have hmem : (expiry, iid)
      ∈ (untilMarket setup ts feed k).2.expiries.takeWhile fun e ↦ e.1 ≤ ts := by
    rw [hdue]
    exact List.mem_append_right _ List.mem_cons_self
  have hle : expiry ≤ ts := by simpa using List.mem_takeWhile_imp hmem
  have hadvanced : ts ≤ (perform setup (.advance ts) k).2.core.clock.now :=
    k.core.clock.le_now_advanceTo ts
  have hlater := laterNow setup
  have huntil : ts ≤ (untilMarket setup ts feed k).2.core.clock.now :=
    hadvanced.trans (hlater.untilMarket ts feed)
  have hfront := hlater.foldl (k := { (untilMarket setup ts feed k).2 with
    expiries := (untilMarket setup ts feed k).2.expiries.dropWhile fun e ↦ e.1 ≤ ts })
    (fun k e ↦ hlater.settleContract hlater.closeAt ts e.2) front
  exact hle.trans (huntil.trans hfront)

theorem winding_moves (h : Winding iid todo k.core) (hfiled : Filed k.core)
    (hquiet : Quietly setup k k') (hroutes : Routes setup k k')
    (hnew : ∀ op ∈ k'.ops, op.SubmitsFresh) : Winding iid todo k'.core ∧ Filed k'.core := by
  obtain ⟨l, hops, hcore, hrouted⟩ := hroutes
  obtain ⟨l', hops', hquiet, -⟩ := hquiet.run
  obtain rfl : l = l' := List.append_cancel_left (hops.symm.trans hops')
  have hfresh : Along (Core.step setup.config.brokerage) (fun _ op ↦ op.IsQuiet ∧ op.SubmitsFresh)
      k.core l := by
    refine along_of_forall_mem fun op hop ↦ ⟨hquiet op hop, hnew op ?_⟩
    rw [hops]
    exact List.mem_append_right _ hop
  rw [hcore]
  refine (hfresh.and hrouted).induction (I := fun c ↦ Winding iid todo c ∧ Filed c) ?_ ⟨h, hfiled⟩
  rintro c op ⟨hc, hfiled⟩ ⟨⟨hquiet, hnew⟩, hrouted⟩
  exact ⟨hc.step hfiled (.inl hquiet) hnew hrouted.wired, hfiled.step op hnew⟩

theorem Quietly.submitsFresh (h : Quietly setup k k') (hnew : ∀ op ∈ k'.ops, op.SubmitsFresh) :
    ∀ op ∈ k.ops, op.SubmitsFresh := by
  obtain ⟨l, hops, -⟩ := h.run
  intro op hop
  refine hnew op ?_
  rw [hops]
  exact List.mem_append_left _ hop

variable (setup) in
/-- Cancel orders one by one. -/
def cancelAll (now : UnixNanos) (ids : List ClientOrderId) (k : BacktestKernel σ) :
    BacktestKernel σ :=
  ids.foldl (fun k id ↦ performThen setup (.cancel id now) (notifyEvent setup) k) k

/-- **When all of them have been cancelled, no order of the contract is working.** -/
theorem winding_cancelAll {ids : List ClientOrderId} {now : UnixNanos}
    (h : Winding iid {i | i ∈ ids} k.core) (hfiled : Filed k.core)
    (hnew : ∀ op ∈ (cancelAll setup now ids k).ops, op.SubmitsFresh) :
    Winding iid ∅ (cancelAll setup now ids k).core ∧ Filed (cancelAll setup now ids k).core := by
  induction ids generalizing k with
  | nil =>
    have hempty : {i : ClientOrderId | i ∈ []} = ∅ := by simp
    rw [hempty] at h
    exact ⟨h, hfiled⟩
  | cons id ids ih =>
    set k₁ := (perform setup (.cancel id now) k).2
    set k₂ := performThen setup (.cancel id now) (notifyEvent setup) k
    have hcancelled : Winding iid {i | i ∈ ids} k₁.core := h.cancel hfiled
    have hquiet : Quietly setup k₁ k₂ :=
      Quietly.foldl (fun _ ev ↦ Quietly.moves.notifyEvent ev) _
    have hroutes : Routes setup k₁ k₂ :=
      routes_loopMoves.foldl (fun _ ev ↦ routes_loopMoves.notifyEvent ev) _
    have hrest : Quietly setup k₂ (cancelAll setup now ids k₂) := Quietly.cancelAll now ids
    obtain ⟨hwinding, hfiled'⟩ := winding_moves hcancelled
      (hfiled.step (.cancel id now) trivial) hquiet hroutes (hrest.submitsFresh hnew)
    exact ih hwinding hfiled' hnew

/-- The position is flat once it has been closed. -/
theorem flat_of_closeAt {px : Price} {tagSuffix : String} (hkeyed : k.core.oms.Keyed)
    (hbooks : ∀ inst pos f, k.core.oms.closing iid px ts tagSuffix = some (inst, pos, f) →
      Position.Books inst pos f) {pos : Position}
    (hpos : (perform setup (.closeAt iid px ts tagSuffix) k).2.core.oms.cache.position iid
      = some pos) : pos.side = .flat := by
  change (k.core.step setup.config.brokerage _).oms.cache.position iid = some pos at hpos
  rcases k.core.closeAt_cases setup.config.brokerage iid px ts tagSuffix with
    ⟨hclosing, heq⟩ | ⟨inst, pos', f, hclosing, heq⟩
  · rw [heq] at hpos
    exact Oms.side_of_closing_eq_none hkeyed hclosing hpos
  · obtain ⟨hinst, hpos', hfill⟩ := closing_eq_some hclosing
    obtain ⟨hid, inst', hinst', hwf⟩ := hkeyed iid pos' hpos'
    obtain rfl : inst' = inst := Option.some.inj (hinst'.symm.trans hinst)
    rw [heq] at hpos
    rw [position_upsert_applied hid, if_pos rfl] at hpos
    cases hpos
    exact (applied_closingFill hwf hfill (hbooks _ _ _ hclosing)).1

theorem mem_openOrders (hfiled : Filed k.core) {id : ClientOrderId} {o : Order}
    (ho : k.core.oms.cache.order id = some o) (hiid : o.instrumentId = iid)
    (hopen : o.status.isTerminal = false) : id ∈ openOrders setup iid k := by
  have hmem : o ∈ setup.hash.orders k.ops k.core.oms.cache :=
    (setup.hash.orders_perm _ _).mem_iff.mpr
      (List.mem_map.mpr ⟨⟨id, o⟩, AList.mem_lookup_iff.mp ho, rfl⟩)
  refine List.mem_map.mpr ⟨o, List.mem_filter.mpr ⟨hmem, ?_⟩, hfiled.key id o ho⟩
  simp [hiid, hopen]

/-- **A settlement winds the contract up** when every order on it has been acknowledged. -/
theorem Settles.winding (h : Settles setup events expiry iid k) (hfiled : Filed k.core)
    {inst : Instrument} {px : Price} (hinst : k.core.oms.cache.instrument iid = some inst)
    (hexpiry : inst.expiryNs = some expiry)
    (hpx : settlementPrice k.core.oms.cache inst iid = some px)
    (hbooks : ∀ inst pos f, k.core.oms.closing iid px expiry "SETTLE" = some (inst, pos, f) →
      Position.Books inst pos f)
    (hacked : ∀ id o, k.core.oms.cache.order id = some o → o.instrumentId = iid →
      o.status ≠ .submitted)
    (hnew : ∀ op ∈ (settleContract setup expiry k iid).ops, op.SubmitsFresh) :
    Winding iid ∅ (settleContract setup expiry k iid).core
      ∧ Filed (settleContract setup expiry k iid).core := by
  -- the position is closed, and its orders are over or working
  set k₁ := (perform setup (.closeAt iid px expiry "SETTLE") k).2 with hk₁
  have hclosed : Winding iid Set.univ k₁.core := by
    have horders : k₁.core.oms.cache.orders = k.core.oms.cache.orders := by
      simp only [hk₁, perform, Core.exec]
      cases k.core.oms.closing iid px expiry "SETTLE" <;> rfl
    refine ⟨⟨inst, expiry, ?_, hexpiry, ?_⟩, fun pos ↦ flat_of_closeAt hfiled.sound.keyed hbooks,
      fun id o ho hiid ↦ ?_⟩
    · rw [Cache.instrument]
      exact congrArg (AList.lookup iid) (k.core.grows_step _ _).instruments |>.trans hinst
    · exact h.expiry_le_now.trans (k.core.now_le_step _ _)
    · rw [Cache.order, horders] at ho
      rcases hfiled.status id o ho with hover | hworking | hsubmitted
      · exact .inl hover
      · exact .inr ⟨trivial, hworking⟩
      · exact absurd hsubmitted (hacked id o ho hiid)
  -- the strategy hears of the close
  set k₂ := closePositionAt setup iid px expiry "SETTLE" k with hk₂
  have hquiet : Quietly setup k₁ k₂ := Quietly.foldl (fun _ ev ↦ Quietly.notifyClosed expiry ev) _
  have hroutes : Routes setup k₁ k₂ :=
    routes_loopMoves.foldl (fun _ ev ↦ routes_loopMoves.notifyClosed expiry ev) _
  have hsettle : settleContract setup expiry k iid
      = cancelAll setup expiry (openOrders setup iid k₂) k₂ := by
    simp only [settleContract, hinst, hpx]
    rfl
  rw [hsettle] at hnew ⊢
  have hrest : Quietly setup k₂ (cancelAll setup expiry (openOrders setup iid k₂) k₂) :=
    Quietly.cancelAll expiry (openOrders setup iid k₂)
  obtain ⟨hheard, hfiled₂⟩ := winding_moves hclosed
    (hfiled.step (.closeAt iid px expiry "SETTLE") trivial) hquiet hroutes (hrest.submitsFresh hnew)
  -- every working order is among those that are cancelled
  refine winding_cancelAll ⟨hheard.expired, hheard.flat, fun id o ho hiid ↦ ?_⟩ hfiled₂ hnew
  rcases hheard.orders id o ho hiid with hover | ⟨-, hworking⟩
  · exact .inl hover
  · refine .inr ⟨mem_openOrders hfiled₂ ho hiid ?_, hworking⟩
    revert hworking
    cases o.status <;> simp [OrderStatus.isWorking, OrderStatus.isTerminal]

/-- **A settled contract stays settled** when every order on it had been acknowledged by its expiry.
Until the end of the run nothing is held in it, and an order on it that has come to trade had done
so before. -/
theorem settled_for_good (hsettles : Settles setup events expiry iid k) {inst : Instrument}
    {px : Price} (hinst : k.core.oms.cache.instrument iid = some inst)
    (hexpiry : inst.expiryNs = some expiry)
    (hpx : settlementPrice k.core.oms.cache inst iid = some px)
    (hbooks : ∀ inst pos f, k.core.oms.closing iid px expiry "SETTLE" = some (inst, pos, f) →
      Position.Books inst pos f)
    (hacked : ∀ id o, k.core.oms.cache.order id = some o → o.instrumentId = iid →
      o.status ≠ .submitted)
    (hreached : Reached setup events k')
    (hlater : (settleContract setup expiry k iid).ops <+: k'.ops)
    (hnew : ∀ op ∈ k'.ops, op.SubmitsFresh) :
    ∀ ops, (settleContract setup expiry k iid).ops <+: ops → ops <+: k'.ops →
      (∀ pos, (ops.foldl (Core.step setup.config.brokerage)
          (initialCore setup.config)).oms.cache.position iid = some pos → pos.side = .flat)
      ∧ ∀ id o, (ops.foldl (Core.step setup.config.brokerage)
          (initialCore setup.config)).oms.cache.order id = some o → o.instrumentId = iid →
        o.status.isTrading →
          (settleContract setup expiry k iid).core.oms.cache.order id = some o := by
  set k₀ := settleContract setup expiry k iid with hk₀
  have hquiet : Quietly setup k k₀ := Quietly.settleContract expiry iid
  have hnew₀ : ∀ op ∈ k₀.ops, op.SubmitsFresh := fun op hop ↦ hnew op (hlater.subset hop)
  -- the records, from the start to the settlement
  have hfiled : Filed k.core := by
    rw [hsettles.replays]
    refine (along_of_forall_mem (hquiet.submitsFresh hnew₀)).induction ?_
      (filed_initialCore setup.config)
    exact fun c op hc hop ↦ hc.step op hop
  obtain ⟨hwinding, hfiled₀⟩ := hsettles.winding hfiled hinst hexpiry hpx hbooks hacked hnew₀
  rintro ops ⟨l, rfl⟩ ⟨rest, hrest⟩
  -- and from there on
  have hreplays : k₀.ops.foldl (Core.step setup.config.brokerage) (initialCore setup.config)
      = k₀.core := (hsettles.replays.quietly hquiet).symm
  have hrouted : Along (Core.step setup.config.brokerage) (Routed setup) k₀.core l := by
    have hall := hreached.routed
    rw [← hrest, along_append, along_append, hreplays] at hall
    exact hall.1.2
  have hfresh :
      Along (Core.step setup.config.brokerage) (fun _ op ↦ op.SubmitsFresh) k₀.core l := by
    refine along_of_forall_mem fun op hop ↦ hnew op ?_
    rw [← hrest]
    exact List.mem_append_left _ (List.mem_append_right _ hop)
  rw [List.foldl_append, hreplays]
  have hinv := (hrouted.and hfresh).induction (I := fun c ↦ Filed c ∧ Winding iid ∅ c
    ∧ ∀ id o, c.oms.cache.order id = some o → o.instrumentId = iid → o.status.isTrading →
      k₀.core.oms.cache.order id = some o) ?_ ⟨hfiled₀, hwinding, fun _ _ ho _ _ ↦ ho⟩
  · exact ⟨hinv.2.1.flat, hinv.2.2⟩
  · rintro c op ⟨hfiled, hwinding, hsince⟩ ⟨hrouted, hfresh⟩
    refine ⟨hfiled.step op hfresh, hwinding.step hfiled (.inr rfl) hfresh hrouted.wired,
      fun id o ho hiid htrading ↦ ?_⟩
    rcases hwinding.order_step hfiled.custody (.inr rfl) hfresh hrouted.wired ho hiid with
      hkept | hs | hs | hs
    · exact hsince id o hkept hiid htrading
    · rw [hs] at htrading
      cases htrading
    · rw [hs] at htrading
      cases htrading
    · rw [hs] at htrading
      cases htrading

/-! ## The rest of a run -/

/-- A run first makes the iterations that it makes first. -/
theorem run_add_length {frontiers : List UnixNanos} {x : List MarketEvent × BacktestKernel σ}
    (h : Along (fun x ts ↦ iterate setup ts x.1 x.2) (fun x ts ↦ frontier x.1 x.2 = some ts) x
      frontiers) (n : ℕ) :
    run setup (n + frontiers.length) x.1 x.2
      = run setup n (frontiers.foldl (fun x ts ↦ iterate setup ts x.1 x.2) x).1
        (frontiers.foldl (fun x ts ↦ iterate setup ts x.1 x.2) x).2 := by
  induction frontiers generalizing x with
  | nil => rfl
  | cons ts frontiers ih =>
    have hfirst : run setup (n + frontiers.length + 1) x.1 x.2
        = run setup (n + frontiers.length) (iterate setup ts x.1 x.2).1
          (iterate setup ts x.1 x.2).2 := by
      conv_lhs => unfold run
      simp only [show frontier x.1 x.2 = some ts from h.1]
    exact hfirst.trans (ih h.2)

variable (setup events) in
/-- The state in which the one contract that expires at `ts` is settled, after iterations at given
frontiers. -/
def settling (frontiers : List UnixNanos) (ts : UnixNanos) : BacktestKernel σ :=
  let k := (untilMarket setup ts (loopAt setup events frontiers).1
    (loopAt setup events frontiers).2).2
  { k with expiries := k.expiries.dropWhile fun e ↦ e.1 ≤ ts }

/-- What is to be evaluated to see that the contract is settled there, and how the run ends. -/
theorem settles_settling {frontiers : List UnixNanos} {n : ℕ}
    (hrun : Along (fun x ts ↦ iterate setup ts x.1 x.2) (fun x ts ↦ frontier x.1 x.2 = some ts)
      (sortedEvents events, start setup) (frontiers ++ [ts]))
    (hexpiries : (untilMarket setup ts (loopAt setup events frontiers).1
      (loopAt setup events frontiers).2).2.expiries = [(ts, iid)])
    (hend : run setup (n + (frontiers ++ [ts]).length) (sortedEvents events) (start setup)
      = some k') :
    Settles setup events ts iid (settling setup events frontiers ts) ∧ Reached setup events k'
      ∧ (settleContract setup ts (settling setup events frontiers ts) iid).ops <+: k'.ops := by
  obtain ⟨hfront, hfrontier, -⟩ := along_append.mp hrun
  have hdue : ((untilMarket setup ts (loopAt setup events frontiers).1
      (loopAt setup events frontiers).2).2.expiries.takeWhile fun e ↦ e.1 ≤ ts)
      = [] ++ (ts, iid) :: [] := by
    rw [hexpiries]
    simp
  refine ⟨.due (looped_loopAt hfront) hfrontier hdue, .finish hend, ?_⟩
  rw [run_add_length hrun, List.foldl_append] at hend
  refine List.IsPrefix.trans ?_ (ops_prefix_run hend)
  -- nothing else expires, and what is left of the iteration only adds to the record
  have hsettled : settleExpiries setup ts (untilMarket setup ts (loopAt setup events frontiers).1
      (loopAt setup events frontiers).2).2
      = settleContract setup ts (settling setup events frontiers ts) iid := by
    rw [settleExpiries, hdue]
    rfl
  obtain ⟨l, hops, -⟩ := (Quietly.checkLiquidation (k := settleContract setup ts
    (settling setup events frontiers ts) iid) ts).run
  refine ⟨l, hops.symm.trans ?_⟩
  rw [← hsettled]
  rfl

end Settled

section Instances

open scoped RustDecimal

/-- The strategy buys one contract on the first trade. Reports come late. -/
def lateBuy (latency : ℕ) : Setup Bool :=
  { holdOne with config := { holdOne.config with
      brokerage := ({ latencyNs := latency } : DefaultBrokerageModel).brokerage } }

/-- The order is sent at eight, and the second trade fills it at nine. The contract expires at
ten. -/
def lateTrades : List MarketEvent := [tradeOn 8 100, tradeOn 9 100]

/-- The state in which the contract is settled. -/
def lateSettling (latency : ℕ) : BacktestKernel Bool :=
  settling (lateBuy latency) lateTrades [8, 9] 10

def lateEnd? (latency : ℕ) : Option (BacktestKernel Bool) :=
  run (lateBuy latency) (6 + ([8, 9] ++ [10]).length) (sortedEvents lateTrades)
    (start (lateBuy latency))

def lateEnd (latency : ℕ) : BacktestKernel Bool :=
  (lateEnd? latency).getD (build (lateBuy latency))

theorem settles_lateSettling (latency : ℕ)
    (hrun : Along (fun x ts ↦ iterate (lateBuy latency) ts x.1 x.2)
      (fun x ts ↦ frontier x.1 x.2 = some ts) (sortedEvents lateTrades, start (lateBuy latency))
      ([8, 9] ++ [10]))
    (hexpiries : (untilMarket (lateBuy latency) 10 (loopAt (lateBuy latency) lateTrades [8, 9]).1
      (loopAt (lateBuy latency) lateTrades [8, 9]).2).2.expiries = [(10, expiring.id)])
    (hend : (lateEnd? latency).isSome = true) :
    Settles (lateBuy latency) lateTrades 10 expiring.id (lateSettling latency)
      ∧ Reached (lateBuy latency) lateTrades (lateEnd latency)
      ∧ (settleContract (lateBuy latency) 10 (lateSettling latency) expiring.id).ops
        <+: (lateEnd latency).ops := by
  obtain ⟨k', hk'⟩ := Option.isSome_iff_exists.mp hend
  rw [lateEnd, hk']
  exact settles_settling hrun hexpiries hk'

/-- The acknowledgement arrives at ten, in time. The fill is still in flight then, and is refused at
eleven. -/
theorem settled_for_good_late :
    (lateEnd 2).core.issued.length = 1 ∧ ∀ ops,
      (settleContract (lateBuy 2) 10 (lateSettling 2) expiring.id).ops <+: ops →
      ops <+: (lateEnd 2).ops →
      (∀ pos, (ops.foldl (Core.step (lateBuy 2).config.brokerage)
          (initialCore (lateBuy 2).config)).oms.cache.position expiring.id = some pos →
        pos.side = .flat)
      ∧ ∀ id o, (ops.foldl (Core.step (lateBuy 2).config.brokerage)
          (initialCore (lateBuy 2).config)).oms.cache.order id = some o →
        o.instrumentId = expiring.id → o.status.isTrading →
          (settleContract (lateBuy 2) 10 (lateSettling 2) expiring.id).core.oms.cache.order id
            = some o := by
  refine ⟨by decide +kernel, ?_⟩
  obtain ⟨hsettles, hreached, hlater⟩ := settles_lateSettling 2 (by decide)
    (by decide) (by decide +kernel)
  have hclosing : (lateSettling 2).core.oms.closing expiring.id ⟨100, 0⟩ 10 "SETTLE" = none := by
    decide
  have hacked : ∀ e ∈ (lateSettling 2).core.oms.cache.orders.entries, e.2.status ≠ .submitted := by
    decide
  have hinst : (lateSettling 2).core.oms.cache.instrument expiring.id = some expiring := by
    decide
  have hpx : settlementPrice (lateSettling 2).core.oms.cache expiring expiring.id
      = some ⟨100, 0⟩ := by decide
  refine settled_for_good hsettles hinst rfl hpx (fun inst pos f h ↦ ?_) (fun id o ho _ ↦ ?_)
    hreached hlater (by decide +kernel)
  · rw [hclosing] at h
    cases h
  · exact hacked ⟨id, o⟩ (AList.mem_lookup_iff.mp ho)

/-- **A position reappears.** The acknowledgement is still in flight at the expiry: the order cannot
be cancelled, and goes on to be accepted and filled. -/
theorem reopened_after_expiry :
    ¬ ∀ (setup : Setup Bool) (events : List MarketEvent) (expiry : UnixNanos) (iid : InstrumentId)
      (k k' : BacktestKernel Bool) (inst : Instrument) (px : Price),
      Settles setup events expiry iid k → k.core.oms.cache.instrument iid = some inst →
      inst.expiryNs = some expiry → settlementPrice k.core.oms.cache inst iid = some px →
      k.core.oms.closing iid px expiry "SETTLE" = none → Reached setup events k' →
      (settleContract setup expiry k iid).ops <+: k'.ops →
      (∀ op ∈ k'.ops, op.SubmitsFresh) →
      (∀ pos, k'.core.oms.cache.position iid = some pos → pos.side = .flat)
      ∧ ∀ id o, k'.core.oms.cache.order id = some o → o.instrumentId = iid →
        o.status.isTrading →
        (settleContract setup expiry k iid).core.oms.cache.order id = some o := by
  intro h
  obtain ⟨hsettles, hreached, hlater⟩ := settles_lateSettling 3 (by decide)
    (by decide) (by decide +kernel)
  obtain ⟨hflat, -⟩ := h (lateBuy 3) lateTrades 10 expiring.id (lateSettling 3) (lateEnd 3) expiring
    ⟨100, 0⟩ hsettles (by decide) rfl (by decide) (by decide) hreached
    hlater
    (by decide +kernel)
  have hheld : ((lateEnd 3).core.oms.cache.position expiring.id).map Position.side
      = some .long := by decide +kernel
  obtain ⟨pos, hpos, hside⟩ := Option.map_eq_some_iff.mp hheld
  rw [hflat pos hpos] at hside
  cases hside

end Instances

end BacktestKernel

end Coinext
