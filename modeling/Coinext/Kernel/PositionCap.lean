import Coinext.Kernel.Liquidation
import Coinext.Kernel.OpenOrders
import Coinext.Kernel.Routing

/-!
# The position cap

The risk gate compares the position plus the order it is shown with the cap. Orders that are open
when it does so are not in the comparison, and each of them was approved against the position of its
own moment. So orders that fit one by one may fill to a position that does not.

`worstCase` is the position once everything that is open on one side has filled. It stays within the
cap as long as the orders that are approved while others are open on their side leave it there:
orders that are approved alone do so by the gate (`position_within_cap`).
-/

namespace Coinext

open ExecutionEngine

/-- The order is for the instrument, on the side. -/
def Order.on (iid : InstrumentId) (side : OrderSide) (o : Order) : Bool :=
  o.instrumentId = iid ∧ o.side = side

/-- The position in the direction of a side, once all open orders of the side have filled. -/
def Oms.worstCase (s : Oms) (iid : InstrumentId) (side : OrderSide) : Decimal :=
  side.sign * s.signed iid + s.openQty (Order.on iid side)

/-- Nothing that is open can take a position past the cap. -/
def CapInv (cap : Decimal) (s : Oms) : Prop := ∀ iid side, s.worstCase iid side ≤ cap

theorem CapInv.abs_signed_le {cap : Decimal} {s : Oms} (h : CapInv cap s) (iid : InstrumentId) :
    |s.signed iid| ≤ cap := by
  have hbuy := h iid .buy
  have hsell := h iid .sell
  have hbuys := s.openQty_nonneg (Order.on iid .buy)
  have hsells := s.openQty_nonneg (Order.on iid .sell)
  simp only [Oms.worstCase, OrderSide.sign] at hbuy hsell
  push_cast at hbuy hsell
  exact abs_le.mpr ⟨by linarith, by linarith⟩

/-- The gate approves only what keeps the position within the cap by itself. -/
theorem RiskGate.abs_le_of_approved {cache : Cache} {limits : RiskLimits} {killed : Bool}
    {order : Order} {portfolio : Portfolio} {inst : Instrument} {cap : Quantity}
    (hcap : limits.maxPositionQty = some cap)
    (h : check cache limits killed order portfolio inst = .approved) :
    |signedPositionQty portfolio order + order.side.sign * order.quantity.asDecimal|
      ≤ cap.asDecimal := by
  obtain ⟨-, -, hposition, -⟩ := check_eq_approved_iff.mp h
  exact hposition cap hcap

section Step

variable [DecimalWidth] {model : BrokerageModel} {c : Core}

theorem Order.stable_on (iid : InstrumentId) (side : OrderSide) :
    Order.Stable (Order.on iid side) := by
  intro o o' ev hacc _
  have hterms := hacc.sameTerms
  simp only [Order.on, hterms.instrumentId, hterms.side]

/-- An order that is approved while others are open on its side leaves the worst case within the
cap. -/
def Core.LeavesRoom (cap : Decimal) (c : Core) : CoreOp → Prop
  | .submit risk portfolio order now => c.oms.Approves risk portfolio order now →
      0 < c.oms.openQty (Order.on order.instrumentId order.side) →
      c.oms.worstCase order.instrumentId order.side + order.quantity.asDecimal ≤ cap
  | _ => True

instance (cap : Decimal) (c : Core) : (op : CoreOp) → Decidable (c.LeavesRoom cap op)
  | .submit risk portfolio order now =>
    inferInstanceAs (Decidable (c.oms.Approves risk portfolio order now → _ → _))
  | .advance _ | .drain _ | .applyNext | .cancel .. | .process _ | .onMarket _ | .closeAt ..
  | .setTimer .. | .cancelTimer _ | .popDue _ => isTrue trivial

theorem Quantity.exists_fromDecimal_of_le {d d' : Decimal} {p : ℕ} {q : Quantity} (hd : 0 ≤ d)
    (hle : d ≤ d') (hq : Quantity.fromDecimal d' p = .ok q) :
    ∃ q, Quantity.fromDecimal d p = .ok q := by
  obtain ⟨-, hprec, hfits, hmax, -⟩ := Quantity.fromDecimal_eq_ok_iff.mp hq
  have hmono : mantissa d p ≤ mantissa d' p := mantissa_mono p hle
  have hnonneg := mantissa_nonneg hd p
  refine ⟨_, Quantity.fromDecimal_eq_ok_iff.mpr ⟨hd, hprec, ?_, hmono.trans hmax, rfl⟩⟩
  exact DecimalWidth.fits_mono (by omega) hfits

omit [DecimalWidth] in
/-- A position that takes the side of a size larger than its own moves towards that size, and no
further. -/
theorem Position.signed_side_between {pos : Position} {f : Fill}
    (hlarger : pos.quantity.asDecimal = 0 ∨ pos.quantity.asDecimal < |pos.signed + f.signedQty|) :
    0 ≤ f.side.sign * ({ pos with side := sideOf (pos.signed + f.signedQty) }.signed - pos.signed)
      ∧ f.side.sign * ({ pos with side := sideOf (pos.signed + f.signedQty) }.signed - pos.signed)
        ≤ f.lastQty.asDecimal := by
  have hqty := f.lastQty.asDecimal_nonneg
  have hsize := pos.quantity.asDecimal_nonneg
  -- the old size, by its side; the new one, by the sign of what it should be
  have hold : pos.signed = pos.quantity.asDecimal ∨ pos.signed = -pos.quantity.asDecimal
      ∨ pos.signed = 0 := by
    rw [signed]
    cases pos.side <;> simp
  generalize hsum : pos.signed + f.signedQty = sum at *
  have hnew : { pos with side := sideOf sum }.signed
      = if sum = 0 then 0 else if sum > 0 then pos.quantity.asDecimal
        else -pos.quantity.asDecimal := by
    rw [signed, sideOf]
    split_ifs <;> rfl
  rw [Fill.signedQty] at hsum
  rw [hnew]
  cases hside : f.side with
  | buy =>
    simp only [hside, OrderSide.sign, Int.cast_one, one_mul] at hsum ⊢
    rcases abs_cases sum with ⟨habs, -⟩ | ⟨habs, -⟩ <;> rcases hold with hold | hold | hold <;>
      rcases hlarger with h | h <;> split_ifs <;> constructor <;> linarith
  | sell =>
    simp only [hside, OrderSide.sign, Int.cast_neg, Int.cast_one, neg_mul, one_mul] at hsum ⊢
    rcases abs_cases sum with ⟨habs, -⟩ | ⟨habs, -⟩ <;> rcases hold with hold | hold | hold <;>
      rcases hlarger with h | h <;> split_ifs <;> constructor <;> linarith

/-- **A fill never moves a position further than it trades**, in its own direction, whether or not
it can be booked: a size that cannot be represented leaves the old one. -/
theorem Position.WellFormed.signed_applied_between {inst : Instrument} {pos : Position} {f : Fill}
    (h : Position.WellFormed inst pos) (hmade : pos.quantity.Made)
    (hgrid : OnGrid f.signedQty inst.sizePrecision) :
    0 ≤ f.side.sign * ((pos.applied inst f).signed - pos.signed)
      ∧ f.side.sign * ((pos.applied inst f).signed - pos.signed) ≤ f.lastQty.asDecimal := by
  have hqty := f.lastQty.asDecimal_nonneg
  have hsize := pos.quantity.asDecimal_nonneg
  cases hbook : Position.bookRealized pos.realizedPnl (pos.realized f inst)
    inst.settlementCurrency with
  | error e =>
    have hsame : pos.applied inst f = pos := by
      rw [Position.applied, Position.exec_applyFill, hbook]
    rw [hsame]
    simpa using hqty
  | ok pnl =>
    cases hnew : Quantity.fromDecimal |pos.signed + f.signedQty| pos.sizePrecision with
    | ok q =>
      rw [h.signed_applied ⟨⟨pnl, hbook⟩, q, hnew⟩ hgrid, add_sub_cancel_left, Fill.signedQty]
      cases f.side <;> simp [OrderSide.sign, hqty]
    | error e =>
      have hsigned : (pos.applied inst f).signed
          = { pos with side := Position.sideOf (pos.signed + f.signedQty) }.signed := by
        rw [Position.applied, Position.exec_applyFill, hbook, hnew]
        rfl
      -- what is there can be represented, so what cannot be is larger
      have hlarger : pos.quantity.asDecimal = 0
          ∨ pos.quantity.asDecimal < |pos.signed + f.signedQty| := by
        rcases hmade with hzero | ⟨d, hd⟩
        · exact .inl (by rw [Quantity.asDecimal, hzero, Nat.cast_zero, zero_mul])
        · refine .inr (lt_of_not_ge fun hle ↦ ?_)
          obtain ⟨-, hprec, hfits, -⟩ := Quantity.fromDecimal_eq_ok_iff.mp hd
          have hback := (Quantity.made_of_fromDecimal hd).fromDecimal_asDecimal hprec hfits
          obtain ⟨q, hq⟩ := Quantity.exists_fromDecimal_of_le (abs_nonneg _) hle hback
          rw [h.sizePrecision, ← h.quantity, hq] at hnew
          cases hnew
      rw [hsigned]
      exact Position.signed_side_between hlarger

theorem Oms.signed_folded {s : Oms} (h : s.Keyed) {f : Fill} {inst : Instrument}
    (hinst : s.cache.instrument f.instrumentId = some inst) (o' : Order) (iid : InstrumentId) :
    (folded s f o').signed iid = if iid = f.instrumentId
      then ((s.positionOrFlat f.instrumentId inst).applied inst f).signed else s.signed iid := by
  have hkeyed : ((markSeen f s).setOrder f.clientOrderId o').Keyed := h.congr rfl rfl
  rw [Oms.signed, folded, position_foldPosition hkeyed hinst]
  split_ifs <;> rfl

/-- What is open fills at most to the worst case. -/
theorem CapInv.fill {cap : Decimal} (h : CapInv cap c.oms) (hbudget : Budgeted c)
    (hsound : c.oms.Sound) {f : Fill} {rest : List ExecutionReport} {o o' : Order}
    (hp : c.pending = .fill f :: rest) (ho : c.oms.cache.order f.clientOrderId = some o)
    (hacc : o.Accepts (fillEvent o f) o') : CapInv cap (folded c.oms f o') := by
  obtain ⟨hinstrument, hside⟩ := hbudget.custody.next_fill hp ho
  obtain ⟨inst, hinst, hgrid⟩ := hbudget.precision_of_fill hp ho hacc
  intro iid side
  have hopen := hbudget.openQty_folded (Order.stable_on iid side) hp ho hacc
  have hworst := h iid side
  rw [Oms.worstCase, Oms.signed_folded hsound.keyed hinst]
  rw [Oms.worstCase] at hworst
  by_cases hiid : iid = f.instrumentId
  · subst hiid
    obtain ⟨-, hwf, hheld⟩ := Oms.Keyed.positionOrFlat hsound.keyed hinst
    obtain ⟨hleast, hmost⟩ := hwf.signed_applied_between
      (hsound.made_positionOrFlat f.instrumentId inst)
      (Fill.onGrid_signedQty (hgrid ▸ f.lastQty.onGrid_asDecimal))
    rw [hheld] at hleast hmost
    rw [if_pos rfl]
    by_cases hsame : side = f.side
    · -- on the side of the fill, what was open is now held
      have hon : Order.on f.instrumentId side o = true := by
        simp [Order.on, hinstrument, hsame, hside]
      rw [if_pos hon] at hopen
      rw [hsame] at hworst hopen ⊢
      linarith
    · -- on the other side, the position has moved away from the cap
      have hoff : ¬ Order.on f.instrumentId side o = true := by
        simp [Order.on, ← hside, Ne.symm hsame]
      have hsign : (side.sign : ℚ) = -f.side.sign := by
        revert hsame
        cases side <;> cases f.side <;> simp [OrderSide.sign]
      rw [if_neg hoff, add_zero] at hopen
      rw [hopen]
      rw [hsign] at hworst ⊢
      linarith
  · have hoff : ¬ Order.on iid side o = true := by
      simp [Order.on, ← hinstrument, Ne.symm hiid]
    rw [if_neg hoff, add_zero] at hopen
    rw [if_neg hiid, hopen]
    exact hworst

/-- An approved order leaves the worst case within the cap: by the gate when nothing is open on its
side, by the condition otherwise. -/
theorem Core.LeavesRoom.within {cap : Quantity} {limits : RiskLimits} {killed : Bool}
    {settle : Currency}
    {risk : RiskEngine} {portfolio : Portfolio} {order : Order} {now : UnixNanos}
    (hcap : limits.maxPositionQty = some cap)
    (hroom : c.LeavesRoom cap.asDecimal (.submit risk portfolio order now))
    (happroves : c.oms.Approves risk portfolio order now)
    (hrouted : risk = RiskGate.riskEngine c.oms.cache limits killed
      ∧ portfolio = PortfolioState.portfolio c.oms.cache settle) :
    order.side.sign * c.oms.signed order.instrumentId + (order.quantity.asDecimal
      + c.oms.openQty (Order.on order.instrumentId order.side)) ≤ cap.asDecimal := by
  rcases (c.oms.openQty_nonneg (Order.on order.instrumentId order.side)).eq_or_lt with hnone | hopen
  · obtain ⟨-, inst, -, -, happroved⟩ := happroves
    rw [hrouted.1, hrouted.2] at happroved
    have habs := RiskGate.abs_le_of_approved hcap happroved
    have hcur : RiskGate.signedPositionQty (PortfolioState.portfolio c.oms.cache settle) order
        = c.oms.signed order.instrumentId := rfl
    rw [hcur] at habs
    rw [← hnone, add_zero]
    obtain ⟨hleast, hmost⟩ := abs_le.mp habs
    cases hside : order.side with
    | buy =>
      simp only [hside, OrderSide.sign, Int.cast_one, one_mul] at hmost ⊢
      exact hmost
    | sell =>
      simp only [hside, OrderSide.sign, Int.cast_neg, Int.cast_one, neg_mul, one_mul] at hleast ⊢
      linarith
  · have hwithin := hroom happroves hopen
    rw [Oms.worstCase] at hwithin
    linarith

/-- **The worst case stays within the cap.** -/
theorem CapInv.step {σ : Type} {setup : Setup σ} {cap : Quantity}
    (hcap : setup.config.risk.maxPositionQty = some cap) (h : CapInv cap.asDecimal c.oms)
    (hbudget : Budgeted c) (hsound : c.oms.Sound) (op : CoreOp) (hnew : c.SubmitsNew op)
    (hcloses : c.ClosesNothing op) (hroom : c.LeavesRoom cap.asDecimal op)
    (hrouted : BacktestKernel.Routed setup c op) : CapInv cap.asDecimal (c.step model op).oms := by
  have hdoes : c.Does op (c.step model op).oms := hbudget.custody.does_step op
  generalize (c.step model op).oms = s at hdoes
  have hsigned (hpositions : s.cache.positions = c.oms.cache.positions) (iid : InstrumentId) :
      s.signed iid = c.oms.signed iid := by
    rw [Oms.signed, Cache.position, hpositions]
    rfl
  intro iid side
  have hworst := h iid side
  cases hdoes with
  | quiet orders positions bought =>
    rw [Oms.worstCase, hsigned positions, Oms.openQty_of_orders orders]
    exact hworst
  | notice order event orders positions bought =>
    rw [Oms.worstCase, hsigned positions]
    have hle := Oms.openQty_notice_le (Order.stable_on iid side) order event orders
    rw [Oms.worstCase] at hworst
    linarith
  | @track risk portfolio order now ev s untracked known event orders positions bought =>
    rw [Oms.worstCase, hsigned positions, Oms.openQty_track untracked orders]
    rw [Oms.worstCase] at hworst
    rcases event with ⟨reason, rfl⟩ | ⟨rfl, happroves⟩
    · rw [Order.openQty_denied hnew.1, ite_self, zero_add]
      exact hworst
    · have hterms := order.sameTerms_applied (.submitted now)
      rw [Order.openQty_submitted hnew]
      split_ifs with hon
      · obtain ⟨rfl, rfl⟩ : order.instrumentId = iid ∧ order.side = side := by
          simpa [Order.on, hterms.instrumentId, hterms.side] using hon
        exact hroom.within hcap happroves ⟨hrouted.1, hrouted.2.1⟩
      · rw [zero_add]
        exact hworst
  | fill pending unseen order accepts => exact h.fill hbudget hsound pending order accepts iid side
  | close closing =>
    rw [show c.oms.closing _ _ _ _ = none from hcloses] at closing
    cases closing

/-- **The cap holds over runs** in which nothing is closed by force and orders that are approved
while others are open leave room for them. This holds after each operation, not only in the states
between iterations. -/
theorem position_within_cap {σ : Type} (setup : Setup σ) (events : List MarketEvent)
    (hmodel : setup.config.brokerage.NeverOverfills) {cap : Quantity}
    (hcap : setup.config.risk.maxPositionQty = some cap) (k : BacktestKernel σ)
    (hk : BacktestKernel.Reached setup events k)
    (hrun : Along (Core.step setup.config.brokerage)
      (fun c op ↦ c.SubmitsNew op ∧ c.ClosesNothing op ∧ c.LeavesRoom cap.asDecimal op)
      (BacktestKernel.initialCore setup.config) k.ops) :
    (∀ iid, |k.core.oms.signed iid| ≤ cap.asDecimal) ∧ ∀ ops, ops <+: k.ops → ∀ iid,
      |(ops.foldl (Core.step setup.config.brokerage)
        (BacktestKernel.initialCore setup.config)).oms.signed iid| ≤ cap.asDecimal := by
  have hfresh := fresh_initialCore setup.config
  have hinitial : CapInv cap.asDecimal (BacktestKernel.initialCore setup.config).oms := by
    intro iid side
    have hflat : (BacktestKernel.initialCore setup.config).oms.signed iid = 0 := by
      rw [Oms.signed, Cache.position, hfresh.2, AList.lookup_empty]
    rw [Oms.worstCase, hflat, Oms.openQty, hfresh.1]
    simpa using cap.asDecimal_nonneg
  have hprefix : ∀ ops, ops <+: k.ops → ∀ iid, |(ops.foldl (Core.step setup.config.brokerage)
      (BacktestKernel.initialCore setup.config)).oms.signed iid| ≤ cap.asDecimal := by
    rintro ops ⟨rest, hrest⟩
    have hboth := hrun.and hk.routed
    rw [← hrest, along_append] at hboth
    have hinv := hboth.1.induction
      (I := fun c ↦ Budgeted c ∧ c.oms.Sound ∧ CapInv cap.asDecimal c.oms) ?_
      ⟨budgeted_initialCore setup.config, hfresh.sound, hinitial⟩
    · exact hinv.2.2.abs_signed_le
    · rintro c op ⟨hbudget, hsound, hinv⟩ ⟨⟨hnew, hcloses, hroom⟩, hrouted⟩
      exact ⟨hbudget.step hmodel op hnew, Core.sound_step _ hsound op,
        hinv.step hcap hbudget hsound op hnew hcloses hroom hrouted⟩
  refine ⟨?_, hprefix⟩
  rw [hk.replays]
  exact hprefix k.ops List.prefix_rfl

end Step

section Instances

open scoped RustDecimal

/-- The strategy sends two orders for one contract each on the first bar, under a cap. -/
def buyTwice (cap : Quantity) : Setup Bool where
  config := ⟨[Position.perp false], ⟨"USDT", 2, two_le_maxPrecision⟩, ⟨100000,
    ⟨"USDT", 2, two_le_maxPrecision⟩⟩, { RiskLimits.unlimited with maxPositionQty := some cap },
    ({ latencyNs := 10 } : DefaultBrokerageModel).brokerage, 0⟩
  strategyId := ⟨"S"⟩
  strategy := ⟨fun sent cb ↦ match sent, cb with
    | false, .bar _ => .submitMarket (Position.perp false).id .buy ⟨1, 0⟩ fun _ ↦
        .submitMarket (Position.perp false).id .buy ⟨1, 0⟩ fun _ ↦ .done true
    | sent, _ => .done sent⟩
  initial := false
  killed := false
  hash := .lastInserted

/-- The end of a run over two bars. Both orders are in flight when the second one is checked. -/
def boughtTwice? (cap : Quantity) : Option (BacktestKernel Bool) :=
  BacktestKernel.run (buyTwice cap) 9 (BacktestKernel.sortedEvents [barAt 1, barAt 20])
    (BacktestKernel.start (buyTwice cap))

def boughtTwice (cap : Quantity) : BacktestKernel Bool :=
  (boughtTwice? cap).getD (BacktestKernel.build (buyTwice cap))

theorem reached_boughtTwice {cap : Quantity} (h : (boughtTwice? cap).isSome = true) :
    BacktestKernel.Reached (buyTwice cap) [barAt 1, barAt 20] (boughtTwice cap) := by
  obtain ⟨k, hk⟩ := Option.isSome_iff_exists.mp h
  rw [boughtTwice, hk]
  exact .finish hk

/-- There is room for both orders. -/
theorem position_within_cap_two :
    (boughtTwice ⟨2, 0⟩).core.oms.signed (Position.perp false).id = 2 ∧
      (∀ iid, |(boughtTwice ⟨2, 0⟩).core.oms.signed iid| ≤ (⟨2, 0⟩ : Quantity).asDecimal) ∧
      ∀ ops, ops <+: (boughtTwice ⟨2, 0⟩).ops → ∀ iid,
        |(ops.foldl (Core.step (buyTwice ⟨2, 0⟩).config.brokerage)
          (BacktestKernel.initialCore (buyTwice ⟨2, 0⟩).config)).oms.signed iid|
            ≤ (⟨2, 0⟩ : Quantity).asDecimal :=
  ⟨by decide +kernel,
    position_within_cap (buyTwice ⟨2, 0⟩) [barAt 1, barAt 20]
      (DefaultBrokerageModel.neverOverfills _) rfl (boughtTwice ⟨2, 0⟩)
      (reached_boughtTwice (by decide +kernel)) (by decide +kernel)⟩

/-- **The cap is exceeded** when two orders that fit one by one are in flight together. -/
theorem position_over_cap_of_two_in_flight :
    ¬ ∀ (setup : Setup Bool) (events : List MarketEvent) (k : BacktestKernel Bool)
      (cap : Quantity) (iid : InstrumentId),
      setup.config.brokerage.NeverOverfills → setup.config.risk.maxPositionQty = some cap →
      BacktestKernel.Reached setup events k →
      Along (Core.step setup.config.brokerage)
        (fun c op ↦ c.SubmitsNew op ∧ c.ClosesNothing op)
        (BacktestKernel.initialCore setup.config) k.ops →
      |k.core.oms.signed iid| ≤ cap.asDecimal := by
  intro h
  have hwithin := h (buyTwice ⟨1, 0⟩) [barAt 1, barAt 20] (boughtTwice ⟨1, 0⟩) ⟨1, 0⟩
    (Position.perp false).id (DefaultBrokerageModel.neverOverfills _) rfl
    (reached_boughtTwice (by decide +kernel)) (by decide +kernel)
  exact absurd hwithin (by decide +kernel)

end Instances

end Coinext
