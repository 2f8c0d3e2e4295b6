import Coinext.Engine.Exec
import Coinext.Model.Pnl
import Coinext.Support.Gather

/-!
# Exposure and the limits on it

The gross exposure of a portfolio is the sum of the notionals of its positions, each rounded to the
unit of its settlement currency. The risk gate computes notionals of its own: the price times the
size times the multiplier, which is not rounded and does not ask whether a contract is inverse.

## The margin gate

An order that adds `Δ` to the size of a linear position moves the gross exposure by the difference
of two rounded notionals, that is by the notional of `Δ` up to one unit. The gate compares this
notional with what the equity times the leverage leaves over the gross exposure, so the exposure
after the fill is within the equity times the leverage, up to that unit.

## The exposure cap

The cap is compared with the exposure before the order alone. It neither looks at what the order
adds nor at whether it reduces the position.
-/

namespace Coinext

/-! ## Amounts in a currency -/

/-- An amount, rounded to the unit of the currency. -/
def Currency.rounded (cur : Currency) (d : Decimal) : Decimal :=
  mantissa d cur.precision * ulp cur.precision

theorem Currency.ext {a b : Currency} (hcode : a.code = b.code)
    (hprecision : a.precision = b.precision) : a = b := by
  cases a
  cases b
  cases hcode
  cases hprecision
  rfl

theorem Currency.rounded_of_onGrid {cur : Currency} {d : Decimal} (h : OnGrid d cur.precision) :
    cur.rounded d = d := h

theorem Currency.abs_rounded_sub (cur : Currency) (d : Decimal) :
    |cur.rounded d - d| ≤ ulp cur.precision / 2 := abs_mantissa_mul_ulp_sub d cur.precision

theorem Currency.rounded_sub_rounded_le (cur : Currency) (a b : Decimal) :
    cur.rounded a - cur.rounded b ≤ a - b + ulp cur.precision := by
  have ha := abs_le.mp (cur.abs_rounded_sub a)
  have hb := abs_le.mp (cur.abs_rounded_sub b)
  linarith [ha.2, hb.1]

theorem OnGrid.sum {l : List Decimal} {p : ℕ} (h : ∀ d ∈ l, OnGrid d p) : OnGrid l.sum p := by
  induction l with
  | nil => exact .zero p
  | cons d l ih =>
    rw [List.sum_cons]
    exact (h d List.mem_cons_self).add (ih fun e he ↦ h e (List.mem_cons_of_mem d he))

theorem convertToSettle_of_currency {value : Money} {settle : Currency}
    (h : value.currency = settle) (inst : Instrument) (mark : Price) :
    convertToSettle value inst mark settle = some value.amount :=
  if_pos h

theorem getD_convertToSettle {value : Money} {settle : Currency}
    (h : value.currency = settle ∨ value.amount = 0) (inst : Instrument) (mark : Price) :
    (convertToSettle value inst mark settle).getD 0 = value.amount := by
  rcases h with h | h
  · rw [convertToSettle_of_currency h, Option.getD_some]
  · unfold convertToSettle
    split_ifs
    · rfl
    · rw [Option.getD_some, h, zero_mul]
    · exact h.symm

section Width

variable [DecimalWidth]

theorem currency_toMoney (settle : Currency) (total : Decimal) :
    (PortfolioState.toMoney settle total).currency = settle := by
  unfold PortfolioState.toMoney
  split
  · rename_i m hm
    obtain ⟨-, rfl⟩ := Money.fromDecimal_eq_ok_iff.mp hm
    rfl
  · rfl

theorem amount_toMoney {settle : Currency} {total : Decimal}
    (hfits : DecimalWidth.fits (mantissa total settle.precision) = true) :
    (PortfolioState.toMoney settle total).amount = settle.rounded total := by
  have hmoney : Money.fromDecimal total settle = .ok ⟨mantissa total settle.precision, settle⟩ :=
    Money.fromDecimal_eq_ok_iff.mpr ⟨hfits, rfl⟩
  rw [PortfolioState.toMoney, hmoney]
  rfl

theorem amount_toMoney_of_not_fits {settle : Currency} {total : Decimal}
    (hfits : ¬ DecimalWidth.fits (mantissa total settle.precision) = true) :
    (PortfolioState.toMoney settle total).amount = 0 := by
  unfold PortfolioState.toMoney
  split
  · rename_i m hm
    exact absurd (Money.fromDecimal_eq_ok_iff.mp hm).1 hfits
  · exact Money.amount_zero settle

theorem currency_notional (pos : Position) (mark : Price) (inst : Instrument) :
    (pos.notional mark inst).currency = inst.settlementCurrency :=
  currency_toMoney _ _

theorem currency_unrealizedPnl (pos : Position) (mark : Price) (inst : Instrument) :
    (pos.unrealizedPnl mark inst).currency = inst.settlementCurrency := by
  unfold Position.unrealizedPnl
  simp only
  by_cases hflat : pos.side = .flat
  · rw [if_pos hflat]
    rfl
  · rw [if_neg hflat]
    exact currency_toMoney _ _

theorem amount_toMoney_zero (settle : Currency) : (PortfolioState.toMoney settle 0).amount = 0 := by
  unfold PortfolioState.toMoney
  cases hmoney : Money.fromDecimal 0 settle with
  | ok m =>
    obtain ⟨-, rfl⟩ := Money.fromDecimal_eq_ok_iff.mp hmoney
    simp [Money.amount]
  | error e => exact Money.amount_zero settle

theorem amount_notional_of_size_zero {pos : Position} (h : pos.quantity.asDecimal = 0)
    (mark : Price) (inst : Instrument) : (pos.notional mark inst).amount = 0 := by
  have hvalue : pos.notional mark inst = PortfolioState.toMoney inst.settlementCurrency 0 := by
    unfold Position.notional
    simp only [h, zero_mul, zero_div, ite_self]
    rfl
  rw [hvalue]
  exact amount_toMoney_zero _

theorem amount_unrealizedPnl_of_size_zero {pos : Position} (h : pos.quantity.asDecimal = 0)
    (mark : Price) (inst : Instrument) : (pos.unrealizedPnl mark inst).amount = 0 := by
  unfold Position.unrealizedPnl
  simp only
  by_cases hflat : pos.side = .flat
  · rw [if_pos hflat]
    exact Money.amount_zero _
  · rw [if_neg hflat, h, mul_zero, zero_mul]
    exact amount_toMoney_zero _

theorem notional_of_linear {inst : Instrument} (hlinear : inst.isInverse = false) (pos : Position)
    (mark : Price) : pos.notional mark inst = PortfolioState.toMoney inst.settlementCurrency
      (pos.quantity.asDecimal * mark.asDecimal * inst.multiplier.asDecimal) := by
  unfold Position.notional
  rw [hlinear]
  rfl

/-- The notional of an inverse position at a mark above zero. -/
theorem notional_of_inverse {inst : Instrument} (hinverse : inst.isInverse = true) (pos : Position)
    {mark : Price} (hmark : 0 < mark.asDecimal) :
    pos.notional mark inst = PortfolioState.toMoney inst.settlementCurrency
      (pos.quantity.asDecimal * inst.multiplier.asDecimal / mark.asDecimal) := by
  have hvalue : (if mark.asDecimal = 0 then 0
      else pos.quantity.asDecimal * inst.multiplier.asDecimal / mark.asDecimal)
      = pos.quantity.asDecimal * inst.multiplier.asDecimal / mark.asDecimal := if_neg hmark.ne'
  unfold Position.notional
  rw [hinverse, ← hvalue]
  rfl

end Width

/-! ## Exchanging one position -/

namespace PortfolioState

variable [DecimalWidth] {c : Cache} {settle : Currency}

/-- What the position of an instrument counts for. -/
def exposureAt (c : Cache) (settle : Currency) (iid : InstrumentId) : Decimal :=
  match c.position iid with
  | some pos => exposureOf c settle pos
  | none => 0

/-- The sum of the exposures when the position of one instrument is replaced. -/
theorem sum_exposureOf_upsertPosition (pos : Position) :
    ((positions (c.upsertPosition pos)).map (exposureOf (c.upsertPosition pos) settle)).sum
      = ((positions c).map (exposureOf c settle)).sum - exposureAt c settle pos.instrumentId
        + exposureOf c settle pos := by
  have htotal (c' : Cache) : ((positions c').map (exposureOf c settle)).sum
      = c'.positions.total (exposureOf c settle) := by
    rw [positions, List.map_map]
    rfl
  -- marks and instruments are those of the cache before
  change ((positions (c.upsertPosition pos)).map (exposureOf c settle)).sum = _
  rw [htotal, htotal, exposureAt, Cache.position]
  cases hold : c.positions.lookup pos.instrumentId with
  | none =>
    rw [Cache.upsertPosition, AList.total_insert_of_lookup_eq_none hold]
    ring
  | some old =>
    have hexchange : (c.positions.insert pos.instrumentId pos).total (exposureOf c settle)
        + exposureOf c settle old = c.positions.total (exposureOf c settle)
          + exposureOf c settle pos := AList.total_insert_of_lookup hold
    rw [Cache.upsertPosition]
    linarith

/-- The instrument is linear and settles in the currency. -/
structure LinearIn (settle : Currency) (inst : Instrument) : Prop where
  linear : inst.isInverse = false
  settlement : inst.settlementCurrency = settle

variable {inst : Instrument} {mark : Price} {pos : Position}

theorem exposureOf_of_linear (hin : LinearIn settle inst)
    (hinst : c.instrument pos.instrumentId = some inst)
    (hmark : c.mark pos.instrumentId = some mark) :
    exposureOf c settle pos = (toMoney settle
      (pos.quantity.asDecimal * mark.asDecimal * inst.multiplier.asDecimal)).amount := by
  have hcurrency := (currency_notional pos mark inst).trans hin.settlement
  simp only [exposureOf, hinst, hmark]
  rw [convertToSettle_of_currency hcurrency, Option.getD_some, notional_of_linear hin.linear,
    hin.settlement]

/-- Every position is in a linear instrument that settles in the currency, and has a mark. -/
def IsLinear (c : Cache) (settle : Currency) : Prop :=
  ∀ pos ∈ positions c, ∃ inst mark, c.instrument pos.instrumentId = some inst
    ∧ c.mark pos.instrumentId = some mark ∧ LinearIn settle inst

/-- The gross exposure of linear positions needs no rounding. -/
theorem amount_grossExposure (hexact : DecimalWidth.bound = none) (h : IsLinear c settle) :
    (grossExposure c settle).amount = ((positions c).map (exposureOf c settle)).sum := by
  rw [grossExposure, amount_toMoney (DecimalWidth.fits_of_exact hexact _)]
  refine Currency.rounded_of_onGrid (OnGrid.sum fun d hd ↦ ?_)
  obtain ⟨pos, hpos, rfl⟩ := List.mem_map.mp hd
  obtain ⟨inst, mark, hinst, hmark, hin⟩ := h pos hpos
  rw [exposureOf_of_linear hin hinst hmark]
  have hgrid := Money.onGrid_amount (toMoney settle
    (pos.quantity.asDecimal * mark.asDecimal * inst.multiplier.asDecimal))
  rwa [currency_toMoney] at hgrid

omit [DecimalWidth] in
theorem IsLinear.upsertPosition (h : IsLinear c settle)
    (hinst : c.instrument pos.instrumentId = some inst)
    (hmark : c.mark pos.instrumentId = some mark) (hin : LinearIn settle inst) :
    IsLinear (c.upsertPosition pos) settle := by
  intro p hp
  obtain ⟨e, he, rfl⟩ := List.mem_map.mp hp
  rw [Cache.upsertPosition, AList.entries_insert] at he
  rcases List.mem_cons.mp he with rfl | hold
  · exact ⟨inst, mark, hinst, hmark, hin⟩
  · exact h e.2 (List.mem_map_of_mem ((List.kerase_sublist _ _).subset hold))

end PortfolioState

/-! ## The margin gate -/

/-- The size of a position is that of its signed size; a flat position has none. -/
def Position.Sized (pos : Position) : Prop := pos.quantity.asDecimal = |pos.signed|

instance (pos : Position) : Decidable pos.Sized := inferInstanceAs (Decidable (_ = _))

section Sized

namespace Position

theorem sized_of_side_ne_flat {pos : Position} (h : pos.side ≠ .flat) : pos.Sized := by
  unfold Sized signed
  cases hside : pos.side with
  | long => exact (abs_of_nonneg pos.quantity.asDecimal_nonneg).symm
  | short => rw [abs_neg, abs_of_nonneg pos.quantity.asDecimal_nonneg]
  | flat => exact absurd hside h

variable [DecimalWidth] {inst : Instrument} {pos : Position}

/-- A fill that closes the position leaves no size: the size zero can always be held. -/
theorem Sized.applied (h : pos.Sized) (hfits : DecimalWidth.fits 0 = true)
    (hp : pos.sizePrecision ≤ maxPrecision) (f : Fill) : (pos.applied inst f).Sized := by
  rw [Position.applied, exec_applyFill]
  cases bookRealized pos.realizedPnl (pos.realized f inst) inst.settlementCurrency with
  | error e => exact h
  | ok pnl =>
    by_cases hflat : sideOf (pos.signed + f.signedQty) = .flat
    · have hzero : pos.signed + f.signedQty = 0 := by
        unfold sideOf at hflat
        split_ifs at hflat with hzero
        exact hzero
      have hqty : Quantity.fromDecimal |pos.signed + f.signedQty| pos.sizePrecision
          = .ok (Quantity.zero pos.sizePrecision) := by
        rw [hzero, abs_zero, Quantity.fromDecimal_eq_ok_iff]
        simp [hp, hfits, Quantity.zero, i64Max]
      have hresult (p : Position) (hquantity : p.quantity = Quantity.zero pos.sizePrecision)
          (hside : p.side = .flat) : p.Sized := by
        rw [Sized, signed, hside, hquantity, Quantity.asDecimal_zero, abs_zero]
      rw [hqty]
      cases quantizeAvg (sideOf (pos.signed + f.signedQty)) (pos.newAvg f) pos.pricePrecision <;>
        exact hresult _ rfl hflat
    · cases Quantity.fromDecimal |pos.signed + f.signedQty| pos.sizePrecision with
      | error e => exact sized_of_side_ne_flat hflat
      | ok q =>
        cases quantizeAvg (sideOf (pos.signed + f.signedQty)) (pos.newAvg f) pos.pricePrecision <;>
          exact sized_of_side_ne_flat hflat

end Position

end Sized

namespace RiskGate

variable [DecimalWidth] {c : Cache} {settle : Currency} {limits : RiskLimits} {killed : Bool}
  {order : Order} {inst : Instrument} {mark : Price} {lev : Decimal} {pos : Position}

omit [DecimalWidth] in
/-- What the margin gate lets an order add. -/
theorem added_le_of_checkMargin {portfolio : Portfolio} {cur delta : Decimal}
    (hlev : limits.leverage = some lev) (hpos : 0 < lev) (hadds : |cur| < |cur + delta|)
    (h : checkMargin limits portfolio inst (some mark) cur delta = none) :
    mark.asDecimal * (|cur + delta| - |cur|) * inst.multiplier.asDecimal
      ≤ lev * portfolio.equity.amount - portfolio.grossExposure.amount := by
  simp only [checkMargin, hlev] at h
  rw [if_pos ⟨hpos, sub_pos.mpr hadds⟩] at h
  split_ifs at h with hover
  rw [not_lt, div_le_iff₀ hpos, sub_mul, div_mul_cancel₀ _ hpos.ne'] at hover
  linarith

/-- What the position of an order's instrument counts for. -/
theorem exposureAt_of_linear (hexact : DecimalWidth.bound = none)
    (hin : PortfolioState.LinearIn settle inst)
    (hinst : c.instrument order.instrumentId = some inst)
    (hmark : c.mark order.instrumentId = some mark)
    (hkeyed : ∀ old, c.position order.instrumentId = some old →
      old.instrumentId = order.instrumentId ∧ old.Sized) :
    PortfolioState.exposureAt c settle order.instrumentId
      = settle.rounded (|signedPositionQty (PortfolioState.portfolio c settle) order|
        * mark.asDecimal * inst.multiplier.asDecimal) := by
  have hposition : (PortfolioState.portfolio c settle).position order.instrumentId
      = c.position order.instrumentId := rfl
  unfold PortfolioState.exposureAt signedPositionQty
  rw [hposition]
  cases hold : c.position order.instrumentId with
  | none =>
    simp only [abs_zero, zero_mul]
    exact (Currency.rounded_of_onGrid (.zero _)).symm
  | some old =>
    obtain ⟨hid, hsized⟩ := hkeyed old hold
    simp only
    rw [PortfolioState.exposureOf_of_linear hin (hid.symm ▸ hinst) (hid.symm ▸ hmark),
      amount_toMoney (DecimalWidth.fits_of_exact hexact _), hsized]

/-- **The margin gate is sound.** An order without a price that is approved and adds to the position
leaves the gross exposure within the equity times the leverage, up to one unit of the settlement
currency. -/
theorem gross_le_of_approved (hexact : DecimalWidth.bound = none)
    (hbook : PortfolioState.IsLinear c settle)
    (hkeyed : ∀ old, c.position order.instrumentId = some old →
      old.instrumentId = order.instrumentId ∧ old.Sized)
    (hin : PortfolioState.LinearIn settle inst)
    (hinst : c.instrument order.instrumentId = some inst)
    (hmark : c.mark order.instrumentId = some mark) (hmarket : order.price = none)
    (hlev : limits.leverage = some lev) (hpos : 0 < lev)
    (happroved : check c limits killed order (PortfolioState.portfolio c settle) inst = .approved)
    (hadds : |signedPositionQty (PortfolioState.portfolio c settle) order|
      < |signedPositionQty (PortfolioState.portfolio c settle) order
        + order.side.sign * order.quantity.asDecimal|)
    (hid : pos.instrumentId = order.instrumentId) (hsized' : pos.Sized)
    (hsigned : pos.signed = signedPositionQty (PortfolioState.portfolio c settle) order
      + order.side.sign * order.quantity.asDecimal) :
    (PortfolioState.grossExposure (c.upsertPosition pos) settle).amount
      ≤ lev * (PortfolioState.equity c settle).amount + ulp settle.precision := by
  obtain ⟨-, -, -, -, hmargin⟩ := check_eq_approved_iff.mp happroved
  rw [hmarket, Option.none_or, hmark] at hmargin
  have hadded := added_le_of_checkMargin hlev hpos hadds hmargin
  rw [← hsigned] at hadded
  -- the notionals before and after
  have hold : PortfolioState.exposureAt c settle order.instrumentId
      = settle.rounded (|signedPositionQty (PortfolioState.portfolio c settle) order|
        * mark.asDecimal * inst.multiplier.asDecimal) :=
    exposureAt_of_linear hexact hin hinst hmark hkeyed
  have hnew : PortfolioState.exposureOf c settle pos
      = settle.rounded (|pos.signed| * mark.asDecimal * inst.multiplier.asDecimal) := by
    rw [PortfolioState.exposureOf_of_linear hin (hid ▸ hinst) (hid ▸ hmark),
      amount_toMoney (DecimalWidth.fits_of_exact hexact _), hsized']
  have hround := settle.rounded_sub_rounded_le
    (|pos.signed| * mark.asDecimal * inst.multiplier.asDecimal)
    (|signedPositionQty (PortfolioState.portfolio c settle) order|
      * mark.asDecimal * inst.multiplier.asDecimal)
  have hgross : (PortfolioState.grossExposure (c.upsertPosition pos) settle).amount
      = (PortfolioState.grossExposure c settle).amount
        - PortfolioState.exposureAt c settle order.instrumentId
        + PortfolioState.exposureOf c settle pos := by
    rw [PortfolioState.amount_grossExposure hexact
        (hbook.upsertPosition (hid ▸ hinst) (hid ▸ hmark) hin),
      PortfolioState.amount_grossExposure hexact hbook,
      PortfolioState.sum_exposureOf_upsertPosition, hid]
  have hequity : (PortfolioState.portfolio c settle).equity = PortfolioState.equity c settle := rfl
  have hbefore : (PortfolioState.portfolio c settle).grossExposure
      = PortfolioState.grossExposure c settle := rfl
  rw [hequity, hbefore] at hadded
  rw [hgross, hold, hnew]
  linarith

/-! ## The exposure cap -/

/-- The notional the gate computes for an order at a price. -/
def orderNotional (order : Order) (inst : Instrument) (px : Price) : Decimal :=
  px.asDecimal * order.quantity.asDecimal * inst.multiplier.asDecimal

omit [DecimalWidth] in
/-- The gate compares this notional with the smallest one of the instrument and with the largest
one of an order. -/
theorem checkNotional_some (limits : RiskLimits) (order : Order) (inst : Instrument) (px : Price) :
    checkNotional limits order inst (some px)
      = if inst.minNotional.any fun min ↦ orderNotional order inst px < min.amount then
          some .minNotional
        else if limits.maxOrderNotional.any fun maxn ↦
            orderNotional order inst px > maxn.amount then
          some .maxOrderNotional
        else none := rfl

omit [DecimalWidth] in
/-- From flat, the notional that the margin gate takes as added is the same one. -/
theorem checkMargin_flat {portfolio : Portfolio} (hlev : limits.leverage = some lev)
    (hpos : 0 < lev) (horder : 0 < order.quantity.asDecimal) :
    checkMargin limits portfolio inst (some mark) 0
        (order.side.sign * order.quantity.asDecimal)
      = if orderNotional order inst mark / lev
          > portfolio.equity.amount - portfolio.grossExposure.amount / lev then
          some .insufficientMargin
        else none := by
  have hdelta : |(order.side.sign : Decimal) * order.quantity.asDecimal|
      = order.quantity.asDecimal := by
    rw [abs_mul, abs_of_pos horder]
    cases order.side <;> simp [OrderSide.sign]
  simp only [checkMargin, hlev, zero_add, abs_zero, sub_zero, hdelta]
  rw [if_pos ⟨hpos, horder⟩]
  rfl

/-- The order is denied before its exposure is looked at. -/
def DeniedBefore (killed : Bool) (order : Order) (inst : Instrument) (px : Price) : Prop :=
  killed = true ∨ ∃ min ∈ inst.minNotional, orderNotional order inst px < min.amount

/-- The gate with a cap on the exposure as its only limit. -/
theorem check_of_maxGrossExposure {cap : Money} {px : Price} (hcap : cap.currency = settle)
    (killed : Bool) (inst : Instrument)
    (hpx : order.price.or (c.mark order.instrumentId) = some px) :
    (DeniedBefore killed order inst px →
      ∃ reason, reason ≠ .maxGrossExposureExceeded
        ∧ check c { maxGrossExposure := some cap } killed order
          (PortfolioState.portfolio c settle) inst = .denied reason)
      ∧ (¬ DeniedBefore killed order inst px →
        check c { maxGrossExposure := some cap } killed order
          (PortfolioState.portfolio c settle) inst
          = if cap.amount < (PortfolioState.grossExposure c settle).amount then
              .denied .maxGrossExposureExceeded
            else .approved) := by
  have hcurrency : (PortfolioState.portfolio c settle).grossExposure.currency = cap.currency :=
    (currency_toMoney settle _).trans hcap.symm
  dsimp only [check]
  rw [hpx, checkNotional_some]
  cases killed with
  | true => exact ⟨fun _ ↦ ⟨_, by decide, rfl⟩, fun h ↦ absurd (.inl rfl) h⟩
  | false =>
    by_cases hmin : (inst.minNotional.any fun min ↦ orderNotional order inst px < min.amount) = true
    · obtain ⟨min, hmem, hlt⟩ := Option.any_eq_true _ _ |>.mp hmin
      simp only [Bool.false_eq_true, if_false, if_pos hmin]
      exact ⟨fun _ ↦ ⟨_, by decide, rfl⟩,
        fun h ↦ absurd (.inr ⟨min, hmem, of_decide_eq_true hlt⟩) h⟩
    · have hbefore : ¬ DeniedBefore false order inst px := by
        rintro (hkilled | ⟨min, hmem, hlt⟩)
        · cases hkilled
        · exact hmin (Option.any_eq_true _ _ |>.mpr ⟨min, hmem, decide_eq_true hlt⟩)
      refine ⟨fun h ↦ absurd h hbefore, fun _ ↦ ?_⟩
      simp only [Bool.false_eq_true, if_false, if_neg hmin, Option.any_none, Option.any_some,
        hcurrency, true_and, decide_eq_true_eq, gt_iff_lt]
      rfl

/-- The order filled completely at a price, without a fee. -/
def completeFill (order : Order) (inst : Instrument) (px : Price) : Fill where
  tradeId := ⟨order.clientOrderId.text⟩
  clientOrderId := order.clientOrderId
  venueOrderId := ⟨order.clientOrderId.text⟩
  instrumentId := order.instrumentId
  side := order.side
  lastPx := px
  lastQty := order.quantity
  fee := Money.zero inst.settlementCurrency
  liquidity := .taker
  tsEvent := order.tsLast
  tsInit := order.tsLast

/-- The gross exposure once the order has been filled completely. -/
def grossAfter (s : Oms) (settle : Currency) (order : Order) (inst : Instrument) (px : Price) :
    Decimal :=
  (PortfolioState.grossExposure
    (ExecutionEngine.foldPosition (completeFill order inst px) s).cache settle).amount

/-- The exposure cap does its work on an order: when the order is approved, the exposure after it is
filled is within the cap or no larger than it was; and an order that reduces the position is not
denied for it. -/
structure CapsExposure (s : Oms) (settle : Currency) (cap : Money) (killed : Bool) (order : Order)
    (inst : Instrument) (px : Price) : Prop where
  within : check s.cache { maxGrossExposure := some cap } killed order
      (PortfolioState.portfolio s.cache settle) inst = .approved →
    grossAfter s settle order inst px ≤ cap.amount
      ∨ grossAfter s settle order inst px ≤ (PortfolioState.grossExposure s.cache settle).amount
  reduces : |signedPositionQty (PortfolioState.portfolio s.cache settle) order
        + order.side.sign * order.quantity.asDecimal|
      < |signedPositionQty (PortfolioState.portfolio s.cache settle) order| →
    check s.cache { maxGrossExposure := some cap } killed order
      (PortfolioState.portfolio s.cache settle) inst ≠ .denied .maxGrossExposureExceeded

/-- **Exactly when the exposure cap does its work**: the order is denied before its exposure is
looked at; or the exposure is within the cap, and filling the order leaves it within the cap or does
not raise it; or the exposure is above the cap, and the order does not reduce the position. -/
theorem capsExposure_iff {s : Oms} {cap : Money} (hcap : cap.currency = settle) (killed : Bool)
    (inst : Instrument) (hmark : s.cache.mark order.instrumentId = some mark) :
    CapsExposure s settle cap killed order inst (order.price.getD mark)
      ↔ DeniedBefore killed order inst (order.price.getD mark)
        ∨ ((PortfolioState.grossExposure s.cache settle).amount ≤ cap.amount
          ∧ (grossAfter s settle order inst (order.price.getD mark) ≤ cap.amount
            ∨ grossAfter s settle order inst (order.price.getD mark)
              ≤ (PortfolioState.grossExposure s.cache settle).amount))
        ∨ (cap.amount < (PortfolioState.grossExposure s.cache settle).amount
          ∧ |signedPositionQty (PortfolioState.portfolio s.cache settle) order|
            ≤ |signedPositionQty (PortfolioState.portfolio s.cache settle) order
              + order.side.sign * order.quantity.asDecimal|) := by
  have hpx : order.price.or (s.cache.mark order.instrumentId) = some (order.price.getD mark) := by
    rw [hmark]
    cases order.price <;> rfl
  obtain ⟨hdenied, hpassed⟩ := check_of_maxGrossExposure hcap killed inst hpx
  by_cases hbefore : DeniedBefore killed order inst (order.price.getD mark)
  · obtain ⟨reason, hreason, hcheck⟩ := hdenied hbefore
    refine iff_of_true ⟨fun happroved ↦ ?_, fun _ hgate ↦ ?_⟩ (.inl hbefore)
    · rw [hcheck] at happroved
      cases happroved
    · rw [hcheck] at hgate
      exact hreason (RiskDecision.denied.inj hgate)
  · have hcheck := hpassed hbefore
    by_cases hover : cap.amount < (PortfolioState.grossExposure s.cache settle).amount
    · rw [if_pos hover] at hcheck
      constructor
      · intro h
        exact .inr (.inr ⟨hover, not_lt.mp fun hreduces ↦ h.reduces hreduces hcheck⟩)
      · rintro (h | ⟨hle, -⟩ | ⟨-, hkeeps⟩)
        · exact absurd h hbefore
        · exact absurd hover hle.not_gt
        · refine ⟨fun happroved ↦ ?_, fun hreduces ↦ absurd hreduces hkeeps.not_gt⟩
          rw [hcheck] at happroved
          cases happroved
    · rw [if_neg hover] at hcheck
      constructor
      · intro h
        exact .inr (.inl ⟨not_lt.mp hover, h.within hcheck⟩)
      · rintro (h | ⟨-, hafter⟩ | ⟨habove, -⟩)
        · exact absurd h hbefore
        · refine ⟨fun _ ↦ hafter, fun _ hgate ↦ ?_⟩
          rw [hcheck] at hgate
          cases hgate
        · exact absurd habove hover

/-! ## Two notionals -/

/-- What an inverse order is worth in coins at a mark: its face value over the mark, rounded. -/
def worthInCoins (order : Order) (inst : Instrument) (mark : Price) : Decimal :=
  (PortfolioState.toMoney inst.settlementCurrency
    (order.quantity.asDecimal * inst.multiplier.asDecimal / mark.asDecimal)).amount

/-- The portfolio can express the exposure of the instrument in its settlement currency. -/
def Expressible (settle : Currency) (inst : Instrument) : Prop :=
  inst.settlementCurrency = settle
    ∨ inst.isInverse = true ∧ inst.quoteCurrency = settle
      ∧ inst.settlementCurrency = inst.baseCurrency

theorem lt_abs_of_not_fits (hone : DecimalWidth.fits 1 = true) {d : Decimal} {p : ℕ}
    (hfits : ¬ DecimalWidth.fits (mantissa d p) = true) : ulp p < |d| := by
  have htwo : 2 ≤ (mantissa d p).natAbs := by
    by_contra hlt
    exact hfits (DecimalWidth.fits_mono (by omega) hone)
  have hbound := abs_mantissa_mul_ulp_sub d p
  have hraw : 2 * ulp p ≤ |(mantissa d p : ℚ) * ulp p| := by
    rw [abs_mul, abs_of_pos (ulp_pos p)]
    refine mul_le_mul_of_nonneg_right ?_ (ulp_pos p).le
    rw [← Int.cast_abs, Int.abs_eq_natAbs]
    exact_mod_cast htwo
  have htriangle := abs_sub_abs_le_abs_sub ((mantissa d p : ℚ) * ulp p) d
  linarith [ulp_pos p]

/-- **Exactly when the two notionals agree**, up to one unit: the instrument is linear and the
notional can be held; or it is inverse, and the mark times the face value of the order is what the
coins that the face value is worth come to in the portfolio. -/
theorem notional_agrees_iff (hone : DecimalWidth.fits 1 = true)
    (hinst : c.instrument pos.instrumentId = some inst)
    (hmark : c.mark pos.instrumentId = some mark) (hpos : 0 < mark.asDecimal)
    (hqty : pos.quantity = order.quantity) (hexpress : Expressible settle inst) :
    |orderNotional order inst mark - PortfolioState.exposureOf c settle pos| ≤ ulp settle.precision
      ↔ (inst.isInverse = false
          ∧ DecimalWidth.fits (mantissa (orderNotional order inst mark) settle.precision) = true)
        ∨ inst.isInverse = true
          ∧ |mark.asDecimal * (order.quantity.asDecimal * inst.multiplier.asDecimal)
            - worthInCoins order inst mark * (if inst.settlementCurrency = settle then 1
              else mark.asDecimal)| ≤ ulp settle.precision := by
  cases hinverse : inst.isInverse with
  | false =>
    have hsettle : inst.settlementCurrency = settle := by
      rcases hexpress with h | ⟨h, -⟩
      · exact h
      · rw [hinverse] at h
        cases h
    have hvalue : pos.quantity.asDecimal * mark.asDecimal * inst.multiplier.asDecimal
        = orderNotional order inst mark := by
      rw [hqty, orderNotional, mul_comm order.quantity.asDecimal]
    rw [PortfolioState.exposureOf_of_linear ⟨hinverse, hsettle⟩ hinst hmark, hvalue]
    simp only [true_and, Bool.false_eq_true, false_and, or_false]
    constructor
    · intro h
      by_contra hfits
      rw [amount_toMoney_of_not_fits hfits, sub_zero] at h
      exact (lt_abs_of_not_fits hone hfits).not_ge h
    · intro hfits
      rw [amount_toMoney hfits, abs_sub_comm]
      exact (settle.abs_rounded_sub _).trans (half_le_self (ulp_pos _).le)
  | true =>
    have hexposure : PortfolioState.exposureOf c settle pos = worthInCoins order inst mark
        * (if inst.settlementCurrency = settle then 1 else mark.asDecimal) := by
      have hcurrency := currency_notional pos mark inst
      have hamount : (pos.notional mark inst).amount = worthInCoins order inst mark := by
        rw [notional_of_inverse hinverse pos hpos, hqty]
        rfl
      simp only [PortfolioState.exposureOf, hinst, hmark]
      by_cases hsettle : inst.settlementCurrency = settle
      · rw [convertToSettle_of_currency (hcurrency.trans hsettle), if_pos hsettle, mul_one,
          Option.getD_some, hamount]
      · obtain ⟨-, hquote, hbase⟩ := hexpress.resolve_left hsettle
        rw [convertToSettle, if_neg (hcurrency ▸ hsettle),
          if_pos ⟨hinverse, hquote, hcurrency.trans hbase⟩, if_neg hsettle, Option.getD_some,
          hamount]
    simp only [Bool.true_eq_false, false_and, false_or, true_and]
    rw [hexposure, orderNotional, mul_assoc]

end RiskGate

/-! ## Instances -/

section Instances

open RiskGate

def dollars : Currency := ⟨"USDT", 2, two_le_maxPrecision⟩

/-- Contracts that were bought at one hundred. -/
def perpPosition (isInverse : Bool) (contracts : ℕ) : Position :=
  { Position.flat ⟨"P"⟩ (Position.perp isInverse).id 1 0
      (Position.perp isInverse).settlementCurrency with
    side := if contracts = 0 then .flat else .long
    quantity := ⟨contracts, 0⟩
    avgPxOpen := ⟨1000, 1⟩ }

/-- An account of one thousand with these contracts, at a mark of one hundred. -/
def perpOms (isInverse : Bool) (contracts : ℕ) : Oms where
  cache := (((Cache.new.addInstrument (Position.perp isInverse)).setMark
    (Position.perp isInverse).id ⟨1000, 1⟩).setAccount
    ((∅ : Map Currency Money).insert dollars ⟨100000, dollars⟩)).upsertPosition
      (perpPosition isInverse contracts)
  ledger := .new
  sim := .new

def perpOrder (side : OrderSide) (contracts : ℕ) : Order :=
  .new ⟨"S"⟩ ⟨"O"⟩ (Position.perp false).id side .market ⟨contracts, 0⟩ none none .ioc {} 0

theorem instrument_perpOms (isInverse : Bool) (contracts : ℕ) :
    (perpOms isInverse contracts).cache.instrument (Position.perp isInverse).id
      = some (Position.perp isInverse) := AList.lookup_insert _

theorem mark_perpOms (isInverse : Bool) (contracts : ℕ) :
    (perpOms isInverse contracts).cache.mark (Position.perp isInverse).id = some ⟨1000, 1⟩ :=
  AList.lookup_insert _

section Exact

open scoped ExactDecimal

/-- Three contracts are held, and five more pass at a leverage of two. -/
theorem gross_le_of_approved_five :
    (PortfolioState.grossExposure ((perpOms false 3).cache.upsertPosition (perpPosition false 8))
      dollars).amount
      ≤ 2 * (PortfolioState.equity (perpOms false 3).cache dollars).amount
        + ulp dollars.precision := by
  have hlinear : PortfolioState.LinearIn dollars (Position.perp false) := ⟨rfl, rfl⟩
  have hbook : PortfolioState.IsLinear (perpOms false 3).cache dollars := by
    intro pos hpos
    obtain rfl : pos = perpPosition false 3 := List.mem_singleton.mp hpos
    exact ⟨Position.perp false, ⟨1000, 1⟩, instrument_perpOms false 3, mark_perpOms false 3,
      hlinear⟩
  have hkeyed (old : Position)
      (hold : (perpOms false 3).cache.position (perpOrder .buy 5).instrumentId = some old) :
      old.instrumentId = (perpOrder .buy 5).instrumentId ∧ old.Sized := by
    obtain rfl : perpPosition false 3 = old := Option.some.inj hold
    exact ⟨rfl, by with_unfolding_all decide⟩
  have happroved : check (perpOms false 3).cache { leverage := some 2 } false (perpOrder .buy 5)
      (PortfolioState.portfolio (perpOms false 3).cache dollars) (Position.perp false)
      = .approved := by with_unfolding_all decide
  exact gross_le_of_approved rfl hbook hkeyed hlinear (instrument_perpOms false 3)
    (mark_perpOms false 3) rfl rfl (by decide) happroved (by with_unfolding_all decide) rfl
    (by with_unfolding_all decide) (by with_unfolding_all decide)

end Exact

section Rust

open scoped RustDecimal

/-- Two contracts leave the exposure within a cap of five hundred. -/
theorem capsExposure_iff_two :
    CapsExposure (perpOms false 3) dollars ⟨50000, dollars⟩ false (perpOrder .buy 2)
      (Position.perp false) ⟨1000, 1⟩ := by
  have hmark : (perpOms false 3).cache.mark (perpOrder .buy 2).instrumentId = some ⟨1000, 1⟩ :=
    mark_perpOms false 3
  have hcap : (⟨50000, dollars⟩ : Money).currency = dollars := rfl
  exact (capsExposure_iff hcap false (Position.perp false) hmark).mpr
    (.inr (.inl (by with_unfolding_all decide)))

/-- An order that takes the exposure past the cap is approved, and one that reduces an exposure
above the cap is denied. -/
theorem not_capsExposure_of_jump :
    ¬ CapsExposure (perpOms false 3) dollars ⟨50000, dollars⟩ false (perpOrder .buy 9)
        (Position.perp false) ⟨1000, 1⟩
      ∧ ¬ CapsExposure (perpOms false 8) dollars ⟨50000, dollars⟩ false (perpOrder .sell 2)
        (Position.perp false) ⟨1000, 1⟩ := by
  constructor
  · intro h
    exact absurd (h.within (by with_unfolding_all decide)) (by with_unfolding_all decide)
  · intro h
    exact h.reduces (by with_unfolding_all decide) (by with_unfolding_all decide)

/-- The two notionals of a linear order agree. -/
theorem notional_agrees_iff_linear :
    |orderNotional (perpOrder .buy 3) (Position.perp false) ⟨1000, 1⟩
      - PortfolioState.exposureOf (perpOms false 3).cache dollars (perpPosition false 3)|
      ≤ ulp dollars.precision := by
  have hqty : (perpPosition false 3).quantity = (perpOrder .buy 3).quantity := rfl
  exact (notional_agrees_iff (by decide) (instrument_perpOms false 3)
    (mark_perpOms false 3) (by with_unfolding_all decide) hqty (.inl rfl)).mpr
    (.inl (by with_unfolding_all decide))

/-- Three inverse contracts of one dollar each: the gate takes them for three hundred dollars. -/
theorem notional_differs_of_inverse :
    Expressible dollars (Position.perp true)
      ∧ ¬ |orderNotional (perpOrder .buy 3) (Position.perp true) ⟨1000, 1⟩
        - PortfolioState.exposureOf (perpOms true 3).cache dollars (perpPosition true 3)|
        ≤ ulp dollars.precision
      ∧ orderNotional (perpOrder .buy 3) (Position.perp true) ⟨1000, 1⟩ = 300
      ∧ PortfolioState.exposureOf (perpOms true 3).cache dollars (perpPosition true 3) = 3 :=
  ⟨.inr ⟨rfl, rfl, rfl⟩, by with_unfolding_all decide⟩

end Rust

end Instances

end Coinext
