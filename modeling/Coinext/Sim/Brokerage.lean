import Coinext.Model.Order

/-!
# Venue economics

The `BrokerageModel` trait as the record of its methods, and the default model. Implementations are
pure: the simulator asks them for a price, a quantity, a fee or a latency and nothing else.
-/

namespace Coinext

inductive CommandKind where
  | submit | cancel | modify
deriving DecidableEq

structure BrokerageModel where
  latencyNs : CommandKind → ℕ
  /-- Realized price of a marketable order, from a reference price and the bar's `(low, high)`. -/
  fillPrice : Order → Price → Option (Price × Price) → Instrument → Price
  /-- How much of what is left may fill against this event's volume. -/
  fillableQty : Quantity → Quantity → Instrument → Quantity
  /-- Volume resting ahead of a freshly placed limit order. -/
  initialQueueAhead : Quantity → Instrument → Quantity
  fee : Order → Price → Quantity → LiquiditySide → Instrument → Money

/-- What the trait asks of `fillableQty`: it never over-fills, and it keeps the precision. -/
def BrokerageModel.NeverOverfills (m : BrokerageModel) : Prop :=
  ∀ leaves volume inst, (m.fillableQty leaves volume inst).precision = leaves.precision ∧
    (m.fillableQty leaves volume inst).raw ≤ leaves.raw

/-! ## The default model -/

structure DefaultBrokerageModel where
  slippageBps : Decimal := 1
  rangeImpact : Decimal := 1 / 10
  participationRate : Decimal := 25 / 100
  queueAheadFactor : Decimal := 0
  latencyNs : ℕ := 1000000

/-- Round towards zero to `p` decimal places. -/
def roundToZero (d : Decimal) (p : ℕ) : Decimal :=
  let scaled := d * 10 ^ p
  (if 0 ≤ scaled then (⌊scaled⌋ : ℤ) else ⌈scaled⌉) * ulp p

namespace DefaultBrokerageModel

variable [DecimalWidth] (m : DefaultBrokerageModel)

def fillPrice (order : Order) (refPx : Price) (barRange : Option (Price × Price))
    (inst : Instrument) : Price :=
  let refD := refPx.asDecimal
  let baseSlip := refD * m.slippageBps / 10000
  let realRange := barRange.filter fun r ↦ r.2.asDecimal > r.1.asDecimal
  let rangeSlip := match realRange with
    | some (lo, hi) => (hi.asDecimal - lo.asDecimal) * m.rangeImpact
    | none => 0
  let adjusted := match order.side with
    | .buy =>
      let base := refD + baseSlip
      let full := base + rangeSlip
      match realRange with
      | some (_, hi) => max (min full hi.asDecimal) base
      | none => full
    | .sell =>
      let base := refD - baseSlip
      let full := base - rangeSlip
      match realRange with
      | some (lo, _) => min (max full lo.asDecimal) base
      | none => full
  match inst.makePrice adjusted with
  | .ok p => p
  | .error _ => refPx

def fillableQty (leaves barVolume : Quantity) (inst : Instrument) : Quantity :=
  if m.participationRate ≤ 0 ∨ barVolume.asDecimal ≤ 0 then leaves
  else
    let prec := leaves.precision
    let floored := roundToZero (m.participationRate * barVolume.asDecimal) prec
    let oneLot := inst.sizeIncrement.asDecimal
    let fillable := min (max floored oneLot) leaves.asDecimal
    match Quantity.fromDecimal fillable prec with
    | .ok q => q
    | .error _ => leaves

def initialQueueAhead (barVolume : Quantity) (_inst : Instrument) : Quantity :=
  let prec := barVolume.precision
  if m.queueAheadFactor ≤ 0 then Quantity.zero prec
  else match Quantity.fromDecimal (roundToZero (m.queueAheadFactor * barVolume.asDecimal) prec)
      prec with
    | .ok q => q
    | .error _ => Quantity.zero prec

def fee (_order : Order) (fillPx : Price) (fillQty : Quantity) (liquidity : LiquiditySide)
    (inst : Instrument) : Money :=
  let rate := match liquidity with
    | .maker => inst.makerFee
    | .taker => inst.takerFee
  let px := fillPx.asDecimal
  let mult := inst.multiplier.asDecimal
  let qty := fillQty.asDecimal
  let notional :=
    if inst.isInverse then (if px = 0 then 0 else qty * mult / px) else px * qty * mult
  match Money.fromDecimal (notional * rate) inst.settlementCurrency with
  | .ok money => money
  | .error _ => Money.zero inst.settlementCurrency

/-- The default model as a `BrokerageModel`. -/
def brokerage : BrokerageModel where
  latencyNs _ := m.latencyNs
  fillPrice := m.fillPrice
  fillableQty := m.fillableQty
  initialQueueAhead := m.initialQueueAhead
  fee := fee

theorem neverOverfills : m.brokerage.NeverOverfills := by
  intro leaves volume inst
  simp only [brokerage, fillableQty]
  split_ifs with hcap
  · exact ⟨rfl, le_rfl⟩
  · cases hq : Quantity.fromDecimal (min (max (roundToZero (m.participationRate * volume.asDecimal)
        leaves.precision) inst.sizeIncrement.asDecimal) leaves.asDecimal) leaves.precision with
    | error e => exact ⟨rfl, le_rfl⟩
    | ok q =>
      obtain ⟨-, -, -, -, rfl⟩ := Quantity.fromDecimal_eq_ok_iff.mp hq
      refine ⟨rfl, ?_⟩
      have hle : mantissa (min (max (roundToZero (m.participationRate * volume.asDecimal)
          leaves.precision) inst.sizeIncrement.asDecimal) leaves.asDecimal) leaves.precision
          ≤ leaves.raw :=
        mantissa_le (min_le_right _ _)
      change Int.toNat _ ≤ leaves.raw
      omega

/-- Rounding to the precision of the instrument does not undo adverse slippage. -/
theorem asDecimal_makePrice_mono {inst : Instrument} {refPx p : Price} {d : Decimal}
    (hprec : refPx.precision = inst.pricePrecision) (h : inst.makePrice d = .ok p) :
    (refPx.asDecimal ≤ d → refPx.asDecimal ≤ p.asDecimal)
      ∧ (d ≤ refPx.asDecimal → p.asDecimal ≤ refPx.asDecimal) := by
  obtain ⟨-, -, -, -, rfl⟩ := Price.fromDecimal_eq_ok_iff.mp h
  rw [Price.asDecimal, hprec]
  refine ⟨fun hle ↦ ?_, fun hle ↦ ?_⟩
  · exact mul_le_mul_of_nonneg_right (by exact_mod_cast le_mantissa hle) (ulp_pos _).le
  · exact mul_le_mul_of_nonneg_right (by exact_mod_cast mantissa_le hle) (ulp_pos _).le

/-- **Slippage is adverse.** A buy pays at least the reference price, and a sell gets at most
that. -/
theorem adverse_fillPrice (hslip : 0 ≤ m.slippageBps) {refPx : Price} {inst : Instrument}
    (href : 0 ≤ refPx.raw) (hprec : refPx.precision = inst.pricePrecision) (order : Order)
    (barRange : Option (Price × Price)) :
    (order.side = .buy →
      refPx.asDecimal ≤ (m.fillPrice order refPx barRange inst).asDecimal)
      ∧ (order.side = .sell →
        (m.fillPrice order refPx barRange inst).asDecimal ≤ refPx.asDecimal) := by
  have hbase : 0 ≤ refPx.asDecimal * m.slippageBps / 10000 :=
    div_nonneg (mul_nonneg (Price.asDecimal_nonneg href) hslip) (by norm_num)
  refine ⟨fun hside ↦ ?_, fun hside ↦ ?_⟩
  · simp only [fillPrice, hside]
    split
    · rename_i p hp
      refine (asDecimal_makePrice_mono hprec hp).1 ?_
      split
      · exact (le_add_of_nonneg_right hbase).trans (le_max_right _ _)
      · linarith
    · exact le_rfl
  · simp only [fillPrice, hside]
    split
    · rename_i p hp
      refine (asDecimal_makePrice_mono hprec hp).2 ?_
      split
      · exact (min_le_right _ _).trans (sub_le_self _ hbase)
      · linarith
    · exact le_rfl

end DefaultBrokerageModel

end Coinext
