import Coinext.Sim.Session

/-!
# How far slippage can go

The default model moves the reference price against the taker: by a part of the price itself, and by
a part of the bar's range that stops at the extreme of the bar. What comes out is rounded to the
precision of the instrument, and replaced by the reference price if it is no price. Rounding is
monotone and leaves prices alone, so none of this takes the fill to the good side of the reference,
or beyond both the extreme of the bar and the rounded base slippage (`slippage_bounded`).
-/

namespace Coinext

/-- A decimal as the quantization at `p` decimal places rounds it. -/
def rounded (d : Decimal) (p : ℕ) : Decimal := mantissa d p * ulp p

theorem rounded_le_rounded {d e : Decimal} (h : d ≤ e) (p : ℕ) : rounded d p ≤ rounded e p :=
  mul_le_mul_of_nonneg_right (Int.cast_le.mpr (mantissa_mono p h)) (ulp_pos p).le

theorem monotone_rounded (p : ℕ) : Monotone fun d ↦ rounded d p :=
  fun _ _ h ↦ rounded_le_rounded h p

theorem Price.rounded_asDecimal {px : Price} {p : ℕ} (h : px.precision = p) :
    rounded px.asDecimal p = px.asDecimal := by
  subst h
  exact px.onGrid_asDecimal

/-- Rounding is monotone, so it commutes with the larger of two numbers: a price that stops at `px`
is rounded to `px` at most, or to what its lower bound is rounded to. -/
theorem rounded_clamp_le {px : Price} {p : ℕ} (h : px.precision = p) (d e : Decimal) :
    rounded (max (min d px.asDecimal) e) p ≤ max px.asDecimal (rounded e p) :=
  calc rounded (max (min d px.asDecimal) e) p
      = max (rounded (min d px.asDecimal) p) (rounded e p) := (monotone_rounded p).map_max
    _ ≤ max (rounded px.asDecimal p) (rounded e p) :=
        max_le_max_right _ (rounded_le_rounded (min_le_right _ _) p)
    _ = max px.asDecimal (rounded e p) := by rw [Price.rounded_asDecimal h]

theorem le_rounded_clamp {px : Price} {p : ℕ} (h : px.precision = p) (d e : Decimal) :
    min px.asDecimal (rounded e p) ≤ rounded (min (max d px.asDecimal) e) p :=
  calc min px.asDecimal (rounded e p)
      = min (rounded px.asDecimal p) (rounded e p) := by rw [Price.rounded_asDecimal h]
    _ ≤ min (rounded (max d px.asDecimal) p) (rounded e p) :=
        min_le_min_right _ (rounded_le_rounded (le_max_right _ _) p)
    _ = rounded (min (max d px.asDecimal) e) p := (monotone_rounded p).map_min.symm

namespace DefaultBrokerageModel

variable [DecimalWidth] (m : DefaultBrokerageModel)

/-- What the model adds to the price of a buy, or takes from that of a sell, whatever the bar. -/
def baseSlippage (refPx : Price) : Decimal := refPx.asDecimal * m.slippageBps / 10000

/-- The price after the base slippage. -/
def basePrice (side : OrderSide) (refPx : Price) : Decimal :=
  match side with
  | .buy => refPx.asDecimal + m.baseSlippage refPx
  | .sell => refPx.asDecimal - m.baseSlippage refPx

/-- The worst price for a side: the extreme of the bar or the rounded price after the base slippage,
whichever is worse. -/
def worstPrice (side : OrderSide) (refPx : Price) (barRange : Option (Price × Price))
    (inst : Instrument) : Decimal :=
  let base := rounded (m.basePrice side refPx) inst.pricePrecision
  match side, barRange with
  | .buy, some (_, hi) => max hi.asDecimal base
  | .sell, some (lo, _) => min lo.asDecimal base
  | _, none => base

variable {refPx : Price} {inst : Instrument} {barRange : Option (Price × Price)}

omit [DecimalWidth] in
theorem baseSlippage_nonneg (hslip : 0 ≤ m.slippageBps) (href : 0 ≤ refPx.raw) :
    0 ≤ m.baseSlippage refPx :=
  div_nonneg (mul_nonneg (Price.asDecimal_nonneg href) hslip) (by norm_num)

/-- **A buy** pays no more than the worst price. -/
theorem fillPrice_le_worstPrice (hslip : 0 ≤ m.slippageBps) (href : 0 ≤ refPx.raw)
    (hprec : refPx.precision = inst.pricePrecision)
    (hrange : ∀ lo hi, barRange = some (lo, hi) → hi.precision = inst.pricePrecision)
    {order : Order} (hside : order.side = .buy) :
    (m.fillPrice order refPx barRange inst).asDecimal ≤ m.worstPrice .buy refPx barRange inst := by
  have hbase : m.basePrice .buy refPx = refPx.asDecimal + refPx.asDecimal * m.slippageBps / 10000 :=
    rfl
  have hworst : rounded (m.basePrice .buy refPx) inst.pricePrecision
      ≤ m.worstPrice .buy refPx barRange inst := by
    rcases barRange with _ | ⟨lo, hi⟩
    · exact le_rfl
    · exact le_max_right _ _
  simp only [fillPrice, hside, ← hbase]
  split
  · rename_i px hpx
    obtain ⟨-, -, -, -, rfl⟩ := Price.fromDecimal_eq_ok_iff.mp hpx
    rcases barRange with _ | ⟨lo, hi⟩
    · simp only [Option.filter_none, add_zero]
      exact le_rfl
    · by_cases hreal : hi.asDecimal > lo.asDecimal
      · simp only [Option.filter_some, hreal, decide_true, if_true]
        exact rounded_clamp_le (hrange lo hi rfl) (m.basePrice .buy refPx
          + (hi.asDecimal - lo.asDecimal) * m.rangeImpact) (m.basePrice .buy refPx)
      · simp only [Option.filter_some, hreal, decide_false, Bool.false_eq_true, if_false, add_zero]
        exact hworst
  · refine le_trans ?_ hworst
    rw [← Price.rounded_asDecimal hprec]
    exact rounded_le_rounded (le_add_of_nonneg_right (m.baseSlippage_nonneg hslip href)) _

/-- **A sell** gets no less than the worst price. -/
theorem worstPrice_le_fillPrice (hslip : 0 ≤ m.slippageBps) (href : 0 ≤ refPx.raw)
    (hprec : refPx.precision = inst.pricePrecision)
    (hrange : ∀ lo hi, barRange = some (lo, hi) → lo.precision = inst.pricePrecision)
    {order : Order} (hside : order.side = .sell) :
    m.worstPrice .sell refPx barRange inst
      ≤ (m.fillPrice order refPx barRange inst).asDecimal := by
  have hbase : m.basePrice .sell refPx
      = refPx.asDecimal - refPx.asDecimal * m.slippageBps / 10000 := rfl
  have hworst : m.worstPrice .sell refPx barRange inst
      ≤ rounded (m.basePrice .sell refPx) inst.pricePrecision := by
    rcases barRange with _ | ⟨lo, hi⟩
    · exact le_rfl
    · exact min_le_right _ _
  simp only [fillPrice, hside, ← hbase]
  split
  · rename_i px hpx
    obtain ⟨-, -, -, -, rfl⟩ := Price.fromDecimal_eq_ok_iff.mp hpx
    rcases barRange with _ | ⟨lo, hi⟩
    · simp only [Option.filter_none, sub_zero]
      exact le_rfl
    · by_cases hreal : hi.asDecimal > lo.asDecimal
      · simp only [Option.filter_some, hreal, decide_true, if_true]
        exact le_rounded_clamp (hrange lo hi rfl) (m.basePrice .sell refPx
          - (hi.asDecimal - lo.asDecimal) * m.rangeImpact) (m.basePrice .sell refPx)
      · simp only [Option.filter_some, hreal, decide_false, Bool.false_eq_true, if_false, sub_zero]
        exact hworst
  · refine hworst.trans ?_
    rw [← Price.rounded_asDecimal hprec]
    exact rounded_le_rounded (sub_le_self _ (m.baseSlippage_nonneg hslip href)) _

variable (refPx) in
/-- **Slippage is adverse and bounded.** -/
theorem slippage_bounded (hslip : 0 ≤ m.slippageBps) (href : 0 ≤ refPx.raw)
    (hprec : refPx.precision = inst.pricePrecision)
    (hrange : ∀ lo hi, barRange = some (lo, hi) →
      lo.precision = inst.pricePrecision ∧ hi.precision = inst.pricePrecision) (order : Order) :
    match order.side with
    | .buy => refPx.asDecimal ≤ (m.fillPrice order refPx barRange inst).asDecimal ∧
        (m.fillPrice order refPx barRange inst).asDecimal ≤ m.worstPrice .buy refPx barRange inst
    | .sell => m.worstPrice .sell refPx barRange inst
          ≤ (m.fillPrice order refPx barRange inst).asDecimal ∧
        (m.fillPrice order refPx barRange inst).asDecimal ≤ refPx.asDecimal := by
  obtain ⟨hbuy, hsell⟩ := m.adverse_fillPrice hslip href hprec order barRange
  cases hside : order.side with
  | buy =>
    exact ⟨hbuy hside, m.fillPrice_le_worstPrice hslip href hprec
      (fun lo hi h ↦ (hrange lo hi h).2) hside⟩
  | sell =>
    exact ⟨m.worstPrice_le_fillPrice hslip href hprec (fun lo hi h ↦ (hrange lo hi h).1) hside,
      hsell hside⟩

end DefaultBrokerageModel

/-! ## Instances -/

namespace DefaultBrokerageModel

section Instances

open scoped RustDecimal

/-- A buy at the high of its bar pays the base slippage beyond it, rounded. -/
theorem slippage_bounded_atHigh :
    let order := VenueSession.perpOrder "a" .buy .market 1 none none
    let px := ({} : DefaultBrokerageModel).fillPrice order ⟨510000, 1⟩
      (some (⟨490000, 1⟩, ⟨510000, 1⟩)) (Position.perp false)
    (⟨510000, 1⟩ : Price).asDecimal ≤ px.asDecimal ∧
      px.asDecimal ≤ ({} : DefaultBrokerageModel).worstPrice .buy ⟨510000, 1⟩
        (some (⟨490000, 1⟩, ⟨510000, 1⟩)) (Position.perp false) ∧ px = ⟨510051, 1⟩ := by
  have hrange : ∀ lo hi : Price, some ((⟨490000, 1⟩ : Price), (⟨510000, 1⟩ : Price))
      = some (lo, hi) → lo.precision = (Position.perp false).pricePrecision ∧
        hi.precision = (Position.perp false).pricePrecision := by
    intro lo hi h
    cases h
    exact ⟨rfl, rfl⟩
  obtain ⟨hadverse, hbounded⟩ := slippage_bounded ({} : DefaultBrokerageModel)
    ⟨510000, 1⟩ (by decide) (by decide) rfl hrange
    (VenueSession.perpOrder "a" .buy .market 1 none none)
  exact ⟨hadverse, hbounded, by decide +kernel⟩

end Instances

end DefaultBrokerageModel

end Coinext
