import Coinext.Model.Position
import Coinext.Support.Run
import Mathlib.Algebra.BigOperators.Ring.List
import Mathlib.Tactic.FieldSimp
import Mathlib.Tactic.LinearCombination

/-!
# Profit along a sequence of fills

Both contract families pay `mult * (payoff exit - payoff entry)` per unit: the payoff of a linear
contract is the price, that of an inverse one is minus its reciprocal. The ideal profit of a
sequence of fills marked at `M` is then `mult * (Q * payoff M - ∑ sᵢ qᵢ payoff pᵢ)`.

The quantity to follow is the `residual`, what the position has realized less what its average
entry says it paid. A fill that opens, reduces, closes or flips a position moves the residual by
exactly its ideal share, up to the rounding of the booked money (`residual_step`). Only a fill that
adds to a position can do otherwise, because it replaces the average: by the quantization of the
average for a linear contract, and by the choice of an arithmetic mean where the payoff needs a
harmonic one for an inverse contract.
-/

namespace Coinext

namespace Position

/-! ## Payoffs -/

/-- What one unit pays at a price, up to a constant. -/
def payoff (inst : Instrument) (px : Decimal) : Decimal :=
  if inst.isInverse then -(1 / px) else px

theorem pnlPerQty_eq (inst : Instrument) {entry : Decimal} (hentry : entry ≠ 0)
    (exit mult : Decimal) :
    pnlPerQty inst.isInverse entry exit mult = mult * (payoff inst exit - payoff inst entry) := by
  unfold pnlPerQty payoff
  rw [if_neg hentry]
  split_ifs <;> ring

/-- The realized profit less the payoff the open size was entered at. -/
def residual (inst : Instrument) (pos : Position) : Decimal :=
  pos.realizedPnl.amount
    - inst.multiplier.asDecimal * (pos.signed * payoff inst pos.avgPxOpen.asDecimal)

/-- What a fill ideally adds to the residual. -/
def idealMove (inst : Instrument) (f : Fill) : Decimal :=
  -(inst.multiplier.asDecimal * (f.signedQty * payoff inst f.lastPx.asDecimal)) - f.fee.amount

/-- A fill the instrument can produce: positive price on its tick grid, size on its size grid, and
a fee that is either zero or in the settlement currency. -/
structure FillFits (inst : Instrument) (f : Fill) : Prop where
  px_pos : 0 < f.lastPx.asDecimal
  px_grid : OnGrid f.lastPx.asDecimal inst.pricePrecision
  qty_grid : OnGrid f.lastQty.asDecimal inst.sizePrecision
  fee : f.fee.currency = inst.settlementCurrency ∨ f.fee.raw = 0

/-- An open position has a positive average entry. -/
def Priced (pos : Position) : Prop := pos.signed ≠ 0 → 0 < pos.avgPxOpen.raw

/-! ## One fill -/

theorem abs_signedQty (f : Fill) : |f.signedQty| = f.lastQty.asDecimal := by
  unfold Fill.signedQty OrderSide.sign
  cases f.side with
  | buy => simp [abs_of_nonneg f.lastQty.asDecimal_nonneg]
  | sell => simp [abs_of_nonneg f.lastQty.asDecimal_nonneg]

/-- A fill that trades against the position has the opposite sign, or no size. -/
theorem sign_of_opposes {pos : Position} {f : Fill} (h : pos.meeting f = .opposes) :
    pos.signed ≠ 0 ∧
      (if pos.signed > 0 then (1 : ℚ) else -1) * f.lastQty.asDecimal = -f.signedQty ∧
      (if pos.signed > 0 then (1 : ℚ) else -1) * |pos.signed| = pos.signed := by
  unfold meeting at h
  split_ifs at h with h0 hdir
  refine ⟨h0, ?_, ?_⟩
  · rw [← abs_signedQty]
    split_ifs with hpos
    · have hneg : f.signedQty ≤ 0 := by
        by_contra hlt
        simp [hpos, not_le.mp hlt] at hdir
      rw [abs_of_nonpos hneg, one_mul]
    · have hfill : 0 < f.signedQty := by
        by_contra hle
        simp [hpos, hle] at hdir
      rw [abs_of_pos hfill, neg_one_mul]
  · split_ifs with hpos
    · rw [abs_of_pos hpos, one_mul]
    · rw [abs_of_nonpos (not_lt.mp hpos)]
      ring

theorem sign_of_adds {pos : Position} {f : Fill} (h : pos.meeting f = .adds) :
    pos.signed ≠ 0 ∧ ∃ dir : ℚ, |dir| = 1 ∧ pos.signed = dir * |pos.signed| ∧
      f.signedQty = dir * f.lastQty.asDecimal := by
  unfold meeting at h
  split_ifs at h with h0 hdir
  refine ⟨h0, ?_⟩
  rcases lt_or_gt_of_ne h0 with hneg | hpos
  · refine ⟨-1, by simp, by rw [abs_of_neg hneg]; ring, ?_⟩
    have hfill : f.signedQty ≤ 0 := by
      by_contra hlt
      simp [not_lt.mpr hneg.le, not_le.mp hlt] at hdir
    rw [← abs_signedQty, abs_of_nonpos hfill]
    ring
  · refine ⟨1, by simp, by rw [abs_of_pos hpos]; ring, ?_⟩
    have hfill : 0 < f.signedQty := by
      by_contra hle
      simp [hpos, hle] at hdir
    rw [← abs_signedQty, abs_of_pos hfill]
    ring

section Average

variable {pos : Position} {f : Fill} {b : Decimal}

theorem pos_denom (hmeet : pos.meeting f = .adds) : 0 < |pos.signed| + f.lastQty.asDecimal :=
  add_pos_of_pos_of_nonneg (abs_pos.mpr (sign_of_adds hmeet).1) f.lastQty.asDecimal_nonneg

theorem newAvg_of_adds (hmeet : pos.meeting f = .adds) :
    pos.newAvg f = (pos.avgPxOpen.asDecimal * |pos.signed|
      + f.lastPx.asDecimal * f.lastQty.asDecimal) / (|pos.signed| + f.lastQty.asDecimal) := by
  rw [newAvg, hmeet]
  exact if_neg (pos_denom hmeet).ne'

theorem le_newAvg_of_adds (hmeet : pos.meeting f = .adds) (havg : b ≤ pos.avgPxOpen.asDecimal)
    (hpx : b ≤ f.lastPx.asDecimal) : b ≤ pos.newAvg f := by
  rw [newAvg_of_adds hmeet, le_div_iff₀ (pos_denom hmeet), mul_add]
  exact add_le_add (mul_le_mul_of_nonneg_right havg (abs_nonneg _))
    (mul_le_mul_of_nonneg_right hpx f.lastQty.asDecimal_nonneg)

theorem newAvg_le_of_adds (hmeet : pos.meeting f = .adds) (havg : pos.avgPxOpen.asDecimal ≤ b)
    (hpx : f.lastPx.asDecimal ≤ b) : pos.newAvg f ≤ b := by
  rw [newAvg_of_adds hmeet, div_le_iff₀ (pos_denom hmeet), mul_add]
  exact add_le_add (mul_le_mul_of_nonneg_right havg (abs_nonneg _))
    (mul_le_mul_of_nonneg_right hpx f.lastQty.asDecimal_nonneg)

end Average

section Step

variable {inst : Instrument} {pos pos' : Position} {f : Fill}

theorem realized_eq (h : FillFits inst f) :
    pos.realized f inst = pos.tradePnl f inst - f.fee.amount := by
  unfold realized
  split_ifs with hcur
  · rfl
  · rw [Money.amount, h.fee.resolve_left hcur]
    simp

theorem onGrid_fee (h : FillFits inst f) :
    OnGrid f.fee.amount inst.settlementCurrency.precision := by
  rcases h.fee with hcur | hzero
  · rw [← hcur]
    exact f.fee.onGrid_amount
  · rw [Money.amount, hzero]
    simpa using OnGrid.zero _

/-- The part of a fill's move that is not the rounding of money. -/
def avgSlip (inst : Instrument) (pos : Position) (f : Fill) (pos' : Position) : Decimal :=
  pos.tradePnl f inst + inst.multiplier.asDecimal *
    (pos.signed * payoff inst pos.avgPxOpen.asDecimal + f.signedQty * payoff inst f.lastPx.asDecimal
      - pos'.signed * payoff inst pos'.avgPxOpen.asDecimal)

theorem residual_sub (inst : Instrument) (pos pos' : Position) (f : Fill) :
    residual inst pos' - residual inst pos - idealMove inst f =
      (pos'.realizedPnl.amount - pos.realizedPnl.amount - (pos.tradePnl f inst - f.fee.amount))
        + avgSlip inst pos f pos' := by
  unfold residual idealMove avgSlip
  ring

theorem tradePnl_of_adds (hmeet : pos.meeting f = .adds) : pos.tradePnl f inst = 0 := by
  rw [tradePnl, hmeet]

theorem signed_mul_newAvg (hmeet : pos.meeting f = .adds) :
    (pos.signed + f.signedQty) * pos.newAvg f =
      pos.signed * pos.avgPxOpen.asDecimal + f.signedQty * f.lastPx.asDecimal := by
  obtain ⟨-, dir, -, hpos, hfill⟩ := sign_of_adds hmeet
  have hdenom := (pos_denom hmeet).ne'
  rw [newAvg_of_adds hmeet, hfill]
  nth_rewrite 1 [hpos]
  rw [← mul_add, mul_div_assoc', mul_assoc, mul_div_assoc, mul_div_cancel_left₀ _ hdenom]
  linear_combination (-pos.avgPxOpen.asDecimal) * hpos

theorem ulp_le_newAvg (hwf : WellFormed inst pos) (hpriced : Priced pos) (hfits : FillFits inst f) :
    ulp inst.pricePrecision ≤ pos.newAvg f := by
  have hpx : ulp inst.pricePrecision ≤ f.lastPx.asDecimal :=
    hfits.px_grid.ulp_le hfits.px_pos
  have hopen : pos.signed ≠ 0 → ulp inst.pricePrecision ≤ pos.avgPxOpen.asDecimal := fun h0 ↦
    (hwf.avgPxOpen ▸ pos.avgPxOpen.onGrid_asDecimal).ulp_le (Price.asDecimal_pos.mpr (hpriced h0))
  cases hmeet : pos.meeting f with
  | opens =>
    rw [newAvg, hmeet]
    exact hpx
  | adds => exact le_newAvg_of_adds hmeet (hopen (sign_of_adds hmeet).1) hpx
  | opposes =>
    rw [newAvg, hmeet]
    simp only
    split_ifs
    · exact hpx
    · exact hopen (sign_of_opposes hmeet).1

variable [DecimalWidth]

/-- What a successful fold of a fitting fill does to a well-formed position. -/
structure Folded (inst : Instrument) (pos : Position) (f : Fill) (pos' : Position) : Prop where
  signed : pos'.signed = pos.signed + f.signedQty
  avg : pos'.signed ≠ 0 →
    Price.fromDecimal (pos.newAvg f) inst.pricePrecision = .ok pos'.avgPxOpen
  money : |pos'.realizedPnl.amount - pos.realizedPnl.amount
    - (pos.tradePnl f inst - f.fee.amount)| ≤ ulp inst.settlementCurrency.precision / 2
  money_exact : pos.tradePnl f inst = 0 →
    pos'.realizedPnl.amount - pos.realizedPnl.amount = -f.fee.amount

theorem folded_of_ok (hwf : WellFormed inst pos) (hfits : FillFits inst f)
    (hok : (applyFill f inst).exec pos = (.ok (), pos')) : Folded inst pos f pos' := by
  have happlied : pos.applied inst f = pos' := by rw [Position.applied, hok]
  obtain ⟨pnl, q, px, hbook, hqty, havg, hpos'⟩ := applyFill_eq_ok_iff.mp hok
  have hsigned : pos'.signed = pos.signed + f.signedQty := by
    rw [← happlied]
    exact hwf.signed_applied ⟨⟨pnl, hbook⟩, q, hqty⟩ (Fill.onGrid_signedQty hfits.qty_grid)
  have hamount : pos'.realizedPnl.amount = pos.realizedPnl.amount +
      mantissa (pos.tradePnl f inst - f.fee.amount) inst.settlementCurrency.precision *
        ulp inst.settlementCurrency.precision := by
    rw [hpos', ← realized_eq hfits]
    exact (bookRealized_spec hbook hwf.settlement).2
  refine ⟨hsigned, ?_, ?_, ?_⟩
  · intro hne
    have hside : sideOf (pos.signed + f.signedQty) ≠ .flat := by
      rw [hsigned] at hne
      unfold sideOf
      rw [if_neg hne]
      split_ifs <;> simp
    rw [quantizeAvg, if_neg hside, hwf.pricePrecision] at havg
    rw [havg, hpos']
  · rw [hamount, add_sub_cancel_left]
    exact abs_mantissa_mul_ulp_sub _ _
  · intro hzero
    rw [hamount, hzero, zero_sub, add_sub_cancel_left]
    exact (onGrid_fee hfits).neg

/-- A fill that leaves the average leaves the worth of the entries of the new size. -/
theorem Folded.signed_mul_payoff (hwf : WellFormed inst pos) (hfold : Folded inst pos f pos')
    (hmean : pos.newAvg f = pos.avgPxOpen.asDecimal) :
    pos'.signed * payoff inst pos'.avgPxOpen.asDecimal
      = pos'.signed * payoff inst pos.avgPxOpen.asDecimal := by
  by_cases hne : pos'.signed = 0
  · rw [hne, zero_mul, zero_mul]
  · have havg := hfold.avg hne
    rw [hmean] at havg
    rw [Price.asDecimal_fromDecimal havg (hwf.avgPxOpen ▸ pos.avgPxOpen.onGrid_asDecimal)]

theorem avgSlip_of_opens (hfits : FillFits inst f) (hfold : Folded inst pos f pos')
    (hmeet : pos.meeting f = .opens) : avgSlip inst pos f pos' = 0 := by
  have h0 : pos.signed = 0 := by
    unfold meeting at hmeet
    split_ifs at hmeet with h0
    exact h0
  have htrade : pos.tradePnl f inst = 0 := by rw [tradePnl, hmeet]
  have hsigned : pos'.signed = f.signedQty := by rw [hfold.signed, h0, zero_add]
  by_cases hne : pos'.signed = 0
  · rw [avgSlip, htrade, h0, ← hsigned, hne]
    ring
  · have havg := hfold.avg hne
    rw [newAvg, hmeet] at havg
    rw [avgSlip, htrade, h0, hsigned, Price.asDecimal_fromDecimal havg hfits.px_grid]
    ring

theorem avgSlip_of_opposes (hwf : WellFormed inst pos) (hpriced : Priced pos)
    (hfits : FillFits inst f) (hfold : Folded inst pos f pos')
    (hmeet : pos.meeting f = .opposes) : avgSlip inst pos f pos' = 0 := by
  obtain ⟨h0, hqty, habs⟩ := sign_of_opposes hmeet
  have hentry : pos.avgPxOpen.asDecimal ≠ 0 := (Price.asDecimal_pos.mpr (hpriced h0)).ne'
  by_cases hflip : f.lastQty.asDecimal > |pos.signed|
  · -- flip: the whole size is realized, and the rest opens at the price of the fill
    have htrade : pos.tradePnl f inst = pos.signed * (inst.multiplier.asDecimal *
        (payoff inst f.lastPx.asDecimal - payoff inst pos.avgPxOpen.asDecimal)) := by
      rw [tradePnl, hmeet]
      simp only [min_eq_left hflip.le, pnlPerQty_eq inst hentry, habs]
    have hne : pos'.signed ≠ 0 := by
      intro hzero
      have hback : f.signedQty = -pos.signed := by linarith [hfold.signed]
      rw [← abs_signedQty, hback, abs_neg] at hflip
      exact lt_irrefl _ hflip
    have havg := hfold.avg hne
    rw [newAvg, hmeet] at havg
    simp only [if_pos hflip] at havg
    rw [avgSlip, htrade, hfold.signed, Price.asDecimal_fromDecimal havg hfits.px_grid]
    ring
  · -- reduce or close: the average stays
    have htrade : pos.tradePnl f inst = -f.signedQty * (inst.multiplier.asDecimal *
        (payoff inst f.lastPx.asDecimal - payoff inst pos.avgPxOpen.asDecimal)) := by
      rw [tradePnl, hmeet]
      simp only [min_eq_right (not_lt.mp hflip), pnlPerQty_eq inst hentry, hqty]
    have hmean : pos.newAvg f = pos.avgPxOpen.asDecimal := by
      rw [newAvg, hmeet]
      exact if_neg hflip
    rw [avgSlip, htrade, hfold.signed_mul_payoff hwf hmean, hfold.signed]
    ring

theorem Priced.of_folded (hwf : WellFormed inst pos) (hpriced : Priced pos)
    (hfits : FillFits inst f) (hfold : Folded inst pos f pos') : Priced pos' := by
  intro hne
  obtain ⟨-, -, -, -, hpx⟩ := Price.fromDecimal_eq_ok_iff.mp (hfold.avg hne)
  rw [hpx]
  refine le_mantissa ?_
  simpa using ulp_le_newAvg hwf hpriced hfits

/-- Adding to a linear position costs at most half a tick on the new size. -/
theorem abs_avgSlip_of_adds (hlin : inst.isInverse = false) (hfold : Folded inst pos f pos')
    (hmeet : pos.meeting f = .adds) :
    |avgSlip inst pos f pos'|
      ≤ ulp inst.pricePrecision / 2 * inst.multiplier.asDecimal * |pos'.signed| := by
  have hmult := inst.multiplier.asDecimal_nonneg
  have hslip : avgSlip inst pos f pos' = inst.multiplier.asDecimal *
      (pos'.signed * (pos.newAvg f - pos'.avgPxOpen.asDecimal)) := by
    rw [avgSlip, tradePnl_of_adds hmeet, hfold.signed]
    simp only [payoff, hlin, Bool.false_eq_true, if_false]
    linear_combination (-inst.multiplier.asDecimal) * signed_mul_newAvg hmeet
  by_cases hne : pos'.signed = 0
  · rw [hslip, hne]
    simp
  · have hround := Price.abs_asDecimal_fromDecimal_sub (hfold.avg hne)
    rw [abs_sub_comm] at hround
    rw [hslip, abs_mul, abs_mul, abs_of_nonneg hmult]
    calc inst.multiplier.asDecimal * (|pos'.signed| * |pos.newAvg f - pos'.avgPxOpen.asDecimal|)
        ≤ inst.multiplier.asDecimal * (|pos'.signed| * (ulp inst.pricePrecision / 2)) := by gcongr
      _ = _ := by ring

/-- Adding at the average entry leaves it where it is, so nothing is lost on either family. -/
theorem avgSlip_of_adds_at_avg (hwf : WellFormed inst pos) (hfold : Folded inst pos f pos')
    (hmeet : pos.meeting f = .adds)
    (hat : f.lastQty.raw ≠ 0 → f.lastPx.asDecimal = pos.avgPxOpen.asDecimal) :
    avgSlip inst pos f pos' = 0 := by
  have hfree : f.signedQty * payoff inst f.lastPx.asDecimal
      = f.signedQty * payoff inst pos.avgPxOpen.asDecimal := by
    by_cases hq : f.lastQty.raw = 0
    · rw [Fill.signedQty, Quantity.asDecimal, hq]
      simp
    · rw [hat hq]
  have hmean : pos.newAvg f = pos.avgPxOpen.asDecimal := by
    rw [newAvg_of_adds hmeet, div_eq_iff (pos_denom hmeet).ne', mul_add]
    by_cases hq : f.lastQty.raw = 0
    · rw [Quantity.asDecimal, hq]
      simp
    · rw [hat hq]
  rw [avgSlip, tradePnl_of_adds hmeet, hfold.signed_mul_payoff hwf hmean, hfree, hfold.signed]
  ring

end Step

/-! ## A sequence of fills -/

section Run

/-- What every fold relies on, and leaves behind when it succeeds. -/
structure Tracked (inst : Instrument) (pos : Position) : Prop where
  wellFormed : WellFormed inst pos
  priced : Priced pos

theorem tracked_flat (positionId : PositionId) (instrumentId : InstrumentId) (inst : Instrument) :
    Tracked inst (flat positionId instrumentId inst.pricePrecision inst.sizePrecision
      inst.settlementCurrency) :=
  ⟨wellFormed_flat positionId instrumentId inst, fun h ↦ absurd rfl h⟩

variable [DecimalWidth] {inst : Instrument} {pos : Position} {fills : List Fill}

/-- The call succeeds. -/
def FoldOk (inst : Instrument) (pos : Position) (f : Fill) : Prop :=
  ((applyFill f inst).exec pos).1 = .ok ()

instance (inst : Instrument) (pos : Position) (f : Fill) : Decidable (FoldOk inst pos f) :=
  inferInstanceAs (Decidable (_ = _))

/-- The largest absolute size held along the way. -/
def peakSize (inst : Instrument) : Position → List Fill → Decimal
  | pos, [] => |pos.signed|
  | pos, f :: fills => max |pos.signed| (peakSize inst (pos.applied inst f) fills)

theorem abs_signed_le_peakSize (pos : Position) (fills : List Fill) :
    |pos.signed| ≤ peakSize inst pos fills := by
  cases fills with
  | nil => exact le_rfl
  | cons f fills => exact le_max_left _ _

theorem along_peakSize {b : Decimal} (h : peakSize inst pos fills ≤ b) :
    Along (Position.applied inst) (fun p f ↦ |(p.applied inst f).signed| ≤ b) pos fills := by
  induction fills generalizing pos with
  | nil => exact trivial
  | cons f fills ih =>
    have hrest : peakSize inst (pos.applied inst f) fills ≤ b := le_trans (le_max_right _ _) h
    exact ⟨(abs_signed_le_peakSize _ fills).trans hrest, ih hrest⟩

theorem FoldOk.folded {f : Fill} (hok : FoldOk inst pos f) (hwf : WellFormed inst pos)
    (hfits : FillFits inst f) : Folded inst pos f (pos.applied inst f) :=
  folded_of_ok hwf hfits (Prod.ext hok rfl)

theorem Tracked.applied {f : Fill} (h : Tracked inst pos) (hfits : FillFits inst f)
    (hok : FoldOk inst pos f) : Tracked inst (pos.applied inst f) :=
  ⟨h.wellFormed.applied f,
    h.priced.of_folded h.wellFormed hfits (hok.folded h.wellFormed hfits)⟩

/-- A run of successful folds of fitting fills, from a tracked position. -/
theorem Tracked.along (h : Tracked inst pos) (hfits : ∀ f ∈ fills, FillFits inst f)
    (hok : Along (Position.applied inst) (FoldOk inst) pos fills) :
    Along (Position.applied inst)
      (fun p f ↦ Tracked inst p ∧ FillFits inst f ∧ FoldOk inst p f) pos fills :=
  ((along_of_forall_mem hfits).and hok).with_invariant
    (fun _ _ hp hstep ↦ hp.applied hstep.1 hstep.2) h

theorem Tracked.foldl (h : Tracked inst pos) (hfits : ∀ f ∈ fills, FillFits inst f)
    (hok : Along (Position.applied inst) (FoldOk inst) pos fills) :
    Tracked inst (fills.foldl (Position.applied inst) pos) :=
  (h.along hfits hok).induction (fun _ _ hp hstep ↦ hp.applied hstep.2.1 hstep.2.2) h

theorem Tracked.signed_foldl (h : Tracked inst pos) (hfits : ∀ f ∈ fills, FillFits inst f)
    (hok : Along (Position.applied inst) (FoldOk inst) pos fills) :
    (fills.foldl (Position.applied inst) pos).signed
      = pos.signed + (fills.map Fill.signedQty).sum := by
  have hrun := h.along hfits hok
  clear hfits hok
  induction fills generalizing pos with
  | nil => simp
  | cons f fills ih =>
    obtain ⟨⟨hp, hf, hfold⟩, hrest⟩ := hrun
    rw [List.foldl_cons, ih (hp.applied hf hfold) hrest, (hfold.folded hp.wellFormed hf).signed,
      List.map_cons, List.sum_cons, add_assoc]

omit [DecimalWidth] in
theorem dir_mul_quantity (pos : Position) (hside : pos.side ≠ .flat) :
    (if pos.side = .long then (1 : ℚ) else -1) * pos.quantity.asDecimal = pos.signed := by
  unfold signed
  cases hs : pos.side with
  | flat => exact absurd hs hside
  | long => simp
  | short => simp

theorem unrealizedPnl_eq (hexact : DecimalWidth.bound = none) (pos : Position) (mark : Price) :
    pos.unrealizedPnl mark inst = ⟨mantissa (pos.signed * pnlPerQty inst.isInverse
      pos.avgPxOpen.asDecimal mark.asDecimal inst.multiplier.asDecimal)
      inst.settlementCurrency.precision, inst.settlementCurrency⟩ := by
  rw [unrealizedPnl]
  simp only
  by_cases hside : pos.side = .flat
  · rw [if_pos hside, signed, hside]
    simp [Money.zero]
  · rw [if_neg hside, dir_mul_quantity pos hside,
      Money.fromDecimal_eq_ok_iff.mpr ⟨DecimalWidth.fits_of_exact hexact _, rfl⟩]

/-- The unrealized profit is the payoff of the open size, up to half a money unit. -/
theorem Tracked.abs_unrealizedPnl_sub (h : Tracked inst pos) (hexact : DecimalWidth.bound = none)
    (mark : Price) :
    |(pos.unrealizedPnl mark inst).amount - inst.multiplier.asDecimal * (pos.signed *
        (payoff inst mark.asDecimal - payoff inst pos.avgPxOpen.asDecimal))|
      ≤ if pos.signed = 0 then 0 else ulp inst.settlementCurrency.precision / 2 := by
  rw [unrealizedPnl_eq hexact, Money.amount]
  split_ifs with h0
  · simp [h0]
  · have hentry : pos.avgPxOpen.asDecimal ≠ 0 := (Price.asDecimal_pos.mpr (h.priced h0)).ne'
    rw [pnlPerQty_eq inst hentry, mul_left_comm]
    exact abs_mantissa_mul_ulp_sub _ _

/-- What the profit of a sequence of fills ought to be, marked at `mark`. -/
def idealPnl (inst : Instrument) (fills : List Fill) (mark : Price) : Decimal :=
  inst.multiplier.asDecimal * ((fills.map Fill.signedQty).sum * payoff inst mark.asDecimal
    - (fills.map fun f ↦ f.signedQty * payoff inst f.lastPx.asDecimal).sum)

omit [DecimalWidth] in
theorem sum_idealMove (inst : Instrument) (fills : List Fill) :
    (fills.map (idealMove inst)).sum = -(inst.multiplier.asDecimal *
      (fills.map fun f ↦ f.signedQty * payoff inst f.lastPx.asDecimal).sum)
        - (fills.map fun f ↦ f.fee.amount).sum := by
  induction fills with
  | nil => simp
  | cons f fills ih =>
    simp only [List.map_cons, List.sum_cons, ih, idealMove]
    ring

/-- From a bound on the residual to a bound on the profit. -/
theorem Tracked.abs_profit_sub (h : Tracked inst pos) (hexact : DecimalWidth.bound = none)
    (hsigned : pos.signed = (fills.map Fill.signedQty).sum) {b : Decimal}
    (hres : |residual inst pos - (fills.map (idealMove inst)).sum| ≤ b) (mark : Price) :
    |pos.realizedPnl.amount + (pos.unrealizedPnl mark inst).amount
        + (fills.map fun f ↦ f.fee.amount).sum - idealPnl inst fills mark|
      ≤ b + if pos.signed = 0 then 0 else ulp inst.settlementCurrency.precision / 2 := by
  have hopen := h.abs_unrealizedPnl_sub hexact mark
  have hsplit : pos.realizedPnl.amount + (pos.unrealizedPnl mark inst).amount
        + (fills.map fun f ↦ f.fee.amount).sum - idealPnl inst fills mark
      = (residual inst pos - (fills.map (idealMove inst)).sum)
        + ((pos.unrealizedPnl mark inst).amount - inst.multiplier.asDecimal * (pos.signed *
            (payoff inst mark.asDecimal - payoff inst pos.avgPxOpen.asDecimal))) := by
    rw [sum_idealMove, residual, idealPnl, ← hsigned]
    ring
  rw [hsplit]
  exact (abs_add_le _ _).trans (add_le_add hres hopen)

/-! ## Linear contracts -/

omit [DecimalWidth] in
theorem residual_flat (positionId : PositionId) (instrumentId : InstrumentId)
    (inst : Instrument) (pricePrecision sizePrecision : ℕ) (settlement : Currency) :
    residual inst (flat positionId instrumentId pricePrecision sizePrecision settlement) = 0 := by
  simp [residual, flat, signed]

/-- Every fill moves the residual of a linear position by its ideal share, up to half a tick on the
new size and half a money unit. -/
theorem residual_step_linear {f : Fill} (hlin : inst.isInverse = false) (h : Tracked inst pos)
    (hfits : FillFits inst f) (hok : FoldOk inst pos f) :
    |residual inst (pos.applied inst f) - residual inst pos - idealMove inst f|
      ≤ ulp inst.pricePrecision / 2 * inst.multiplier.asDecimal * |(pos.applied inst f).signed|
        + ulp inst.settlementCurrency.precision / 2 := by
  have hfold := hok.folded h.wellFormed hfits
  have hslip : |avgSlip inst pos f (pos.applied inst f)| ≤ ulp inst.pricePrecision / 2
      * inst.multiplier.asDecimal * |(pos.applied inst f).signed| := by
    have htick := (ulp_pos inst.pricePrecision).le
    have hmult := inst.multiplier.asDecimal_nonneg
    cases hmeet : pos.meeting f with
    | opens =>
      rw [avgSlip_of_opens hfits hfold hmeet, abs_zero]
      positivity
    | adds => exact abs_avgSlip_of_adds hlin hfold hmeet
    | opposes =>
      rw [avgSlip_of_opposes h.wellFormed h.priced hfits hfold hmeet, abs_zero]
      positivity
  rw [residual_sub, add_comm (ulp inst.pricePrecision / 2 * _ * _)]
  exact (abs_add_le _ _).trans (add_le_add hfold.money hslip)

/-- What the profit of a sequence of fills ought to satisfy: realized profit, unrealized profit and
fees add up to the ideal profit, up to half a tick on the largest size held and half a money unit
per fill, and half a money unit for the mark. -/
def LinearLaw (inst : Instrument) (start : Position) (fills : List Fill) (mark : Price) : Prop :=
  let pos := fills.foldl (Position.applied inst) start
  let n : ℚ := fills.length
  let mult := inst.multiplier.asDecimal
  |pos.realizedPnl.amount + (pos.unrealizedPnl mark inst).amount
      + (fills.map fun f ↦ f.fee.amount).sum
      - mult * ((fills.map Fill.signedQty).sum * mark.asDecimal
        - (fills.map fun f ↦ f.signedQty * f.lastPx.asDecimal).sum)|
    ≤ n * (ulp inst.pricePrecision / 2) * mult * peakSize inst start fills
      + (n + 1) * (ulp inst.settlementCurrency.precision / 2)

/-- **Linear profit is conserved** along every run of successful folds from a flat position. -/
theorem linear_pnl_conserved (hexact : DecimalWidth.bound = none) {inst : Instrument}
    (hlin : inst.isInverse = false) (positionId : PositionId) (instrumentId : InstrumentId)
    {fills : List Fill}
    (hfits : ∀ f ∈ fills, 0 < f.lastPx.raw ∧ f.lastPx.precision = inst.pricePrecision ∧
      f.lastQty.precision = inst.sizePrecision ∧ f.fee.currency = inst.settlementCurrency)
    (hok : Along (Position.applied inst) (FoldOk inst) (flat positionId instrumentId
      inst.pricePrecision inst.sizePrecision inst.settlementCurrency) fills) (mark : Price) :
    LinearLaw inst (flat positionId instrumentId inst.pricePrecision inst.sizePrecision
      inst.settlementCurrency) fills mark := by
  unfold LinearLaw
  intro pos n mult
  set start := flat positionId instrumentId inst.pricePrecision inst.sizePrecision
    inst.settlementCurrency with hstart_def
  set tick := ulp inst.pricePrecision
  set unit := ulp inst.settlementCurrency.precision
  have hfits' : ∀ f ∈ fills, FillFits inst f := by
    intro f hf
    obtain ⟨hpx, hpxp, hqtyp, hfee⟩ := hfits f hf
    exact ⟨Price.asDecimal_pos.mpr hpx, hpxp ▸ f.lastPx.onGrid_asDecimal,
      hqtyp ▸ f.lastQty.onGrid_asDecimal, .inl hfee⟩
  have hstart : Tracked inst start := tracked_flat positionId instrumentId inst
  have hend : Tracked inst pos := hstart.foldl hfits' hok
  have hsigned : pos.signed = (fills.map Fill.signedQty).sum := by
    rw [hstart.signed_foldl hfits' hok, hstart_def, signed_flat, zero_add]
  have hbudget : |residual inst pos - residual inst start - (fills.map (idealMove inst)).sum|
      ≤ fills.length * (tick / 2 * mult * peakSize inst start fills + unit / 2) + (0 - 0) := by
    refine ((hstart.along hfits' hok).and (along_peakSize le_rfl)).abs_budget (ψ := fun _ ↦ 0) ?_
    rintro p f ⟨⟨htracked, hf, hfold⟩, hpeak⟩
    have htick : 0 ≤ tick := (ulp_pos _).le
    have hmult : 0 ≤ mult := inst.multiplier.asDecimal_nonneg
    refine (residual_step_linear hlin htracked hf hfold).trans ?_
    rw [sub_zero, add_zero]
    gcongr
  rw [hstart_def, residual_flat, sub_zero, ← hstart_def, sub_zero, add_zero] at hbudget
  have hprofit := hend.abs_profit_sub hexact hsigned hbudget mark
  have hlast : (if pos.signed = 0 then (0 : ℚ) else unit / 2) ≤ unit / 2 := by
    split_ifs
    · exact (half_pos (ulp_pos _)).le
    · exact le_rfl
  simp only [idealPnl, payoff, hlin, Bool.false_eq_true, if_false] at hprofit
  calc _ ≤ _ := hprofit
    _ ≤ n * (tick / 2 * mult * peakSize inst start fills + unit / 2) + unit / 2 := by gcongr
    _ = n * (tick / 2) * mult * peakSize inst start fills + (n + 1) * (unit / 2) := by ring

/-! ## Inverse contracts

The average of an inverse position ought to be the harmonic mean of its entries, since its payoff is
linear in the reciprocal of the price. `newAvg` takes the arithmetic mean for both families, so the
profit is right along the runs in which no size is added away from the average entry. -/

/-- What the coin profit of a sequence of fills ought to satisfy: it is the ideal one, up to half a
tick of the average entry and half a money unit per fill. Half a tick of a price of at least `low`
is at most `tick / 2 / low ^ 2` of its reciprocal. -/
def InverseLaw (inst : Instrument) (start : Position) (fills : List Fill) (mark : Price) : Prop :=
  let pos := fills.foldl (Position.applied inst) start
  let mult := inst.multiplier.asDecimal
  0 < mark.asDecimal → ∀ low : ℚ, 0 < low → (∀ f ∈ fills, low ≤ f.lastPx.asDecimal) →
    |pos.realizedPnl.amount + (pos.unrealizedPnl mark inst).amount
        - mult * ((fills.map fun f ↦ f.signedQty / f.lastPx.asDecimal).sum
          - (fills.map Fill.signedQty).sum / mark.asDecimal)|
      ≤ fills.length * (ulp inst.pricePrecision / 2 * mult * peakSize inst start fills / low ^ 2
        + ulp inst.settlementCurrency.precision / 2)

omit [DecimalWidth] in
theorem idealPnl_inverse (hinv : inst.isInverse = true) (fills : List Fill) (mark : Price) :
    idealPnl inst fills mark = inst.multiplier.asDecimal *
      ((fills.map fun f ↦ f.signedQty / f.lastPx.asDecimal).sum
        - (fills.map Fill.signedQty).sum / mark.asDecimal) := by
  have hpay : ∀ x y : ℚ, x * payoff inst y = x / y * -1 := fun x y ↦ by
    rw [payoff, if_pos hinv]
    ring
  simp only [idealPnl, hpay, List.sum_map_mul_right]
  ring

/-- A fill that adds to the position trades at its average entry. -/
def AddsAtAvg (pos : Position) (f : Fill) : Prop :=
  pos.meeting f = .adds → f.lastQty.raw ≠ 0 → f.lastPx.asDecimal = pos.avgPxOpen.asDecimal

instance (pos : Position) (f : Fill) : Decidable (AddsAtAvg pos f) :=
  inferInstanceAs (Decidable (_ → _ → _))

/-- Half a money unit while a size is open. An opening fill books nothing, which pays for the
rounding of the mark. -/
def openUnit (inst : Instrument) (pos : Position) : Decimal :=
  if pos.signed = 0 then 0 else ulp inst.settlementCurrency.precision / 2

omit [DecimalWidth] in
theorem openUnit_le (inst : Instrument) (pos : Position) :
    openUnit inst pos ≤ ulp inst.settlementCurrency.precision / 2 := by
  unfold openUnit
  split_ifs
  · exact (half_pos (ulp_pos _)).le
  · exact le_rfl

/-- Without adds away from the average, every fill moves the residual by its ideal share, up to the
rounding of what it books. -/
theorem residual_step_addsAtAvg {f : Fill} (h : Tracked inst pos) (hfits : FillFits inst f)
    (hok : FoldOk inst pos f) (hat : AddsAtAvg pos f) :
    |residual inst (pos.applied inst f) - residual inst pos - idealMove inst f|
      ≤ ulp inst.settlementCurrency.precision / 2
        + (openUnit inst pos - openUnit inst (pos.applied inst f)) := by
  have hfold := hok.folded h.wellFormed hfits
  have hnext := openUnit_le inst (pos.applied inst f)
  have hslip : avgSlip inst pos f (pos.applied inst f) = 0 := by
    cases hmeet : pos.meeting f with
    | opens => exact avgSlip_of_opens hfits hfold hmeet
    | adds => exact avgSlip_of_adds_at_avg h.wellFormed hfold hmeet (hat hmeet)
    | opposes => exact avgSlip_of_opposes h.wellFormed h.priced hfits hfold hmeet
  rw [residual_sub, hslip, add_zero]
  by_cases h0 : pos.signed = 0
  · have htrade : pos.tradePnl f inst = 0 := by rw [tradePnl, meeting, if_pos h0]
    rw [hfold.money_exact htrade, htrade, openUnit, if_pos h0]
    simpa using hnext
  · have hmoney := hfold.money
    rw [openUnit, if_neg h0]
    linarith

/-- **Inverse profit.** In every run of successful folds whose adds trade at the average entry, the
coin profit satisfies the inverse law. -/
theorem inverseLaw_of_addsAtAvg (hexact : DecimalWidth.bound = none) {inst : Instrument}
    (hinv : inst.isInverse = true) (positionId : PositionId) (instrumentId : InstrumentId)
    {fills : List Fill}
    (hfits : ∀ f ∈ fills, 0 < f.lastPx.raw ∧ OnGrid f.lastPx.asDecimal inst.pricePrecision ∧
      OnGrid f.lastQty.asDecimal inst.sizePrecision ∧ f.fee.raw = 0)
    (hok : Along (Position.applied inst) (FoldOk inst) (flat positionId instrumentId
      inst.pricePrecision inst.sizePrecision inst.settlementCurrency) fills)
    (hat : Along (Position.applied inst) AddsAtAvg (flat positionId instrumentId
      inst.pricePrecision inst.sizePrecision inst.settlementCurrency) fills) (mark : Price) :
    InverseLaw inst (flat positionId instrumentId inst.pricePrecision inst.sizePrecision
      inst.settlementCurrency) fills mark := by
  intro _ low hlow _
  set start := flat positionId instrumentId inst.pricePrecision inst.sizePrecision
    inst.settlementCurrency with hstart_def
  set pos := fills.foldl (Position.applied inst) start
  set mult := inst.multiplier.asDecimal
  have hfits' : ∀ f ∈ fills, FillFits inst f := fun f hf ↦
    ⟨Price.asDecimal_pos.mpr (hfits f hf).1, (hfits f hf).2.1, (hfits f hf).2.2.1,
      .inr (hfits f hf).2.2.2⟩
  have hstart : Tracked inst start := tracked_flat positionId instrumentId inst
  have hend : Tracked inst pos := hstart.foldl hfits' hok
  have hsigned : pos.signed = (fills.map Fill.signedQty).sum := by
    rw [hstart.signed_foldl hfits' hok, hstart_def, signed_flat, zero_add]
  have hbudget : |residual inst pos - residual inst start - (fills.map (idealMove inst)).sum|
      ≤ fills.length * (ulp inst.settlementCurrency.precision / 2)
        + (openUnit inst start - openUnit inst pos) := by
    refine ((hstart.along hfits' hok).and hat).abs_budget ?_
    rintro p f ⟨⟨htracked, hf, hfold⟩, hadd⟩
    exact residual_step_addsAtAvg htracked hf hfold hadd
  have hclosed : openUnit inst start = 0 := if_pos rfl
  rw [hstart_def, residual_flat, sub_zero, ← hstart_def, hclosed] at hbudget
  have hprofit := hend.abs_profit_sub hexact hsigned hbudget mark
  have hfees : (fills.map fun f ↦ f.fee.amount).sum = 0 := by
    refine List.sum_eq_zero fun x hx ↦ ?_
    obtain ⟨f, hf, rfl⟩ := List.mem_map.mp hx
    simp [Money.amount, (hfits f hf).2.2.2]
  rw [hfees, add_zero, idealPnl_inverse hinv] at hprofit
  have hpeak : 0 ≤ peakSize inst start fills :=
    (abs_nonneg _).trans (abs_signed_le_peakSize start fills)
  have htick : 0 ≤ ulp inst.pricePrecision := (ulp_pos _).le
  have hmult : 0 ≤ mult := inst.multiplier.asDecimal_nonneg
  have hslack : 0 ≤ ulp inst.pricePrecision / 2 * mult * peakSize inst start fills / low ^ 2 := by
    positivity
  calc _ ≤ _ := hprofit
    _ = fills.length * (0 + ulp inst.settlementCurrency.precision / 2) := by
      rw [← openUnit]
      ring
    _ ≤ _ := by gcongr

end Run

section Instances

open scoped ExactDecimal

/-- A linear perpetual and its coin-margined sibling. -/
def perp (isInverse : Bool) : Instrument :=
  let usdt : Currency := ⟨"USDT", 2, two_le_maxPrecision⟩
  let btc : Currency := ⟨"BTC", 8, eight_le_maxPrecision⟩
  cryptoPerpetual ⟨⟨"BTCUSD"⟩, ⟨"SIM"⟩⟩ btc usdt (if isInverse then btc else usdt) 1 0 ⟨1, 1⟩ ⟨1, 0⟩
    none ⟨1, 0⟩ (2 / 10000) (4 / 10000) isInverse

/-- A fill of `perp`: its price in tenths, its fee in money units. -/
def perpFill (isInverse : Bool) (side : OrderSide) (px : ℤ) (qty : ℕ) (fee : ℤ) : Fill where
  tradeId := ⟨"T"⟩
  clientOrderId := ⟨"C"⟩
  venueOrderId := ⟨"V"⟩
  instrumentId := (perp isInverse).id
  side := side
  lastPx := ⟨px, 1⟩
  lastQty := ⟨qty, 0⟩
  fee := ⟨fee, (perp isInverse).settlementCurrency⟩
  liquidity := .taker
  tsEvent := 0
  tsInit := 0

/-- Open, add at a price that makes the average round, flip. -/
def perpFills : List Fill :=
  [perpFill false .buy 100 2 1, perpFill false .buy 101 1 1, perpFill false .sell 110 5 3]

theorem linear_pnl_conserved_perp :
    LinearLaw (perp false) (flat ⟨"P"⟩ (perp false).id 1 0 (perp false).settlementCurrency)
      perpFills
      ⟨105, 1⟩ :=
  linear_pnl_conserved rfl rfl ⟨"P"⟩ (perp false).id (by decide) (by decide +kernel) ⟨105, 1⟩

/-- Open, add at the average, reduce. -/
def inverseFills : List Fill :=
  [perpFill true .buy 1000 100 0, perpFill true .buy 1000 50 0, perpFill true .sell 3000 70 0]

theorem inverseLaw_perp :
    InverseLaw (perp true) (flat ⟨"P"⟩ (perp true).id 1 0 (perp true).settlementCurrency)
      inverseFills ⟨2000, 1⟩ :=
  inverseLaw_of_addsAtAvg rfl rfl ⟨"P"⟩ (perp true).id (by decide +kernel) (by decide +kernel)
    (by decide +kernel) ⟨2000, 1⟩

/-- Bought at 100 and at 300, the average is 200 and a mark of 200 shows no profit, where a third of
a coin has been made. -/
theorem not_inverseLaw_of_two_buys :
    ¬ ∀ (inst : Instrument) (fills : List Fill) (mark : Price), inst.isInverse = true →
      (∀ f ∈ fills, 0 < f.lastPx.raw ∧ OnGrid f.lastPx.asDecimal inst.pricePrecision ∧
        OnGrid f.lastQty.asDecimal inst.sizePrecision ∧ f.fee.raw = 0) →
      Along (Position.applied inst) (FoldOk inst) (flat ⟨"P"⟩ inst.id inst.pricePrecision
        inst.sizePrecision inst.settlementCurrency) fills →
      InverseLaw inst (flat ⟨"P"⟩ inst.id inst.pricePrecision inst.sizePrecision
        inst.settlementCurrency) fills mark := by
  intro h
  have hlaw := h (perp true) [perpFill true .buy 1000 100 0, perpFill true .buy 3000 100 0]
    ⟨2000, 1⟩ rfl (by decide +kernel) (by decide +kernel)
  exact absurd (hlaw (by decide +kernel) 100 (by decide) (by decide +kernel))
    (by decide +kernel)

end Instances

end Position

end Coinext
