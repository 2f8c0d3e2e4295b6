import Coinext.Model.OrderLog
import Mathlib.Tactic.FieldSimp

/-!
# The average fill price of an order

Each accepted fill takes the mean of the average so far and its own price, weighted with the
quantities, and rounds it to the tick. What a rounding adds to the average is carried on: the next
mean starts from the rounded average, so the errors of all fills add up (`carried_of_fill`), each
weighted with the quantity it was spread over. Once a large quantity stands behind the average, a
fill of one lot that moves the mean by less than half a tick leaves it where it is, and so does any
number of them.

The errors are followed in ticks times lots, where they are integers. The average is within a tick
of the volume-weighted average of the recorded fills as long as they stay below the filled quantity
(`withinTick_iff`), which every step of a run can be asked in advance: the error carried in is known
from the order, and the next rounding from a remainder.
-/

namespace Coinext

namespace Order

/-! ## The average and the fills -/

/-- The exact volume-weighted average of the recorded fills. -/
def volumeWeighted (o : Order) : Decimal :=
  (o.fills.map fun f ↦ f.lastPx.asDecimal * f.lastQty.asDecimal).sum
    / (o.fills.map fun f ↦ f.lastQty.asDecimal).sum

/-- The average fill price is less than a tick away from the exact one. -/
def WithinTick (o : Order) : Prop :=
  ∀ avg ∈ o.avgPx, (o.fills.map fun f ↦ f.lastQty.asDecimal).sum ≠ 0 →
    |avg.asDecimal - o.volumeWeighted| < ulp avg.precision

instance (o : Order) : Decidable o.WithinTick := inferInstanceAs (Decidable (∀ _ ∈ _, _ → _))

/-- The average in ticks, zero before the first fill. -/
def avgRaw (o : Order) : ℤ :=
  match o.avgPx with
  | some avg => avg.raw
  | none => 0

/-- What the recorded fills paid, in ticks times lots. -/
def paid (o : Order) : ℤ := (o.fills.map fun f ↦ f.lastPx.raw * (f.lastQty.raw : ℤ)).sum

/-- What the average says too much, in ticks times lots: the error that is carried on. -/
def carried (o : Order) : ℤ := o.avgRaw * o.filledQty.raw - o.paid

/-- What rounding the next average adds to that. -/
def roundingOf (o : Order) (f : Fill) : ℤ :=
  let total : ℤ := o.filledQty.raw + f.lastQty.raw
  let sum : ℤ := o.avgRaw * o.filledQty.raw + f.lastPx.raw * f.lastQty.raw
  total * divHalfEven sum total - sum

/-- If the call is an accepted fill, the error carried in and the next rounding stay below a tick on
the quantity filled then. -/
def RoundingFits [DecimalWidth] (o : Order) (ev : OrderEvent) : Prop :=
  ∀ f ∈ ev.fill?, (∃ o', o.Accepts ev o') → o.filledQty.raw + f.lastQty.raw ≠ 0 →
    |o.carried + o.roundingOf f| < o.filledQty.raw + f.lastQty.raw

instance [DecimalWidth] (o : Order) (ev : OrderEvent) : Decidable (o.RoundingFits ev) :=
  inferInstanceAs (Decidable (∀ _ ∈ _, _ → _ → _))

/-- What a run keeps: quantities and prices of the recorded fills are at one precision each, and
so is the average. -/
structure Averaged (sizePrecision pricePrecision : ℕ) (o : Order) : Prop where
  filled : FilledBySum sizePrecision o
  fillAt : ∀ f ∈ o.fills, f.lastPx.precision = pricePrecision
  avgAt : ∀ avg ∈ o.avgPx, avg.precision = pricePrecision
  fills_of_none : o.avgPx = none → o.fills = []

section Errors

variable {sizePrecision pricePrecision : ℕ} {o : Order}

theorem averaged_of_isNew (h : o.IsNew) (pricePrecision : ℕ) :
    Averaged o.quantity.precision pricePrecision o := by
  refine ⟨filledBySum_of_isNew h, ?_, ?_, ?_⟩
  · rw [h]
    exact fun f hf ↦ (by cases hf)
  · rw [h]
    exact fun avg havg ↦ (by cases havg)
  · rw [h]
    exact fun _ ↦ rfl

theorem Averaged.paid_eq (h : Averaged sizePrecision pricePrecision o) :
    (o.fills.map fun f ↦ f.lastPx.asDecimal * f.lastQty.asDecimal).sum
      = o.paid * (ulp pricePrecision * ulp sizePrecision) := by
  have hmap : o.fills.map (fun f ↦ f.lastPx.asDecimal * f.lastQty.asDecimal)
      = o.fills.map fun f ↦ ((f.lastPx.raw * (f.lastQty.raw : ℤ) : ℤ) : ℚ)
          * (ulp pricePrecision * ulp sizePrecision) := by
    refine List.map_congr_left fun f hf ↦ ?_
    rw [Price.asDecimal, Quantity.asDecimal, h.fillAt f hf, h.filled.precision_eq f hf]
    push_cast
    ring
  rw [hmap, List.sum_map_mul_right, paid, Int.cast_list_sum, List.map_map]
  rfl

/-- **The error and the tick.** The average is within a tick of the exact one exactly when the error
it carries is less than a tick on the filled quantity. -/
theorem Averaged.withinTick_iff (h : Averaged sizePrecision pricePrecision o) :
    o.WithinTick ↔ (o.filledQty.raw ≠ 0 → |o.carried| < o.filledQty.raw) := by
  have hvolume := h.filled.asDecimal_eq
  cases havg : o.avgPx with
  | none =>
    have hzero : o.filledQty.raw = 0 := by
      rw [h.filled.filledQty_eq, h.fills_of_none havg]
      rfl
    refine iff_of_true (fun avg hmem ↦ ?_) fun hne ↦ absurd hzero hne
    rw [havg] at hmem
    cases hmem
  | some avg =>
    have hq : o.filledQty.asDecimal = o.filledQty.raw * ulp sizePrecision := by
      rw [Quantity.asDecimal, h.filled.filledQty_eq]
    have hne : o.filledQty.asDecimal ≠ 0 ↔ o.filledQty.raw ≠ 0 := by
      rw [hq, mul_ne_zero_iff, and_iff_left (ulp_pos _).ne', Nat.cast_ne_zero]
    have hprecision := h.avgAt avg havg
    simp only [WithinTick, havg, Option.mem_some_iff, forall_eq', ← hvolume, hne]
    refine imp_congr_right fun hraw ↦ ?_
    have hpos : (0 : ℚ) < o.filledQty.raw := by exact_mod_cast Nat.pos_of_ne_zero hraw
    have htick := ulp_pos pricePrecision
    have hlot := ulp_pos sizePrecision
    have hgap : avg.asDecimal - o.volumeWeighted
        = (o.carried : ℚ) / o.filledQty.raw * ulp pricePrecision := by
      rw [volumeWeighted, h.paid_eq, ← hvolume, hq, carried, avgRaw, havg, Price.asDecimal,
        hprecision]
      push_cast
      field_simp
    rw [hgap, hprecision, abs_mul, abs_of_pos htick, mul_lt_iff_lt_one_left htick, abs_div,
      abs_of_pos hpos, div_lt_one hpos]
    exact_mod_cast Iff.rfl

end Errors

/-! ## One call -/

section Step

variable [DecimalWidth] {sizePrecision pricePrecision : ℕ} {o o' : Order} {ev : OrderEvent}
  {f : Fill}

theorem Accepts.avgPx_of_fill (h : o.Accepts ev o') (hev : ev.fill? = some f) :
    ∃ avg, Price.fromDecimal (o.fillAverage f o'.filledQty) f.lastPx.precision = .ok avg ∧
      o'.avgPx = some avg := by
  obtain ⟨p, -, heff, rfl⟩ := h
  cases ev with
  | partiallyFilled g | filled g =>
    cases hev
    obtain ⟨newFilled, avg, -, havg, rfl⟩ := fillEffect_eq_ok_iff.mp heff
    exact ⟨avg, havg, rfl⟩
  | _ => cases hev

theorem Averaged.filledQty_of_fill (h : Averaged sizePrecision pricePrecision o)
    (hacc : o.Accepts ev o') (hev : ev.fill? = some f) :
    f.lastQty.precision = sizePrecision ∧
      o'.filledQty = ⟨o.filledQty.raw + f.lastQty.raw, sizePrecision⟩ := by
  obtain ⟨hprec, -, -, hsum⟩ := Quantity.checkedAdd_eq_ok_iff.mp (hacc.of_fill hev).2.1
  have hat : o.filledQty.precision = sizePrecision := by rw [h.filled.filledQty_eq]
  exact ⟨hprec.symm.trans hat, by rw [hsum, hat]⟩

omit [DecimalWidth] in
/-- In ticks, the mean of a fill is a quotient of integers. -/
theorem Averaged.mantissa_fillAverage (h : Averaged sizePrecision pricePrecision o)
    (hpx : f.lastPx.precision = pricePrecision) (hqty : f.lastQty.precision = sizePrecision)
    (hne : o.filledQty.raw + f.lastQty.raw ≠ 0) :
    mantissa (o.fillAverage f ⟨o.filledQty.raw + f.lastQty.raw, sizePrecision⟩) pricePrecision
      = divHalfEven (o.avgRaw * o.filledQty.raw + f.lastPx.raw * f.lastQty.raw)
          (o.filledQty.raw + f.lastQty.raw) := by
  have hposN : 0 < o.filledQty.raw + f.lastQty.raw := Nat.pos_of_ne_zero hne
  have hposQ : (0 : ℚ) < o.filledQty.raw + f.lastQty.raw := by exact_mod_cast hposN
  have hat : o.filledQty.precision = sizePrecision := by rw [h.filled.filledQty_eq]
  have hlot := ulp_pos sizePrecision
  have hmean : o.fillAverage f ⟨o.filledQty.raw + f.lastQty.raw, sizePrecision⟩
        * 10 ^ pricePrecision
      = ((o.avgRaw * o.filledQty.raw + f.lastPx.raw * f.lastQty.raw : ℤ) : ℚ)
        / ((o.filledQty.raw + f.lastQty.raw : ℤ) : ℚ) := by
    have htick := ulp_mul_pow pricePrecision
    have htotal : (⟨o.filledQty.raw + f.lastQty.raw, sizePrecision⟩ : Quantity).asDecimal
        = (o.filledQty.raw + f.lastQty.raw) * ulp sizePrecision := by
      rw [Quantity.asDecimal]
      push_cast
      rfl
    cases havg : o.avgPx with
    | none =>
      simp only [fillAverage, avgRaw, havg, htotal]
      rw [if_neg (mul_pos hposQ hlot).ne', Price.asDecimal, Quantity.asDecimal, hpx, hqty]
      push_cast
      field_simp
      linear_combination (f.lastPx.raw * f.lastQty.raw * ulp sizePrecision : ℚ) * htick
    | some avg =>
      simp only [fillAverage, avgRaw, havg, htotal]
      rw [if_neg (mul_pos hposQ hlot).ne', Price.asDecimal, Price.asDecimal, Quantity.asDecimal,
        Quantity.asDecimal, h.avgAt avg havg, hat, hpx, hqty]
      push_cast
      field_simp
      linear_combination (avg.raw * o.filledQty.raw + f.lastPx.raw * f.lastQty.raw : ℚ) * htick
  rw [mantissa, hmean, roundHalfEven_div _ (by exact_mod_cast hposN)]

/-- **Errors add up.** An accepted fill leaves the error carried in and what its rounding adds. -/
theorem Averaged.carried_of_fill (h : Averaged sizePrecision pricePrecision o)
    (hacc : o.Accepts ev o') (hev : ev.fill? = some f) (hpx : f.lastPx.precision = pricePrecision)
    (hne : o.filledQty.raw + f.lastQty.raw ≠ 0) :
    o'.carried = o.carried + o.roundingOf f := by
  obtain ⟨hqty, hfilled⟩ := h.filledQty_of_fill hacc hev
  obtain ⟨avg, havg, hsome⟩ := hacc.avgPx_of_fill hev
  have hraw : o'.avgRaw = divHalfEven (o.avgRaw * o.filledQty.raw + f.lastPx.raw * f.lastQty.raw)
      (o.filledQty.raw + f.lastQty.raw) := by
    rw [hfilled, hpx] at havg
    obtain ⟨-, -, -, -, rfl⟩ := Price.fromDecimal_eq_ok_iff.mp havg
    rw [avgRaw, hsome, ← h.mantissa_fillAverage hpx hqty hne]
  have hpaid : o'.paid = o.paid + f.lastPx.raw * f.lastQty.raw := by
    rw [paid, hacc.fills_of_fill hev]
    simp [paid]
  rw [carried, carried, roundingOf, hraw, hpaid, hfilled]
  push_cast
  ring

theorem Averaged.applied (h : Averaged sizePrecision pricePrecision o)
    (hpx : ∀ f ∈ ev.fill?, f.lastPx.precision = pricePrecision) :
    Averaged sizePrecision pricePrecision (o.applied ev) := by
  have hfilled := h.filled.applied ev
  rcases applied_cases o ev with hacc | hsame
  · cases hev : ev.fill? with
    | none =>
      have hfills := hacc.fills_of_fill?_eq_none hev
      have havg := (hacc.filledQty_of_fill?_eq_none hev).2
      refine ⟨hfilled, ?_, ?_, ?_⟩
      · rw [hfills]
        exact h.fillAt
      · rw [havg]
        exact h.avgAt
      · rw [havg, hfills]
        exact h.fills_of_none
    | some f =>
      have hfills := hacc.fills_of_fill hev
      obtain ⟨avg, havg, hsome⟩ := hacc.avgPx_of_fill hev
      refine ⟨hfilled, ?_, ?_, ?_⟩
      · intro g hg
        rw [hfills, List.mem_append, List.mem_singleton] at hg
        rcases hg with hg | rfl
        · exact h.fillAt g hg
        · exact hpx g hev
      · intro p hp
        rw [hsome, Option.mem_some_iff] at hp
        obtain ⟨-, -, -, -, rfl⟩ := Price.fromDecimal_eq_ok_iff.mp havg
        rw [← hp]
        exact hpx f hev
      · intro hnone
        rw [hsome] at hnone
        cases hnone
  · rwa [hsame]

theorem Averaged.withinTick_applied_iff (h : Averaged sizePrecision pricePrecision o)
    (hpx : ∀ f ∈ ev.fill?, f.lastPx.precision = pricePrecision) (hwithin : o.WithinTick) :
    (o.applied ev).WithinTick ↔ o.RoundingFits ev := by
  by_cases hok : ∃ o', o.Accepts ev o'
  · have hacc : o.Accepts ev (o.applied ev) := by
      obtain ⟨o', ho'⟩ := hok
      rwa [Order.applied, apply_eq_ok_iff.mpr ho']
    cases hev : ev.fill? with
    | none =>
      obtain ⟨-, havg⟩ := hacc.filledQty_of_fill?_eq_none hev
      have hfills := hacc.fills_of_fill?_eq_none hev
      refine iff_of_true ?_ fun f hf ↦ ?_
      · rw [WithinTick, volumeWeighted, havg, hfills]
        exact hwithin
      · rw [hev] at hf
        cases hf
    | some f =>
      have hfilled := (h.filledQty_of_fill hacc hev).2
      rw [(h.applied hpx).withinTick_iff, hfilled, RoundingFits]
      simp only [hev, Option.mem_some_iff, forall_eq']
      refine ⟨fun hwithin _ hne ↦ ?_, fun hfits hne ↦ ?_⟩
      · rw [← h.carried_of_fill hacc hev (hpx f hev) hne]
        exact_mod_cast hwithin hne
      · rw [h.carried_of_fill hacc hev (hpx f hev) hne]
        exact_mod_cast hfits ⟨_, hacc⟩ hne
  · have hsame : o.applied ev = o := (applied_cases o ev).resolve_left fun hacc ↦ hok ⟨_, hacc⟩
    rw [hsame]
    exact iff_of_true hwithin fun f _ hacc ↦ absurd hacc hok

end Step

/-! ## Runs of calls -/

section Run

variable [DecimalWidth] {o₀ : Order} {pricePrecision : ℕ} {evs : List OrderEvent}

/-- **The average drifts when the roundings add up.** Take any calls on a fresh order, its fills
priced at one precision. The average is within a tick of the volume-weighted average of the fills
after every call exactly when each accepted fill finds that the error carried in and its own
rounding stay below a tick on the quantity filled then. -/
theorem withinTick_iff_along (hnew : o₀.IsNew)
    (hpx : ∀ ev ∈ evs, ∀ f ∈ ev.fill?, f.lastPx.precision = pricePrecision) :
    (∀ front, front <+: evs → (o₀.applyAll front).WithinTick) ↔
      Along Order.applied RoundingFits o₀ evs := by
  have hstart := averaged_of_isNew hnew pricePrecision
  have hwithin : o₀.WithinTick := by
    rw [hstart.withinTick_iff, hnew]
    exact fun hne ↦ absurd rfl hne
  have hstep : ∀ (o : Order) (ev : OrderEvent),
      (∀ f ∈ ev.fill?, f.lastPx.precision = pricePrecision) →
      Averaged o₀.quantity.precision pricePrecision o ∧ o.WithinTick →
      (Averaged o₀.quantity.precision pricePrecision (o.applied ev) ∧ (o.applied ev).WithinTick ↔
        o.RoundingFits ev) := by
    intro o ev hev h
    rw [and_iff_right (h.1.applied hev)]
    exact h.1.withinTick_applied_iff hev h.2
  have hrun := forall_prefix_iff_along_of_mem
    (A := fun ev : OrderEvent ↦ ∀ f ∈ ev.fill?, f.lastPx.precision = pricePrecision)
    hstep hpx ⟨hstart, hwithin⟩
  rw [← hrun]
  refine ⟨fun h front hfront ↦ ⟨?_, h front hfront⟩, fun h front hfront ↦ (h front hfront).2⟩
  have hfront' : ∀ ev ∈ front, ∀ f ∈ ev.fill?, f.lastPx.precision = pricePrecision :=
    fun ev hev ↦ hpx ev (hfront.subset hev)
  have hrun : Along Order.applied
      (fun _ ev ↦ ∀ f ∈ ev.fill?, f.lastPx.precision = pricePrecision) o₀ front :=
    along_of_forall_mem hfront'
  exact hrun.induction (fun o ev h hev ↦ h.applied hev) hstart

end Run

section Instances

open scoped RustDecimal

/-- A market buy of a hundred and three lots. -/
def buyMany : Order :=
  Order.new ⟨"S"⟩ ⟨"S-1"⟩ ⟨⟨"BTCUSDT"⟩, ⟨"SIM"⟩⟩ .buy .market ⟨103, 0⟩ none none .gtc {} 0

/-- A fill of `buyMany`. -/
def buyManyFill (tradeId : String) (px : ℤ) (qty : ℕ) : Fill :=
  { buyTwoFill tradeId qty with lastPx := ⟨px, 0⟩ }

/-- A hundred lots at ten, then one lot after the other at sixty. -/
def buyManyEvents : List OrderEvent :=
  [.submitted 1, .accepted ⟨"V-1"⟩ 2, .partiallyFilled (buyManyFill "T-1" 10 100),
    .partiallyFilled (buyManyFill "T-2" 60 1), .partiallyFilled (buyManyFill "T-3" 60 1),
    .filled (buyManyFill "T-4" 60 1)]

/-- Two lots at sixty still fit. -/
theorem withinTick_iff_along_buyMany :
    (∀ front, front <+: buyManyEvents.take 5 → (buyMany.applyAll front).WithinTick) ↔
      Along Order.applied RoundingFits buyMany (buyManyEvents.take 5) :=
  withinTick_iff_along isNew_new
    (show ∀ ev ∈ buyManyEvents.take 5, ∀ f ∈ ev.fill?, f.lastPx.precision = 0 by decide)

/-- The third does not: the mean is 11.46, the average still says 10. -/
theorem not_withinTick_buyMany :
    ¬∀ (o₀ : Order) (evs : List OrderEvent) (pricePrecision : ℕ), o₀.IsNew →
      (∀ ev ∈ evs, ∀ f ∈ ev.fill?, f.lastPx.precision = pricePrecision) →
      (o₀.applyAll evs).WithinTick := by
  intro h
  have hwithin := h buyMany buyManyEvents 0 isNew_new (by decide)
  exact absurd hwithin (by decide +kernel)

end Instances

end Order

end Coinext
