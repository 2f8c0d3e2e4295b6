import Coinext.Core.Validity
import Coinext.Kernel.Arming

/-!
# Where an invalid value comes from

The context computes the trigger of a trailing stop by the two checked operations of prices. Of the
two ways to an invalid value the subtraction is the one it can take: a stop that sells stands below
the mark, and an offset that is larger than the mark puts it below zero
(`trailingTrigger_valid_iff`).
-/

namespace Coinext

open SimulatedExecutionClient

variable {side : OrderSide} {offset : Price} {m : Option Price}

/-- The trigger of a trailing stop is valid unless it stands below zero. -/
theorem trailingTrigger_valid_iff (hm : ∀ mark ∈ m, mark.Valid) (hoffset : offset.Valid)
    (hwidth : offset.raw ≤ i64Max) :
    (trailingTrigger m side offset).Valid ↔
      ¬ (side = .sell ∧ ∃ mark ∈ m, mark.precision = offset.precision ∧ mark.raw < offset.raw) := by
  by_cases hcomputes : Computes side offset m
  · obtain ⟨mark, rfl, hfits⟩ := hcomputes
    have hmark := hm mark rfl
    have hprec : mark.precision = offset.precision := by
      cases side <;> exact hfits.precision
    rw [trailingTrigger_of_computes rfl hfits, Price.valid_iff]
    cases side with
    | sell => simp [stopAt, hprec, hoffset.precision_le]
    | buy => simpa [stopAt, hmark.precision_le] using add_nonneg hmark.nonneg hoffset.nonneg
  · -- the offset itself stands in the place of the trigger
    rw [trailingTrigger_of_not_computes hcomputes]
    refine iff_of_true hoffset ?_
    rintro ⟨rfl, mark, hmem, hprec, hlt⟩
    have hnonneg := (hm mark hmem).nonneg
    refine hcomputes ⟨mark, hmem, hprec, ?_, ?_⟩
    · change i64Min ≤ mark.raw - offset.raw
      unfold i64Min
      unfold i64Max at hwidth
      omega
    · change mark.raw - offset.raw ≤ i64Max
      unfold i64Max
      omega

/-- **When values stay valid**: in a composition of prices, when no zero has too many places and no
subtraction takes away more than there is; in a composition of quantities, when no zero has too many
places; for the trigger of a trailing stop, when it does not stand below zero. -/
theorem values_valid_iff [DecimalWidth] (fromF64Retain : ℚ → Option Decimal) :
    (∀ e p, (Price.ops fromF64Retain).eval e = some p →
      ((∀ s ∈ e.parts, ∀ q, (Price.ops fromF64Retain).eval s = some q → q.Valid) ↔
        e.ZerosFit ∧ e.Covered fromF64Retain)) ∧
    (∀ e : ValueExpr, (∀ s ∈ e.parts, ∀ q, (Quantity.ops fromF64Retain).eval s = some q → q.Valid) ↔
      e.ZerosFit) ∧
    ∀ m side offset, (∀ mark ∈ m, mark.Valid) → offset.Valid → offset.raw ≤ i64Max →
      ((trailingTrigger m side offset).Valid ↔ ¬ (side = .sell ∧
        ∃ mark ∈ m, mark.precision = offset.precision ∧ mark.raw < offset.raw)) :=
  ⟨fun _ _ h ↦ Price.eval_valid_iff h, Quantity.eval_valid_iff,
    fun _ _ _ hm hoffset hwidth ↦ trailingTrigger_valid_iff hm hoffset hwidth⟩

section Instances

open scoped RustDecimal

/-- One less two, a zero with too many places, and a stop ten below a mark of five. -/
theorem values_not_valid :
    (¬ ∀ e p, (Price.ops some).eval e = some p → p.Valid) ∧
    (¬ ∀ e q, (Quantity.ops some).eval e = some q → q.Valid) ∧
    ¬ ∀ m side offset, (∀ mark ∈ m, mark.Valid) → offset.Valid → offset.raw ≤ i64Max →
      (trailingTrigger m side offset).Valid := by
  refine ⟨fun h ↦ ?_, fun h ↦ ?_, fun h ↦ ?_⟩
  · have hvalid := h (.sub (.fromRaw 1 2) (.fromRaw 2 2)) ⟨-1, 2⟩ (by decide)
    exact absurd hvalid.nonneg (by decide)
  · have hvalid := h (.zero 19) ⟨0, 19⟩ rfl
    exact absurd hvalid.precision_le (by decide)
  · have hmark : ∀ mark ∈ some (⟨5, 2⟩ : Price), mark.Valid := by
      rintro mark ⟨⟩
      exact Price.valid_iff.mpr (by decide)
    have hoffset : (⟨10, 2⟩ : Price).Valid := Price.valid_iff.mpr (by decide)
    have hvalid := h _ .sell _ hmark hoffset (by decide)
    have hbelow : trailingTrigger (some ⟨5, 2⟩) .sell ⟨10, 2⟩ = ⟨-5, 2⟩ := by decide
    rw [hbelow] at hvalid
    exact absurd hvalid.nonneg (by decide)

end Instances

end Coinext
