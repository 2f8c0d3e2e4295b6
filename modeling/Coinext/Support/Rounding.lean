import Mathlib.Algebra.Order.Round
import Mathlib.Algebra.Order.Ring.Rat
import Mathlib.Data.Int.ConditionallyCompleteOrder
import Mathlib.Data.Rat.Floor
import Mathlib.Tactic.Linarith

/-!
# Rounding half to even

Decimal arithmetic libraries round a midpoint to its even neighbour. Mathlib's `round` sends a
midpoint up, so the two agree except on midpoints above an even integer; that difference is the
definition, and every property below is read off `round` together with that one exceptional case.

Half-even rounding is monotone and exact on integers, hence it never leaves an integer interval. It
is *not* translation invariant: shifting a midpoint by an odd integer changes the parity of its
floor, and with it the direction of the rounding.
-/

variable {K : Type*} [Field K] [LinearOrder K] [IsStrictOrderedRing K] [FloorRing K]

/-- The nearest integer, midpoints going to the even neighbour. -/
def roundHalfEven (x : K) : ℤ :=
  if Int.fract x = 1 / 2 ∧ Even ⌊x⌋ then ⌊x⌋ else round x

theorem roundHalfEven_le_round (x : K) : roundHalfEven x ≤ round x := by
  unfold roundHalfEven
  split_ifs with h
  · rw [round_eq]
    exact Int.floor_le_floor (by linarith)
  · exact le_rfl

theorem abs_sub_roundHalfEven (x : K) : |x - roundHalfEven x| ≤ 1 / 2 := by
  unfold roundHalfEven
  split_ifs with h
  · rw [Int.self_sub_floor, h.1, abs_of_pos (by norm_num)]
  · exact abs_sub_round x

@[simp] theorem roundHalfEven_intCast (n : ℤ) : roundHalfEven (n : K) = n := by
  rw [roundHalfEven, if_neg, round_intCast]
  rintro ⟨h, -⟩
  rw [Int.fract_intCast] at h
  norm_num at h

@[simp] theorem roundHalfEven_zero : roundHalfEven (0 : K) = 0 := by
  simpa using roundHalfEven_intCast (K := K) 0

theorem roundHalfEven_mono : Monotone (roundHalfEven : K → ℤ) := by
  intro x y hxy
  have hround : round x ≤ round y := by
    rw [round_eq, round_eq]
    exact Int.floor_le_floor (by linarith)
  by_cases hy : Int.fract y = 1 / 2 ∧ Even ⌊y⌋
  · rcases hxy.eq_or_lt with rfl | hlt
    · exact le_rfl
    -- strictly below a midpoint, `round` already stops at the lower neighbour
    · have hfloor : round x ≤ ⌊y⌋ := by
        have hy' : y = ⌊y⌋ + 1 / 2 := by rw [← hy.1, Int.floor_add_fract]
        rw [round_eq, ← Int.lt_add_one_iff, Int.floor_lt]
        push_cast
        linarith
      have hval : roundHalfEven y = ⌊y⌋ := if_pos hy
      exact (roundHalfEven_le_round x).trans (hfloor.trans hval.ge)
  · have hval : roundHalfEven y = round y := if_neg hy
    exact (roundHalfEven_le_round x).trans (hround.trans hval.ge)

/-! ## Quotients of integers -/

/-- The quotient of two integers rounded half to even, from the remainder of the division. -/
def divHalfEven (m n : ℤ) : ℤ :=
  if 2 * (m % n) < n ∨ 2 * (m % n) = n ∧ Even (m / n) then m / n else m / n + 1

theorem roundHalfEven_div (m : ℤ) {n : ℤ} (hn : 0 < n) :
    roundHalfEven ((m : K) / n) = divHalfEven m n := by
  have hnK : (0 : K) < n := Int.cast_pos.mpr hn
  have hsplit : (m : K) / n = (m / n : ℤ) + (m % n : ℤ) / n := by
    rw [div_eq_iff hnK.ne', add_mul, div_mul_cancel₀ _ hnK.ne', mul_comm]
    exact_mod_cast (Int.mul_ediv_add_emod m n).symm
  have hrem : (0 : K) ≤ (m % n : ℤ) / n :=
    div_nonneg (Int.cast_nonneg (Int.emod_nonneg m hn.ne')) hnK.le
  have hrem' : ((m % n : ℤ) : K) / n < 1 := by
    rw [div_lt_one hnK]
    exact Int.cast_lt.mpr (Int.emod_lt_of_pos m hn)
  have hfloor : ⌊(m : K) / n⌋ = m / n := by
    rw [hsplit, Int.floor_intCast_add, Int.floor_eq_zero_iff.mpr ⟨hrem, hrem'⟩, add_zero]
  have hfract : Int.fract ((m : K) / n) = (m % n : ℤ) / n := by
    rw [← Int.self_sub_floor, hfloor, hsplit, add_sub_cancel_left]
  have hhalf : ((m % n : ℤ) : K) / n = 1 / 2 ↔ 2 * (m % n) = n := by
    rw [div_eq_div_iff hnK.ne' two_ne_zero, one_mul, mul_comm]
    exact_mod_cast Iff.rfl
  have hbelow : ((m % n : ℤ) : K) / n < 1 / 2 ↔ 2 * (m % n) < n := by
    rw [div_lt_div_iff₀ hnK two_pos, one_mul, mul_comm]
    exact_mod_cast Iff.rfl
  unfold roundHalfEven divHalfEven
  simp only [hfract, hfloor, hhalf]
  by_cases htie : 2 * (m % n) = n ∧ Even (m / n)
  · rw [if_pos htie, if_pos (.inr htie)]
  · rw [if_neg htie, round_eq, hsplit, add_assoc, Int.floor_intCast_add]
    by_cases hlow : 2 * (m % n) < n
    · rw [if_pos (.inl hlow), Int.floor_eq_zero_iff.mpr ⟨by linarith, ?_⟩, add_zero]
      linarith [hbelow.mpr hlow]
    · rw [if_neg (not_or.mpr ⟨hlow, htie⟩), Int.floor_eq_iff.mpr ⟨?_, ?_⟩]
      · push_cast
        linarith [not_lt.mp (mt hbelow.mp hlow)]
      · push_cast
        linarith
