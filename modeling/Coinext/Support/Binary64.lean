import Coinext.Support.Rounding
import Mathlib.Data.Int.Log
import Mathlib.Tactic.NormNum
import Mathlib.Tactic.Positivity

/-!
# Rounding to binary64

The numbers of the format are the integers of at most 53 bits times a power of two that is not too
small. `nearest` rounds a number to the multiple of its own `ulp`, with ties to even; the bound on
the exponent is left to the operations that use it.

What is proved is how the product of a natural number and a number of the format compares with the
natural number: rounding does not carry it across (`nearest_mul_lt`, `le_nearest_mul`).
-/

namespace Binary64

/-- The distance of the numbers of the format at `x`. -/
def ulp (x : ℚ) : ℚ := 2 ^ max (Int.log 2 |x| - 52) (-1074)

/-- The nearest number of the format. -/
def nearest (x : ℚ) : ℚ := roundHalfEven (x / ulp x) * ulp x

/-- A number of the format. -/
def Representable (x : ℚ) : Prop := ∃ m k : ℤ, |m| < 2 ^ 53 ∧ -1074 ≤ k ∧ x = m * 2 ^ k

theorem ulp_pos (x : ℚ) : 0 < ulp x := zpow_pos two_pos _

theorem abs_sub_nearest (x : ℚ) : |x - nearest x| ≤ ulp x / 2 := by
  have hpos := ulp_pos x
  have hround := abs_sub_roundHalfEven (x / ulp x)
  have hscale : x - nearest x = (x / ulp x - roundHalfEven (x / ulp x)) * ulp x := by
    rw [nearest, sub_mul, div_mul_cancel₀ _ hpos.ne']
  rw [hscale, abs_mul, abs_of_pos hpos]
  calc |x / ulp x - roundHalfEven (x / ulp x)| * ulp x ≤ 1 / 2 * ulp x :=
        mul_le_mul_of_nonneg_right hround hpos.le
    _ = ulp x / 2 := by ring

theorem le_nearest {x : ℚ} {z : ℤ} (h : z * ulp x ≤ x) : z * ulp x ≤ nearest x := by
  have hpos := ulp_pos x
  have hz : (z : ℚ) ≤ x / ulp x := (le_div_iff₀ hpos).mpr h
  have hround : z ≤ roundHalfEven (x / ulp x) := by
    have hmono := roundHalfEven_mono hz
    rwa [roundHalfEven_intCast] at hmono
  exact mul_le_mul_of_nonneg_right (Int.cast_le.mpr hround) hpos.le

theorem nearest_le {x : ℚ} {z : ℤ} (h : x ≤ z * ulp x) : nearest x ≤ z * ulp x := by
  have hpos := ulp_pos x
  have hz : x / ulp x ≤ (z : ℚ) := (div_le_iff₀ hpos).mpr h
  have hround : roundHalfEven (x / ulp x) ≤ z := by
    have hmono := roundHalfEven_mono hz
    rwa [roundHalfEven_intCast] at hmono
  exact mul_le_mul_of_nonneg_right (Int.cast_le.mpr hround) hpos.le

theorem nearest_nonpos {x : ℚ} (h : x ≤ 0) : nearest x ≤ 0 := by
  have hle := nearest_le (x := x) (z := 0) (by simpa using h)
  simpa using hle

theorem ulp_of_one_le {x : ℚ} (h : 1 ≤ x) : ulp x = 2 ^ (Int.log 2 x - 52) := by
  have hlog : 0 ≤ Int.log 2 x := by
    have hmono := Int.log_mono_right (b := 2) one_pos h
    rwa [Int.log_one_right] at hmono
  rw [ulp, abs_of_pos (by linarith), max_eq_left (by omega)]

/-- Between a natural number of at most 53 bits and a number above it there is a multiple of the ulp
of the latter. -/
theorem exists_multiple {n : ℕ} (hn : n ≤ 2 ^ 53) {x : ℚ} (hx : 1 ≤ x) (hle : (n : ℚ) ≤ x) :
    ∃ z : ℤ, (n : ℚ) ≤ z * ulp x ∧ z * ulp x ≤ x := by
  have hpow : (2 : ℚ) ^ Int.log 2 x ≤ x := Int.zpow_log_le_self one_lt_two (by linarith)
  rw [ulp_of_one_le hx]
  rcases le_or_gt (Int.log 2 x) 52 with hlog | hlog
  · -- the ulp divides one
    obtain ⟨j, hj⟩ := Int.eq_ofNat_of_zero_le (show 0 ≤ 52 - Int.log 2 x by omega)
    have heq : ((n * 2 ^ j : ℤ) : ℚ) * 2 ^ (Int.log 2 x - 52) = n := by
      rw [show Int.log 2 x - 52 = -(j : ℤ) by omega, zpow_neg, zpow_natCast]
      push_cast
      field_simp
    exact ⟨n * 2 ^ j, heq.ge, heq.le.trans hle⟩
  · -- the power of two below `x` is between them
    have heq : ((2 ^ 52 : ℤ) : ℚ) * 2 ^ (Int.log 2 x - 52) = 2 ^ Int.log 2 x := by
      rw [zpow_sub₀ two_ne_zero]
      push_cast
      exact mul_div_cancel₀ _ (by positivity)
    refine ⟨2 ^ 52, ?_, heq.le.trans hpow⟩
    rw [heq]
    calc (n : ℚ) ≤ 2 ^ (53 : ℤ) := by exact_mod_cast hn
      _ ≤ 2 ^ Int.log 2 x := zpow_le_zpow_right₀ one_le_two (by omega)

theorem nearest_natCast {n : ℕ} (hn : n ≤ 2 ^ 53) : nearest n = n := by
  rcases Nat.eq_zero_or_pos n with rfl | hpos
  · simp [nearest]
  obtain ⟨z, hle, hge⟩ := exists_multiple hn (Nat.one_le_cast.mpr hpos) le_rfl
  have hz : (n : ℚ) = z * ulp n := le_antisymm hle hge
  exact le_antisymm ((nearest_le hz.le).trans hge) (hle.trans (le_nearest hge))

theorem Representable.le_of_lt_one {q : ℚ} (h : Representable q) (hlt : q < 1) :
    q ≤ 1 - 2 ^ (-53 : ℤ) := by
  obtain ⟨m, k, hm, -, rfl⟩ := h
  have hk : (0 : ℚ) < 2 ^ k := zpow_pos two_pos k
  rcases le_or_gt (-53) k with hlarge | hsmall
  · -- it is a multiple of `2⁻⁵³`
    obtain ⟨j, hj⟩ := Int.eq_ofNat_of_zero_le (show 0 ≤ k + 53 by omega)
    have heq : (m : ℚ) * 2 ^ k = ((m * 2 ^ j : ℤ) : ℚ) * 2 ^ (-53 : ℤ) := by
      rw [show k = (j : ℤ) + -53 by omega, zpow_add₀ two_ne_zero, zpow_natCast]
      push_cast
      ring
    rw [heq] at hlt ⊢
    have hbelow : (m * 2 ^ j : ℤ) < 2 ^ 53 := by
      have hnum : ((m * 2 ^ j : ℤ) : ℚ) < 2 ^ 53 := by
        rw [zpow_neg, ← div_eq_mul_inv, div_lt_one (by positivity)] at hlt
        exact_mod_cast hlt
      exact_mod_cast hnum
    have hnum : ((m * 2 ^ j : ℤ) : ℚ) ≤ 2 ^ 53 - 1 := by
      exact_mod_cast Int.le_sub_one_of_lt hbelow
    calc ((m * 2 ^ j : ℤ) : ℚ) * 2 ^ (-53 : ℤ) ≤ (2 ^ 53 - 1) * 2 ^ (-53 : ℤ) :=
          mul_le_mul_of_nonneg_right hnum (by positivity)
      _ = 1 - 2 ^ (-53 : ℤ) := by norm_num
  · -- it is below one half
    have hpow : (2 : ℚ) ^ k ≤ 2 ^ (-54 : ℤ) := zpow_le_zpow_right₀ one_le_two (by omega)
    have hmq : (m : ℚ) ≤ 2 ^ 53 := by
      exact_mod_cast (le_abs_self m).trans hm.le
    calc (m : ℚ) * 2 ^ k ≤ 2 ^ 53 * 2 ^ (-54 : ℤ) :=
          mul_le_mul hmq hpow hk.le (by positivity)
      _ ≤ 1 - 2 ^ (-53 : ℤ) := by norm_num

/-! ## Products with natural numbers -/

theorem nearest_mul_lt {n : ℕ} (hn : 0 < n) {q : ℚ} (hq : Representable q) (hlt : q < 1) :
    nearest (n * q) < n := by
  have hnq : (0 : ℚ) < n := Nat.cast_pos.mpr hn
  have hone : (1 : ℚ) ≤ n := Nat.one_le_cast.mpr hn
  rcases le_or_gt (n * q) 0 with hnonpos | hpos
  · exact (nearest_nonpos hnonpos).trans_lt hnq
  have herror := (abs_le.mp (abs_sub_nearest (n * q))).1
  have hgap : (n : ℚ) * 2 ^ (-53 : ℤ) ≤ n - n * q := by
    have hle := mul_le_mul_of_nonneg_left (hq.le_of_lt_one hlt) hnq.le
    linarith
  have hbelow : n * q < n := by
    have hmul := mul_lt_mul_of_pos_left hlt hnq
    linarith
  -- half an ulp is less than what is missing
  have hulp : ulp (n * q) / 2 < n * 2 ^ (-53 : ℤ) := by
    rw [ulp, abs_of_pos hpos]
    rcases max_choice (Int.log 2 (n * q) - 52) (-1074) with hmax | hmax
    · rw [hmax]
      have hlog : (2 : ℚ) ^ Int.log 2 (n * q) ≤ n * q := Int.zpow_log_le_self one_lt_two hpos
      have hsplit : (2 : ℚ) ^ (Int.log 2 (n * q) - 52) / 2
          = 2 ^ Int.log 2 (n * q) * 2 ^ (-53 : ℤ) := by
        rw [zpow_sub₀ two_ne_zero]
        norm_num
        ring
      rw [hsplit]
      exact mul_lt_mul_of_pos_right (hlog.trans_lt hbelow) (by positivity)
    · rw [hmax]
      calc (2 : ℚ) ^ (-1074 : ℤ) / 2 < 2 ^ (-1074 : ℤ) := half_lt_self (zpow_pos two_pos _)
        _ < 2 ^ (-53 : ℤ) := zpow_lt_zpow_right₀ one_lt_two (by decide)
        _ ≤ n * 2 ^ (-53 : ℤ) := le_mul_of_one_le_left (by positivity) hone
  calc nearest (n * q) ≤ n * q + ulp (n * q) / 2 := by linarith only [herror]
    _ < n * q + n * 2 ^ (-53 : ℤ) := by gcongr
    _ ≤ n * q + (n - n * q) := by gcongr
    _ = n := add_sub_cancel _ _

theorem le_nearest_mul {n : ℕ} (hn : n ≤ 2 ^ 53) {q : ℚ} (hq : 1 ≤ q) :
    (n : ℚ) ≤ nearest (n * q) := by
  rcases Nat.eq_zero_or_pos n with rfl | hpos
  · simp [nearest]
  have hone : (1 : ℚ) ≤ n := Nat.one_le_cast.mpr hpos
  have hle : (n : ℚ) ≤ n * q := le_mul_of_one_le_right (by linarith) hq
  obtain ⟨z, hnz, hzx⟩ := exists_multiple hn (hone.trans hle) hle
  exact hnz.trans (le_nearest hzx)

end Binary64
