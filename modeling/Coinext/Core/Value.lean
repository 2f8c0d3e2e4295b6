import Coinext.Support.Mutation
import Coinext.Support.Rounding
import Mathlib.Data.Prod.Lex
import Mathlib.Tactic.FieldSimp
import Mathlib.Tactic.LinearCombination
import Mathlib.Tactic.Positivity
import Mathlib.Tactic.Ring

/-!
# Fixed-precision value types

Prices, quantities and money are an integer `raw` together with a number of decimal places, as in
`coinext-core`. Every conversion from a decimal goes through `quantize`, which rounds half to even
and fails when the result cannot be held.

## Decimals

`Decimal` arithmetic is read as exact rational arithmetic. What the library's 96-bit mantissa can
make fail is only looked at where the source looks at it, in `quantize`; its width is the parameter
`DecimalWidth`. With `DecimalWidth.exact` a decimal is an exact rational throughout, and the scale
check of `quantize` never fires; `DecimalWidth.rustDecimal` is the library's own width. A result
that does not mention the width holds for both.

## What the types guarantee

A `Quantity` cannot be negative: all its constructors check. A `Price` can, because
`Price.checkedSub` does not; `raw` is therefore an integer there. A `Currency` has a precision of at
most `maxPrecision`, since `Currency.new` is the only way to make one.
-/

namespace Coinext

/-- A decimal number, read as an exact rational. -/
abbrev Decimal := ℚ

/-- What made a value unrepresentable. -/
inductive RangeFault where
  | precision (precision : ℕ)
  | scale (d : Decimal) (precision : ℕ)
  | i64 (d : Decimal) (precision : ℕ)
deriving DecidableEq

/-- Which non-negative-only input was negative. -/
inductive NegativeFault where
  | priceRaw (raw : ℤ)
  | quantityRaw (raw : ℤ)
  | quantity (d : Decimal)
deriving DecidableEq

/-- The domain error. Messages that print a decimal keep the decimal instead of its rendering. -/
inductive ModelError where
  | outOfRange (fault : RangeFault)
  | negative (fault : NegativeFault)
  | overflow
  | currencyMismatch (a b : String)
  | precisionMismatch (a b : ℕ)
  | invalidTransition (message : String)
  | invalid (code : String)
deriving DecidableEq

/-- The largest supported number of decimal places. -/
def maxPrecision : ℕ := 18

theorem two_le_maxPrecision : 2 ≤ maxPrecision := by decide

theorem five_le_maxPrecision : 5 ≤ maxPrecision := by decide

theorem eight_le_maxPrecision : 8 ≤ maxPrecision := by decide

def i64Max : ℤ := 2 ^ 63 - 1

def i64Min : ℤ := -2 ^ 63

def i128Max : ℤ := 2 ^ 127 - 1

def i128Min : ℤ := -2 ^ 127

/-! ## Doubles -/

/-- A double. Finite ones are read as the number they stand for. -/
inductive F64 where
  | finite (q : ℚ)
  | nan
  | infinite (negative : Bool)
deriving DecidableEq

/-- `max(0.0)`, which is zero for a value that is no number. -/
def F64.maxZero : F64 → F64
  | finite q => finite (max q 0)
  | nan => finite 0
  | infinite true => finite 0
  | infinite false => infinite false

/-- Whether a double compares above zero. -/
def F64.isPositive : F64 → Bool
  | .finite q => 0 < q
  | .nan => false
  | .infinite negative => !negative

/-- Whether doubles compare as equal; a value that is no number is equal to none. -/
def F64.eq (a b : F64) : Bool := a ≠ .nan && a = b

/-! ## Quantization -/

/-- How large a mantissa a decimal can hold. -/
class DecimalWidth where
  /-- An exclusive bound on the magnitude of the mantissa; `none` for exact rationals. -/
  bound : Option ℕ

/-- Decimals as exact rationals. -/
@[reducible] def DecimalWidth.exact : DecimalWidth := ⟨none⟩

/-- The 96-bit mantissa of the decimal library. -/
@[reducible] def DecimalWidth.rustDecimal : DecimalWidth := ⟨some (2 ^ 96)⟩

namespace RustDecimal

/-- The width of the program as it is built, for evaluating it on concrete inputs. -/
scoped instance : DecimalWidth := DecimalWidth.rustDecimal

end RustDecimal

namespace ExactDecimal

/-- Exact rationals, for evaluating the results that are about them. -/
scoped instance : DecimalWidth := DecimalWidth.exact

end ExactDecimal

/-- Whether `rescale` can keep the mantissa `m` at the requested scale. -/
def DecimalWidth.fits [DecimalWidth] (m : ℤ) : Bool :=
  match DecimalWidth.bound with
  | none => true
  | some b => decide (m.natAbs < b)

theorem DecimalWidth.fits_of_exact [DecimalWidth] (h : DecimalWidth.bound = none) (m : ℤ) :
    DecimalWidth.fits m = true := by
  rw [DecimalWidth.fits, h]

theorem DecimalWidth.fits_mono [DecimalWidth] {m n : ℤ} (h : m.natAbs ≤ n.natAbs)
    (hn : DecimalWidth.fits n = true) : DecimalWidth.fits m = true := by
  unfold DecimalWidth.fits at hn ⊢
  cases hb : (DecimalWidth.bound : Option ℕ) with
  | none => rfl
  | some b =>
    rw [hb] at hn
    exact decide_eq_true (h.trans_lt (of_decide_eq_true hn))

/-- The value of one unit in the last of `p` decimal places. -/
def ulp (p : ℕ) : Decimal := 1 / 10 ^ p

/-- The mantissa of `d` at `p` decimal places. -/
def mantissa (d : Decimal) (p : ℕ) : ℤ := roundHalfEven (d * 10 ^ p)

def checkPrecision (precision : ℕ) : Except ModelError Unit :=
  if precision > maxPrecision then .error (.outOfRange (.precision precision)) else .ok ()

/-- Quantize a decimal to exactly `precision` places and return the integer mantissa. -/
def quantize [DecimalWidth] (d : Decimal) (precision : ℕ) : Except ModelError ℤ := do
  checkPrecision precision
  if DecimalWidth.fits (mantissa d precision) then
    .ok (mantissa d precision)
  else
    .error (.outOfRange (.scale d precision))

theorem ulp_pos (p : ℕ) : 0 < ulp p := by unfold ulp; positivity

theorem ulp_mul_pow (p : ℕ) : ulp p * 10 ^ p = 1 := by
  unfold ulp; field_simp

theorem abs_mantissa_mul_ulp_sub (d : Decimal) (p : ℕ) :
    |(mantissa d p : ℚ) * ulp p - d| ≤ ulp p / 2 := by
  have hround := abs_sub_roundHalfEven (d * 10 ^ p : ℚ)
  have hrescale : (mantissa d p : ℚ) * ulp p - d
      = -((d * 10 ^ p - mantissa d p) * ulp p) := by
    linear_combination d * ulp_mul_pow p
  rw [hrescale, abs_neg, abs_mul, abs_of_pos (ulp_pos p)]
  calc |d * 10 ^ p - mantissa d p| * ulp p
      ≤ 1 / 2 * ulp p := mul_le_mul_of_nonneg_right hround (ulp_pos p).le
    _ = ulp p / 2 := by ring

@[simp] theorem mantissa_mul_ulp (n : ℤ) (p : ℕ) : mantissa (n * ulp p) p = n := by
  rw [mantissa, mul_assoc, ulp_mul_pow, mul_one, roundHalfEven_intCast]

@[simp] theorem mantissa_zero (p : ℕ) : mantissa 0 p = 0 := by
  simpa using mantissa_mul_ulp 0 p

theorem mantissa_mono (p : ℕ) : Monotone fun d ↦ mantissa d p := fun _ _ h ↦
  roundHalfEven_mono (mul_le_mul_of_nonneg_right h (by positivity))

theorem mantissa_nonneg {d : Decimal} (h : 0 ≤ d) (p : ℕ) : 0 ≤ mantissa d p := by
  simpa using mantissa_mono p h

theorem le_mantissa {n : ℤ} {d : Decimal} {p : ℕ} (h : n * ulp p ≤ d) : n ≤ mantissa d p := by
  simpa using mantissa_mono p h

theorem mantissa_le {n : ℤ} {d : Decimal} {p : ℕ} (h : d ≤ n * ulp p) : mantissa d p ≤ n := by
  simpa using mantissa_mono p h

/-- Whether `d` has at most `p` decimal places. -/
def OnGrid (d : Decimal) (p : ℕ) : Prop := (mantissa d p : ℚ) * ulp p = d

instance (d : Decimal) (p : ℕ) : Decidable (OnGrid d p) := inferInstanceAs (Decidable (_ = _))

theorem onGrid_iff {d : Decimal} {p : ℕ} : OnGrid d p ↔ ∃ n : ℤ, d = n * ulp p := by
  refine ⟨fun h ↦ ⟨_, h.symm⟩, ?_⟩
  rintro ⟨n, rfl⟩
  rw [OnGrid, mantissa_mul_ulp]

theorem OnGrid.add {d e : Decimal} {p : ℕ} (hd : OnGrid d p) (he : OnGrid e p) :
    OnGrid (d + e) p := by
  obtain ⟨m, rfl⟩ := onGrid_iff.mp hd
  obtain ⟨n, rfl⟩ := onGrid_iff.mp he
  refine onGrid_iff.mpr ⟨m + n, ?_⟩
  push_cast
  ring

theorem OnGrid.neg {d : Decimal} {p : ℕ} (hd : OnGrid d p) : OnGrid (-d) p := by
  obtain ⟨m, rfl⟩ := onGrid_iff.mp hd
  refine onGrid_iff.mpr ⟨-m, ?_⟩
  push_cast
  ring

theorem OnGrid.abs {d : Decimal} {p : ℕ} (hd : OnGrid d p) : OnGrid |d| p := by
  rcases abs_choice d with h | h
  · rwa [h]
  · rw [h]
    exact hd.neg

theorem OnGrid.zero (p : ℕ) : OnGrid 0 p := by simp [OnGrid]

theorem OnGrid.ulp_le {d : Decimal} {p : ℕ} (hd : OnGrid d p) (hpos : 0 < d) : ulp p ≤ d := by
  obtain ⟨n, rfl⟩ := onGrid_iff.mp hd
  have hn : (0 : ℚ) < n := pos_of_mul_pos_left hpos (ulp_pos p).le
  have hone : (1 : ℚ) ≤ n := by exact_mod_cast Int.cast_pos.mp hn
  exact le_mul_of_one_le_left (ulp_pos p).le hone

theorem checkPrecision_eq_ok_iff {p : ℕ} {u : Unit} :
    checkPrecision p = .ok u ↔ p ≤ maxPrecision := by
  unfold checkPrecision
  split_ifs with h
  · simpa using h
  · simpa using h

theorem quantize_eq_ok_iff [DecimalWidth] {d : Decimal} {p : ℕ} {m : ℤ} :
    quantize d p = .ok m ↔ p ≤ maxPrecision ∧ DecimalWidth.fits m = true ∧ m = mantissa d p := by
  rw [quantize, Except.bind_eq_ok_iff]
  simp only [checkPrecision_eq_ok_iff, exists_and_left, exists_const]
  refine and_congr_right fun _ ↦ ?_
  split_ifs with hfits
  · rw [Except.ok.injEq]
    exact ⟨fun h ↦ ⟨h ▸ hfits, h.symm⟩, fun h ↦ h.2.symm⟩
  · refine ⟨fun h ↦ (by cases h), ?_⟩
    rintro ⟨hm, rfl⟩
    exact absurd hm hfits

/-! ## Prices -/

/-- A price: `value = raw / 10 ^ precision`. -/
structure Price where
  raw : ℤ
  precision : ℕ
deriving DecidableEq

namespace Price

/-- The derived order compares `raw` first, and `precision` only between equal raws. -/
instance : LinearOrder Price :=
  LinearOrder.lift' (fun p ↦ toLex (p.raw, p.precision)) fun p q h ↦ by
    cases p; cases q; simpa using h

def fromRaw (raw : ℤ) (precision : ℕ) : Except ModelError Price := do
  checkPrecision precision
  if raw < 0 then .error (.negative (.priceRaw raw)) else .ok ⟨raw, precision⟩

def fromDecimal [DecimalWidth] (d : Decimal) (precision : ℕ) : Except ModelError Price := do
  let m ← quantize d precision
  if i64Min ≤ m ∧ m ≤ i64Max then fromRaw m precision
  else .error (.outOfRange (.i64 d precision))

def zero (precision : ℕ) : Price := ⟨0, precision⟩

def isZero (p : Price) : Bool := p.raw == 0

def asDecimal (p : Price) : Decimal := p.raw * ulp p.precision

def samePrecision (p o : Price) : Except ModelError Unit :=
  if p.precision ≠ o.precision then .error (.precisionMismatch p.precision o.precision) else .ok ()

def checkedAdd (p o : Price) : Except ModelError Price := do
  samePrecision p o
  if i64Min ≤ p.raw + o.raw ∧ p.raw + o.raw ≤ i64Max then .ok ⟨p.raw + o.raw, p.precision⟩
  else .error .overflow

/-- Unlike its `Quantity` counterpart, this neither saturates nor checks the sign. -/
def checkedSub (p o : Price) : Except ModelError Price := do
  samePrecision p o
  if i64Min ≤ p.raw - o.raw ∧ p.raw - o.raw ≤ i64Max then .ok ⟨p.raw - o.raw, p.precision⟩
  else .error .overflow

@[simp] theorem asDecimal_zero (p : ℕ) : (zero p).asDecimal = 0 := by simp [zero, asDecimal]

theorem asDecimal_pos {p : Price} : 0 < p.asDecimal ↔ 0 < p.raw := by
  rw [asDecimal, mul_pos_iff_of_pos_right (ulp_pos _), Int.cast_pos]

theorem asDecimal_nonneg {p : Price} (h : 0 ≤ p.raw) : 0 ≤ p.asDecimal :=
  mul_nonneg (Int.cast_nonneg h) (ulp_pos _).le

theorem le_iff {p o : Price} (h : p.precision = o.precision) : p ≤ o ↔ p.raw ≤ o.raw := by
  change toLex (p.raw, p.precision) ≤ toLex (o.raw, o.precision) ↔ _
  rw [Prod.Lex.toLex_le_toLex, h]
  simp only [le_rfl, and_true]
  exact le_iff_lt_or_eq.symm

theorem asDecimal_le_iff {p o : Price} (h : p.precision = o.precision) :
    p.asDecimal ≤ o.asDecimal ↔ p ≤ o := by
  rw [le_iff h, asDecimal, asDecimal, h, mul_le_mul_iff_of_pos_right (ulp_pos _), Int.cast_le]

theorem samePrecision_eq_ok_iff {p o : Price} {u : Unit} :
    p.samePrecision o = .ok u ↔ p.precision = o.precision := by
  unfold samePrecision
  split_ifs with h
  · simp [h]
  · simpa using h

theorem checkedAdd_eq_ok_iff {p o q : Price} : p.checkedAdd o = .ok q ↔
    p.precision = o.precision ∧ i64Min ≤ p.raw + o.raw ∧ p.raw + o.raw ≤ i64Max ∧
      q = ⟨p.raw + o.raw, p.precision⟩ := by
  rw [checkedAdd, Except.bind_eq_ok_iff]
  simp only [samePrecision_eq_ok_iff, exists_and_left, exists_const]
  refine and_congr_right fun _ ↦ ?_
  split_ifs with h
  · simp [h, eq_comm]
  · exact ⟨(fun heq ↦ nomatch heq), fun hq ↦ absurd ⟨hq.1, hq.2.1⟩ h⟩

theorem checkedSub_eq_ok_iff {p o q : Price} : p.checkedSub o = .ok q ↔
    p.precision = o.precision ∧ i64Min ≤ p.raw - o.raw ∧ p.raw - o.raw ≤ i64Max ∧
      q = ⟨p.raw - o.raw, p.precision⟩ := by
  rw [checkedSub, Except.bind_eq_ok_iff]
  simp only [samePrecision_eq_ok_iff, exists_and_left, exists_const]
  refine and_congr_right fun _ ↦ ?_
  split_ifs with h
  · simp [h, eq_comm]
  · exact ⟨(fun heq ↦ nomatch heq), fun hq ↦ absurd ⟨hq.1, hq.2.1⟩ h⟩

theorem fromRaw_eq_ok_iff {raw : ℤ} {prec : ℕ} {p : Price} :
    fromRaw raw prec = .ok p ↔ prec ≤ maxPrecision ∧ 0 ≤ raw ∧ p = ⟨raw, prec⟩ := by
  rw [fromRaw, Except.bind_eq_ok_iff]
  simp only [checkPrecision_eq_ok_iff, exists_and_left, exists_const]
  refine and_congr_right fun _ ↦ ?_
  split_ifs with h
  · simp [not_le.mpr h]
  · simp [not_lt.mp h, eq_comm]

theorem onGrid_asDecimal (p : Price) : OnGrid p.asDecimal p.precision := onGrid_iff.mpr ⟨_, rfl⟩

theorem fromDecimal_eq_ok_iff [DecimalWidth] {d : Decimal} {prec : ℕ} {p : Price} :
    fromDecimal d prec = .ok p ↔ prec ≤ maxPrecision ∧
      DecimalWidth.fits (mantissa d prec) = true ∧ 0 ≤ mantissa d prec ∧
      mantissa d prec ≤ i64Max ∧ p = ⟨mantissa d prec, prec⟩ := by
  have hmin : i64Min ≤ 0 := by unfold i64Min; norm_num
  rw [fromDecimal, Except.bind_eq_ok_iff]
  constructor
  · rintro ⟨m, hq, h⟩
    obtain ⟨hprec, hfits, rfl⟩ := quantize_eq_ok_iff.mp hq
    split_ifs at h with hrange
    obtain ⟨-, h0, rfl⟩ := fromRaw_eq_ok_iff.mp h
    exact ⟨hprec, hfits, h0, hrange.2, rfl⟩
  · rintro ⟨hprec, hfits, h0, hmax, rfl⟩
    refine ⟨_, quantize_eq_ok_iff.mpr ⟨hprec, hfits, rfl⟩, ?_⟩
    rw [if_pos ⟨hmin.trans h0, hmax⟩]
    exact fromRaw_eq_ok_iff.mpr ⟨hprec, h0, rfl⟩

/-- A price that fixed-precision arithmetic at `precision` places can hold. -/
structure Held [DecimalWidth] (precision : ℕ) (p : Price) : Prop where
  precision_eq : p.precision = precision
  nonneg : 0 ≤ p.raw
  le_max : p.raw ≤ i64Max
  fits : DecimalWidth.fits p.raw = true

theorem asDecimal_fromDecimal [DecimalWidth] {d : Decimal} {prec : ℕ} {p : Price}
    (h : fromDecimal d prec = .ok p) (hd : OnGrid d prec) : p.asDecimal = d := by
  obtain ⟨-, -, -, -, rfl⟩ := fromDecimal_eq_ok_iff.mp h
  exact hd

theorem abs_asDecimal_fromDecimal_sub [DecimalWidth] {d : Decimal} {prec : ℕ} {p : Price}
    (h : fromDecimal d prec = .ok p) : |p.asDecimal - d| ≤ ulp prec / 2 := by
  obtain ⟨-, -, -, -, rfl⟩ := fromDecimal_eq_ok_iff.mp h
  exact abs_mantissa_mul_ulp_sub d prec

end Price

/-! ## Quantities -/

/-- A quantity: `value = raw / 10 ^ precision`. No constructor admits a negative `raw`. -/
structure Quantity where
  raw : ℕ
  precision : ℕ
deriving DecidableEq

namespace Quantity

def fromRaw (raw : ℤ) (precision : ℕ) : Except ModelError Quantity := do
  checkPrecision precision
  if raw < 0 then .error (.negative (.quantityRaw raw)) else .ok ⟨raw.toNat, precision⟩

def fromDecimal [DecimalWidth] (d : Decimal) (precision : ℕ) : Except ModelError Quantity := do
  if d < 0 then .error (.negative (.quantity d))
  else
    let m ← quantize d precision
    if i64Min ≤ m ∧ m ≤ i64Max then fromRaw m precision
    else .error (.outOfRange (.i64 d precision))

def zero (precision : ℕ) : Quantity := ⟨0, precision⟩

def isZero (q : Quantity) : Bool := q.raw == 0

def isPositive (q : Quantity) : Bool := decide (0 < q.raw)

def asDecimal (q : Quantity) : Decimal := q.raw * ulp q.precision

def samePrecision (q o : Quantity) : Except ModelError Unit :=
  if q.precision ≠ o.precision then .error (.precisionMismatch q.precision o.precision) else .ok ()

def checkedAdd (q o : Quantity) : Except ModelError Quantity := do
  samePrecision q o
  if (q.raw : ℤ) + o.raw ≤ i64Max then fromRaw (q.raw + o.raw) q.precision
  else .error .overflow

/-- Subtraction saturating at zero. -/
def checkedSub (q o : Quantity) : Except ModelError Quantity := do
  samePrecision q o
  if i64Min ≤ (q.raw : ℤ) - o.raw then fromRaw (max ((q.raw : ℤ) - o.raw) 0) q.precision
  else .error .overflow

@[simp] theorem asDecimal_zero (p : ℕ) : (zero p).asDecimal = 0 := by simp [zero, asDecimal]

theorem asDecimal_nonneg (q : Quantity) : 0 ≤ q.asDecimal :=
  mul_nonneg (Nat.cast_nonneg _) (ulp_pos _).le

theorem asDecimal_pos {q : Quantity} : 0 < q.asDecimal ↔ 0 < q.raw := by
  rw [asDecimal, mul_pos_iff_of_pos_right (ulp_pos _), Nat.cast_pos]

theorem asDecimal_le_iff {q o : Quantity} (h : q.precision = o.precision) :
    q.asDecimal ≤ o.asDecimal ↔ q.raw ≤ o.raw := by
  rw [asDecimal, asDecimal, h, mul_le_mul_iff_left₀ (ulp_pos _), Nat.cast_le]

theorem fromRaw_eq_ok_iff {raw : ℤ} {prec : ℕ} {q : Quantity} :
    fromRaw raw prec = .ok q ↔ prec ≤ maxPrecision ∧ 0 ≤ raw ∧ q = ⟨raw.toNat, prec⟩ := by
  rw [fromRaw, Except.bind_eq_ok_iff]
  simp only [checkPrecision_eq_ok_iff, exists_and_left, exists_const]
  refine and_congr_right fun _ ↦ ?_
  split_ifs with h
  · simp [not_le.mpr h]
  · simp [not_lt.mp h, eq_comm]

theorem samePrecision_eq_ok_iff {q o : Quantity} {u : Unit} :
    samePrecision q o = .ok u ↔ q.precision = o.precision := by
  unfold samePrecision
  split_ifs with h
  · simpa using h
  · simpa using h

theorem checkedAdd_eq_ok_iff {q o r : Quantity} :
    q.checkedAdd o = .ok r ↔ q.precision = o.precision ∧ (q.raw : ℤ) + o.raw ≤ i64Max ∧
      q.precision ≤ maxPrecision ∧ r = ⟨q.raw + o.raw, q.precision⟩ := by
  rw [checkedAdd, Except.bind_eq_ok_iff]
  simp only [samePrecision_eq_ok_iff, exists_and_left, exists_const]
  refine and_congr_right fun _ ↦ ?_
  split_ifs with hmax
  · have htoNat : ((q.raw : ℤ) + o.raw).toNat = q.raw + o.raw := by omega
    rw [fromRaw_eq_ok_iff, htoNat]
    exact ⟨fun h ↦ ⟨hmax, h.1, h.2.2⟩, fun h ↦ ⟨h.2.1, by omega, h.2.2⟩⟩
  · simp [hmax]

theorem checkedSub_eq_ok_iff {q o r : Quantity} (ho : (o.raw : ℤ) ≤ i64Max) :
    q.checkedSub o = .ok r ↔ q.precision = o.precision ∧ q.precision ≤ maxPrecision ∧
      r = ⟨q.raw - o.raw, q.precision⟩ := by
  have hmin : i64Min ≤ (q.raw : ℤ) - o.raw := by
    unfold i64Min; unfold i64Max at ho; omega
  have htoNat : (max ((q.raw : ℤ) - o.raw) 0).toNat = q.raw - o.raw := by omega
  rw [checkedSub, Except.bind_eq_ok_iff]
  simp only [samePrecision_eq_ok_iff, exists_and_left, exists_const, if_pos hmin]
  refine and_congr_right fun _ ↦ ?_
  rw [fromRaw_eq_ok_iff, htoNat]
  exact ⟨fun h ↦ ⟨h.1, h.2.2⟩, fun h ↦ ⟨h.1, by omega, h.2⟩⟩

theorem of_checkedSub {q o r : Quantity} (h : q.checkedSub o = .ok r) :
    r = ⟨q.raw - o.raw, q.precision⟩ := by
  obtain ⟨_, -, h⟩ := Except.bind_eq_ok_iff.mp h
  split_ifs at h
  obtain ⟨-, -, rfl⟩ := fromRaw_eq_ok_iff.mp h
  have htoNat : (max ((q.raw : ℤ) - o.raw) 0).toNat = q.raw - o.raw := by omega
  rw [htoNat]

theorem fromDecimal_eq_ok_iff [DecimalWidth] {d : Decimal} {prec : ℕ} {q : Quantity} :
    fromDecimal d prec = .ok q ↔ 0 ≤ d ∧ prec ≤ maxPrecision ∧
      DecimalWidth.fits (mantissa d prec) = true ∧ mantissa d prec ≤ i64Max ∧
      q = ⟨(mantissa d prec).toNat, prec⟩ := by
  have hmin : i64Min ≤ 0 := by unfold i64Min; norm_num
  unfold fromDecimal
  split_ifs with hd
  · simp [not_le.mpr hd]
  · have hm0 : 0 ≤ mantissa d prec := mantissa_nonneg (not_lt.mp hd) prec
    rw [Except.bind_eq_ok_iff]
    constructor
    · rintro ⟨m, hq, h⟩
      obtain ⟨hprec, hfits, rfl⟩ := quantize_eq_ok_iff.mp hq
      split_ifs at h with hrange
      obtain ⟨-, -, rfl⟩ := fromRaw_eq_ok_iff.mp h
      exact ⟨not_lt.mp hd, hprec, hfits, hrange.2, rfl⟩
    · rintro ⟨-, hprec, hfits, hmax, rfl⟩
      refine ⟨_, quantize_eq_ok_iff.mpr ⟨hprec, hfits, rfl⟩, ?_⟩
      rw [if_pos ⟨hmin.trans hm0, hmax⟩]
      exact fromRaw_eq_ok_iff.mpr ⟨hprec, hm0, rfl⟩

theorem onGrid_asDecimal (q : Quantity) : OnGrid q.asDecimal q.precision :=
  onGrid_iff.mpr ⟨q.raw, by simp [asDecimal]⟩

theorem asDecimal_fromDecimal [DecimalWidth] {d : Decimal} {prec : ℕ} {q : Quantity}
    (h : fromDecimal d prec = .ok q) (hd : OnGrid d prec) : q.asDecimal = d := by
  obtain ⟨h0, -, -, -, rfl⟩ := fromDecimal_eq_ok_iff.mp h
  have hcast : ((mantissa d prec).toNat : ℚ) = mantissa d prec := by
    exact_mod_cast congrArg (Int.cast (R := ℚ)) (Int.toNat_of_nonneg (mantissa_nonneg h0 prec))
  rw [asDecimal, hcast]
  exact hd

theorem mantissa_asDecimal (q : Quantity) : mantissa q.asDecimal q.precision = q.raw := by
  have h := mantissa_mul_ulp (q.raw : ℤ) q.precision
  rwa [Int.cast_natCast] at h

/-- Whether a quantity is zero or the result of a conversion. -/
def Made [DecimalWidth] (q : Quantity) : Prop :=
  q.raw = 0 ∨ ∃ d, fromDecimal d q.precision = .ok q

theorem made_zero [DecimalWidth] (p : ℕ) : (zero p).Made := .inl rfl

theorem made_of_fromDecimal [DecimalWidth] {d : Decimal} {p : ℕ} {q : Quantity}
    (h : fromDecimal d p = .ok q) : q.Made := by
  have hp : q.precision = p := by
    obtain ⟨-, -, -, -, rfl⟩ := fromDecimal_eq_ok_iff.mp h
    rfl
  exact .inr ⟨d, hp ▸ h⟩

theorem Made.fromDecimal_asDecimal [DecimalWidth] {q : Quantity} (h : q.Made) {m : ℤ}
    (hp : q.precision ≤ maxPrecision) (hm : DecimalWidth.fits m = true) :
    fromDecimal q.asDecimal q.precision = .ok q := by
  refine fromDecimal_eq_ok_iff.mpr ⟨q.asDecimal_nonneg, hp, ?_⟩
  rw [mantissa_asDecimal]
  rcases h with h0 | ⟨d, hd⟩
  · refine ⟨DecimalWidth.fits_mono (by simp [h0]) hm, ?_, rfl⟩
    rw [h0]
    decide
  · obtain ⟨hd0, -, hfits, hmax, hq⟩ := fromDecimal_eq_ok_iff.mp hd
    have hraw : (q.raw : ℤ) = mantissa d q.precision := by
      rw [congrArg Quantity.raw hq]
      exact Int.toNat_of_nonneg (mantissa_nonneg hd0 _)
    rw [hraw]
    exact ⟨hfits, hmax, by rw [← hraw]; rfl⟩

end Quantity

/-! ## Currencies and money -/

/-- A currency code with its native precision. Equality compares both. The source keeps the code in
a zero-padded buffer of eight bytes; codes contain no zero byte, so the buffer and the text
determine each other. -/
structure Currency where
  code : String
  precision : ℕ
  /-- `Currency::new` rejects anything larger. -/
  precision_le : precision ≤ maxPrecision
deriving DecidableEq

def Currency.new (code : String) (precision : ℕ) : Except ModelError Currency :=
  if hp : precision ≤ maxPrecision then
    if code.utf8ByteSize = 0 ∨ code.utf8ByteSize > 8 then .error (.invalid code)
    else .ok ⟨code, precision, hp⟩
  else .error (.outOfRange (.precision precision))

theorem Currency.new_eq_ok_iff {code : String} {precision : ℕ} {c : Currency} :
    Currency.new code precision = .ok c ↔
      (0 < code.utf8ByteSize ∧ code.utf8ByteSize ≤ 8)
        ∧ c.code = code ∧ c.precision = precision := by
  unfold Currency.new
  split_ifs with hp hlength
  · refine ⟨fun h ↦ (by cases h), fun h ↦ ?_⟩
    omega
  · constructor
    · rintro ⟨⟩
      exact ⟨by omega, rfl, rfl⟩
    · rintro ⟨-, rfl, rfl⟩
      rfl
  · refine ⟨fun h ↦ (by cases h), ?_⟩
    rintro ⟨-, -, rfl⟩
    exact absurd c.precision_le hp

/-- A signed amount in a currency: `value = amount / 10 ^ currency.precision`. -/
structure Money where
  raw : ℤ
  currency : Currency
deriving DecidableEq

namespace Money

def fromDecimal [DecimalWidth] (d : Decimal) (currency : Currency) : Except ModelError Money := do
  let amount ← quantize d currency.precision
  .ok ⟨amount, currency⟩

def zero (currency : Currency) : Money := ⟨0, currency⟩

def isZero (m : Money) : Bool := m.raw == 0

def amount (m : Money) : Decimal := m.raw * ulp m.currency.precision

def sameCurrency (m o : Money) : Except ModelError Unit :=
  if m.currency ≠ o.currency then .error (.currencyMismatch m.currency.code o.currency.code)
  else .ok ()

def checkedAdd (m o : Money) : Except ModelError Money := do
  sameCurrency m o
  if i128Min ≤ m.raw + o.raw ∧ m.raw + o.raw ≤ i128Max then .ok ⟨m.raw + o.raw, m.currency⟩
  else .error .overflow

@[simp] theorem amount_zero (c : Currency) : (zero c).amount = 0 := by simp [zero, amount]

theorem fromDecimal_eq_ok_iff [DecimalWidth] {d : Decimal} {c : Currency} {m : Money} :
    fromDecimal d c = .ok m ↔
      DecimalWidth.fits (mantissa d c.precision) = true ∧ m = ⟨mantissa d c.precision, c⟩ := by
  rw [fromDecimal, Except.bind_eq_ok_iff]
  constructor
  · rintro ⟨n, hq, h⟩
    obtain ⟨-, hfits, rfl⟩ := quantize_eq_ok_iff.mp hq
    cases h
    exact ⟨hfits, rfl⟩
  · rintro ⟨hfits, rfl⟩
    exact ⟨_, quantize_eq_ok_iff.mpr ⟨c.precision_le, hfits, rfl⟩, rfl⟩

theorem onGrid_amount (m : Money) : OnGrid m.amount m.currency.precision :=
  onGrid_iff.mpr ⟨_, rfl⟩

theorem checkedAdd_eq_ok_iff {m o r : Money} :
    m.checkedAdd o = .ok r ↔ m.currency = o.currency ∧ i128Min ≤ m.raw + o.raw ∧
      m.raw + o.raw ≤ i128Max ∧ r = ⟨m.raw + o.raw, m.currency⟩ := by
  unfold checkedAdd sameCurrency
  rw [Except.bind_eq_ok_iff]
  by_cases hc : m.currency = o.currency
  · simp only [hc, ne_eq, not_true_eq_false, if_false, exists_const, true_and]
    split_ifs with hrange
    · simp [hrange, eq_comm]
    · refine ⟨fun h ↦ by simp at h, fun h ↦ absurd ⟨h.1, h.2.1⟩ hrange⟩
  · simp [hc]

end Money

end Coinext
