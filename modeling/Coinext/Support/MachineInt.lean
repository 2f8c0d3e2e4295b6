import Mathlib.Algebra.Order.Ring.Int
import Mathlib.Data.Int.Init
import Mathlib.Tactic.Common

/-!
# Arithmetic on machine integers

An operation on integers of a fixed width has a result that may not fit. What happens then depends
on the build profile: the program panics, or the result is wrapped. An `OnOverflow` says which; a
panic is `none`. A conversion to another width truncates in either profile.

`Returns c P` says that a computation does not panic and that its value has a property. The rules
for the operations say that results which fit are exact, in either profile; a proof follows the
computation with them, step by step (`Returns.bind`).
-/

namespace Coinext

/-! ## Widths -/

/-- A type of integers of a fixed width. -/
class MachineInt (α : Type) where
  toInt : α → ℤ
  /-- The integer that a number is truncated to. -/
  ofInt : ℤ → α
  min : ℤ
  max : ℤ
  min_nonpos : min ≤ 0
  min_le : ∀ x, min ≤ toInt x
  le_max : ∀ x, toInt x ≤ max
  toInt_ofInt : ∀ n, min ≤ n → n ≤ max → toInt (ofInt n) = n

/-- What an operation does whose result does not fit. -/
inductive OnOverflow where
  | panics
  | wraps

namespace MachineInt

instance : MachineInt Int64 where
  toInt := Int64.toInt
  ofInt := Int64.ofInt
  min := -2 ^ 63
  max := 2 ^ 63 - 1
  min_nonpos := by decide
  min_le := Int64.le_toInt
  le_max x := Int.le_sub_one_of_lt x.toInt_lt
  toInt_ofInt _ hmin hmax := Int64.toInt_ofInt_of_le hmin (Int.lt_of_le_sub_one hmax)

instance : MachineInt UInt64 where
  toInt x := x.toNat
  ofInt := UInt64.ofInt
  min := 0
  max := 2 ^ 64 - 1
  min_nonpos := le_rfl
  min_le x := Int.natCast_nonneg x.toNat
  le_max x := by
    have hlt := x.toNat_lt
    omega
  toInt_ofInt n hmin hmax := by
    rw [UInt64.ofInt, UInt64.toNat_ofNat', Int.emod_eq_of_lt hmin (Int.lt_of_le_sub_one hmax)]
    omega

instance : MachineInt UInt32 where
  toInt x := x.toNat
  ofInt := UInt32.ofInt
  min := 0
  max := 2 ^ 32 - 1
  min_nonpos := le_rfl
  min_le x := Int.natCast_nonneg x.toNat
  le_max x := by
    have hlt := x.toNat_lt
    omega
  toInt_ofInt n hmin hmax := by
    rw [UInt32.ofInt, UInt32.toNat_ofNat', Int.emod_eq_of_lt hmin (Int.lt_of_le_sub_one hmax)]
    omega

variable {α β : Type} [MachineInt α] [MachineInt β]

/-- Whether a number fits. -/
def Fits (α : Type) [MachineInt α] (n : ℤ) : Prop := min α ≤ n ∧ n ≤ max α

instance (n : ℤ) : Decidable (Fits α n) := inferInstanceAs (Decidable (_ ∧ _))

theorem fits_toInt (x : α) : Fits α (toInt x) := ⟨min_le x, le_max x⟩

theorem fits_of_le {m n : ℕ} (h : m ≤ n) (hn : Fits α n) : Fits α m :=
  ⟨min_nonpos.trans (Int.natCast_nonneg m), (Int.ofNat_le.mpr h).trans hn.2⟩

theorem fits_int64 {n : ℕ} (h : n < 2 ^ 63) : Fits Int64 n := by
  refine ⟨?_, ?_⟩ <;> simp only [min, max] <;> omega

theorem fits_uint32 {n : ℕ} (h : n < 2 ^ 32) : Fits UInt32 n := by
  refine ⟨?_, ?_⟩ <;> simp only [min, max] <;> omega

/-! ## Numerals -/

theorem toInt_lit (n : ℕ) (h : n < 2 ^ 63) : toInt (OfNat.ofNat n : Int64) = n :=
  Int64.toInt_ofNat_of_lt h

theorem lt_lit_iff {x : Int64} {m n : ℕ} (hx : toInt x = m) (hn : n < 2 ^ 63) :
    x < OfNat.ofNat n ↔ m < n := by
  refine Int64.lt_iff_toInt_lt.trans ?_
  change toInt x < toInt (OfNat.ofNat n : Int64) ↔ m < n
  rw [hx, toInt_lit n hn, Int.ofNat_lt]

theorem le_lit_iff {x : Int64} {m n : ℕ} (hx : toInt x = m) (hn : n < 2 ^ 63) :
    x ≤ OfNat.ofNat n ↔ m ≤ n := by
  refine Int64.le_iff_toInt_le.trans ?_
  change toInt x ≤ toInt (OfNat.ofNat n : Int64) ↔ m ≤ n
  rw [hx, toInt_lit n hn, Int.ofNat_le]

/-! ## Operations -/

/-- The result of an operation. -/
def fit (o : OnOverflow) (n : ℤ) : Option α :=
  if Fits α n then some (ofInt n)
  else match o with
    | .panics => none
    | .wraps => some (ofInt n)

def add (o : OnOverflow) (x y : α) : Option α := fit o (toInt x + toInt y)

def sub (o : OnOverflow) (x y : α) : Option α := fit o (toInt x - toInt y)

def mul (o : OnOverflow) (x y : α) : Option α := fit o (toInt x * toInt y)

/-- The quotient, rounded towards zero. A division that fails panics in either profile. -/
def div (x y : α) : Option α :=
  if toInt y = 0 then none else fit .panics ((toInt x).tdiv (toInt y))

/-- The quotient that leaves a remainder which is not negative. -/
def divEuclid (x y : α) : Option α :=
  if toInt y = 0 then none else fit .panics (toInt x / toInt y)

/-- The conversion to another width. -/
def cast (x : α) : β := ofInt (toInt x)

theorem toInt_cast {x : α} (h : Fits β (toInt x)) : toInt (cast x : β) = toInt x :=
  toInt_ofInt _ h.1 h.2

end MachineInt

/-! ## Computations that return -/

/-- The computation does not panic, and its value has a property. -/
def Returns {α : Type} (c : Option α) (P : α → Prop) : Prop := ∃ x, c = some x ∧ P x

namespace Returns

variable {α β : Type}

theorem bind {c : Option α} {k : α → Option β} {P : α → Prop} {Q : β → Prop} (h : Returns c P)
    (hk : ∀ x, P x → Returns (k x) Q) : Returns (c >>= k) Q := by
  obtain ⟨x, rfl, hx⟩ := h
  exact hk x hx

end Returns

namespace MachineInt

variable {α : Type} [MachineInt α] {o : OnOverflow} {x y : α} {m n : ℕ}

theorem returns_fit {n : ℤ} (h : Fits α n) : Returns (fit o n : Option α) (toInt · = n) :=
  ⟨ofInt n, if_pos h, toInt_ofInt n h.1 h.2⟩

theorem returns_add (hx : toInt x = m) (hy : toInt y = n) (h : Fits α (m + n : ℕ)) :
    Returns (add o x y) (toInt · = (m + n : ℕ)) := by
  rw [add, hx, hy]
  exact returns_fit h

theorem returns_sub (hx : toInt x = m) (hy : toInt y = n) (h : n ≤ m) :
    Returns (sub o x y) (toInt · = (m - n : ℕ)) := by
  rw [sub, hx, hy, ← Int.ofNat_sub h]
  exact returns_fit (fits_of_le (Nat.sub_le m n) (hx ▸ fits_toInt x))

theorem returns_mul (hx : toInt x = m) (hy : toInt y = n) (h : Fits α (m * n : ℕ)) :
    Returns (mul o x y) (toInt · = (m * n : ℕ)) := by
  rw [mul, hx, hy]
  exact returns_fit h

theorem returns_div (hx : toInt x = m) (hy : toInt y = n) (hn : 0 < n) :
    Returns (div x y) (toInt · = (m / n : ℕ)) := by
  have hne : toInt y ≠ 0 := by omega
  rw [div, if_neg hne, hx, hy]
  exact returns_fit (fits_of_le (Nat.div_le_self m n) (hx ▸ fits_toInt x))

theorem returns_divEuclid (hx : toInt x = m) (hy : toInt y = n) (hn : 0 < n) :
    Returns (divEuclid x y) (toInt · = (m / n : ℕ)) := by
  have hne : toInt y ≠ 0 := by omega
  rw [divEuclid, if_neg hne, hx, hy]
  exact returns_fit (fits_of_le (Nat.div_le_self m n) (hx ▸ fits_toInt x))

end MachineInt

end Coinext
