import Mathlib.Algebra.BigOperators.Group.List.Basic
import Mathlib.Algebra.Ring.Defs
import Mathlib.Data.List.DropRight
import Mathlib.Tactic.Ring

/-!
# Running totals

`accumulate` is the array of running totals of an array under an operation. Read as a function of
the index, it is `upTo`: the total grows by one entry at a time.

Sums over a window are differences of running sums, the running maximum of the marked indices is
the last marked index, and what is gained by holding a position is its value less what was paid for
it (`upTo_gains`).
-/

namespace Accumulate

variable {α : Type}

/-- The running totals from a first one. -/
def scan (f : α → α → α) (a : α) : List α → List α
  | [] => [a]
  | b :: l => a :: scan f (f a b) l

/-- The running totals. -/
def accumulate (f : α → α → α) : List α → List α
  | [] => []
  | a :: l => scan f a l

/-- The running total of a sequence. -/
def upTo (f : α → α → α) (g : ℕ → α) : ℕ → α
  | 0 => g 0
  | i + 1 => f (upTo f g i) (g (i + 1))

theorem scan_eq_scanl (f : α → α → α) (a : α) (l : List α) : scan f a l = l.scanl f a := by
  induction l generalizing a with
  | nil => simp [scan]
  | cons b l ih => rw [scan, ih, List.scanl_cons]

theorem length_accumulate (f : α → α → α) (l : List α) : (accumulate f l).length = l.length := by
  cases l with
  | nil => rfl
  | cons a l => rw [accumulate, scan_eq_scanl, List.length_scanl, List.length_cons]

theorem foldl_map_range (f : α → α → α) (g : ℕ → α) (i : ℕ) :
    ((List.range i).map fun j ↦ g (j + 1)).foldl f (g 0) = upTo f g i := by
  induction i with
  | zero => rfl
  | succ i ih =>
    rw [List.range_succ, List.map_append, List.foldl_append, ih]
    rfl

theorem accumulate_map_range (f : α → α → α) (g : ℕ → α) (n : ℕ) :
    accumulate f ((List.range n).map g) = (List.range n).map (upTo f g) := by
  refine List.ext_getElem (by simp [length_accumulate]) fun i hi hi' ↦ ?_
  have hlt : i < n := by simpa using hi'
  obtain ⟨m, rfl⟩ : ∃ m, n = m + 1 := ⟨n - 1, by omega⟩
  simp only [List.range_succ_eq_map, List.map_cons, List.map_map, accumulate, scan_eq_scanl,
    List.getElem_scanl]
  rw [← List.map_take, List.take_range, min_eq_left (Nat.le_of_lt_succ hlt)]
  refine (foldl_map_range f g i).trans ?_
  cases i <;> simp

theorem sum_map_range_succ [AddMonoid α] (g : ℕ → α) (i : ℕ) :
    ((List.range (i + 1)).map g).sum = upTo (· + ·) g i := by
  induction i with
  | zero => simp [upTo]
  | succ i ih =>
    rw [List.range_succ, List.map_append, List.sum_append, ih, List.map_singleton,
      List.sum_singleton]
    rfl

/-! ## Windows -/

/-- The running sums from zero: entry `i` is the sum of the first `i` elements. -/
theorem getElem?_accumulate_zero [AddMonoid α] (l : List α) {i : ℕ} (hi : i ≤ l.length) :
    (accumulate (· + ·) (0 :: l))[i]? = some (l.take i).sum := by
  rw [accumulate, scan_eq_scanl, List.getElem?_scanl, if_pos hi, List.sum_eq_foldl]

theorem sum_rtake_take [AddCommGroup α] (l : List α) {i p : ℕ} (h : i + p ≤ l.length) :
    ((l.take (i + p)).rtake p).sum = (l.take (i + p)).sum - (l.take i).sum := by
  have hstart : (l.take (i + p)).length - p = i := by
    rw [List.length_take, min_eq_left h, Nat.add_sub_cancel]
  have hsplit := List.sum_take_add_sum_drop (l.take (i + p)) i
  rw [List.take_take, min_eq_left (Nat.le_add_right i p)] at hsplit
  rw [List.rtake, hstart, ← hsplit, add_sub_cancel_left]

/-! ## Marks -/

/-- The last marked index up to `i`, and zero if there is none. -/
def lastMark (p : ℕ → Bool) : ℕ → ℕ
  | 0 => 0
  | i + 1 => if p (i + 1) then i + 1 else lastMark p i

theorem lastMark_le (p : ℕ → Bool) (i : ℕ) : lastMark p i ≤ i := by
  induction i with
  | zero => exact le_rfl
  | succ i ih =>
    rw [lastMark]
    split_ifs
    · exact le_rfl
    · exact ih.trans (Nat.le_succ i)

theorem upTo_max_marks (p : ℕ → Bool) (i : ℕ) :
    upTo max (fun j ↦ if p j then j else 0) i = lastMark p i := by
  induction i with
  | zero => simp [upTo, lastMark]
  | succ i ih =>
    have hle := lastMark_le p i
    rw [upTo, ih, lastMark]
    split_ifs <;> omega

/-! ## Gains -/

/-- A change of a sequence, from zero. -/
def change [Sub α] [Zero α] (x : ℕ → α) : ℕ → α
  | 0 => x 0 - 0
  | i + 1 => x (i + 1) - x i

/-- What holding `x i` from `i` to `i + 1` gains when the price moves. -/
def gain [CommRing α] (x price : ℕ → α) : ℕ → α
  | 0 => 0
  | i + 1 => x i * (price (i + 1) - price i)

theorem upTo_gains [CommRing α] (x price : ℕ → α) (i : ℕ) :
    upTo (· + ·) (gain x price) i
      = x i * price i - upTo (· + ·) (fun j ↦ change x j * price j) i := by
  induction i with
  | zero => simp [upTo, gain, change]
  | succ i ih =>
    simp only [upTo, ih, gain, change]
    ring

end Accumulate
