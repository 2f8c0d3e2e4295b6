import Mathlib.Algebra.BigOperators.Group.List.Basic
import Mathlib.Algebra.Order.BigOperators.Group.List
import Mathlib.Data.List.DropRight
import Mathlib.Data.Rat.Defs
import Mathlib.Tactic.FieldSimp
import Mathlib.Tactic.Linarith
import Mathlib.Tactic.Ring

/-!
# Sliding windows with running sums

A window keeps the last elements of a stream, up to its capacity, and a sum over them that is
updated by what comes in and by what goes out. `IsWindow` says that an update does this, and
`IsWindow.foldl` that after any stream the window has the last elements of it and the sum over them.

The second half is about the sums that windows are used for: the mean of a list, and the variance as
the mean of the squares less the square of the mean.
-/

namespace SlidingWindow

variable {σ α M : Type}

/-- Append an element, and take the first one off if there are more than `n`. -/
def slide (n : ℕ) (buf : List α) (x : α) : List α × Option α :=
  if n < (buf ++ [x]).length then ((buf ++ [x]).tail, (buf ++ [x]).head?) else (buf ++ [x], none)

theorem slide_rtake (n : ℕ) (l : List α) (x : α) :
    (slide n (l.rtake n) x).1 = (l ++ [x]).rtake n := by
  have hlength : (l.rtake n ++ [x]).length = min n l.length + 1 := by
    rw [List.length_append, List.length_singleton, List.rtake, List.length_drop]
    omega
  have happend : l.rtake n ++ [x] = (l ++ [x]).drop (l.length - n) := by
    rw [List.rtake, List.drop_append_of_le_length (Nat.sub_le ..)]
  rw [slide, hlength]
  split_ifs with hfull
  · rw [happend, List.tail_drop, List.rtake, List.length_append, List.length_singleton,
      show l.length - n + 1 = l.length + 1 - n by omega]
  · rw [happend, List.rtake, List.length_append, List.length_singleton,
      show l.length - n = l.length + 1 - n by omega]

theorem sum_slide [AddCommGroup M] (w : α → M) (n : ℕ) (buf : List α) (x : α) :
    ((slide n buf x).1.map w).sum
      = (buf.map w).sum + w x - ((slide n buf x).2.map w).getD 0 := by
  have hall : ((buf ++ [x]).map w).sum = (buf.map w).sum + w x := by
    rw [List.map_append, List.sum_append, List.map_singleton, List.sum_singleton]
  unfold slide
  split_ifs
  · cases happend : buf ++ [x] with
    | nil => simp at happend
    | cons y rest =>
      rw [← hall, happend, List.map_cons, List.sum_cons, List.head?_cons, Option.map_some,
        Option.getD_some, List.tail_cons, add_sub_cancel_left]
  · rw [hall, Option.map_none, Option.getD_none, sub_zero]

/-- An update slides a window and keeps a running sum of `w` over it. -/
structure IsWindow [AddCommGroup M] (update : σ → α → σ) (capacity : σ → ℕ) (buf : σ → List α)
    (total : σ → M) (w : α → M) : Prop where
  capacity_update : ∀ s x, capacity (update s x) = capacity s
  buf_update : ∀ s x, buf (update s x) = (slide (capacity s) (buf s) x).1
  total_update : ∀ s x, total (update s x)
    = total s + w x - ((slide (capacity s) (buf s) x).2.map w).getD 0

namespace IsWindow

variable [AddCommGroup M] {update : σ → α → σ} {capacity : σ → ℕ} {buf : σ → List α}
  {total : σ → M} {w : α → M}

theorem capacity_foldl (h : IsWindow update capacity buf total w) (s : σ) (l : List α) :
    capacity (l.foldl update s) = capacity s := by
  induction l generalizing s with
  | nil => rfl
  | cons x l ih => rw [List.foldl_cons, ih, h.capacity_update]

theorem buf_foldl (h : IsWindow update capacity buf total w) {s : σ} (hbuf : buf s = [])
    (l : List α) : buf (l.foldl update s) = l.rtake (capacity s) := by
  induction l using List.reverseRecOn with
  | nil => rw [List.foldl_nil, hbuf, List.rtake_nil]
  | append_singleton l x ih =>
    rw [List.foldl_append, List.foldl_cons, List.foldl_nil, h.buf_update, h.capacity_foldl, ih,
      slide_rtake]

theorem total_foldl (h : IsWindow update capacity buf total w) {s : σ} (hbuf : buf s = [])
    (htotal : total s = 0) (l : List α) :
    total (l.foldl update s) = ((l.rtake (capacity s)).map w).sum := by
  have hsum : total (l.foldl update s) = ((buf (l.foldl update s)).map w).sum := by
    induction l using List.reverseRecOn with
    | nil => rw [List.foldl_nil, hbuf, htotal, List.map_nil, List.sum_nil]
    | append_singleton l x ih =>
      rw [List.foldl_append, List.foldl_cons, List.foldl_nil, h.total_update, h.buf_update,
        sum_slide, ih]
  rw [hsum, h.buf_foldl hbuf]

end IsWindow

theorem length_rtake (l : List α) (n : ℕ) : (l.rtake n).length = min n l.length := by
  rw [List.rtake, List.length_drop]
  omega

/-! ## Means -/

/-- The arithmetic mean. -/
def mean (l : List ℚ) : ℚ := l.sum / l.length

/-- The variance of a whole population. -/
def variance (l : List ℚ) : ℚ := mean (l.map fun x ↦ (x - mean l) ^ 2)

theorem sum_sub_sq (l : List ℚ) (c : ℚ) :
    (l.map fun x ↦ (x - c) ^ 2).sum
      = (l.map fun x ↦ x * x).sum - 2 * c * l.sum + l.length * c ^ 2 := by
  induction l with
  | nil => simp
  | cons x l ih =>
    rw [List.map_cons, List.sum_cons, ih, List.map_cons, List.sum_cons, List.sum_cons,
      List.length_cons]
    push_cast
    ring

theorem variance_eq {l : List ℚ} (h : l ≠ []) :
    variance l = (l.map fun x ↦ x * x).sum / l.length - mean l * mean l := by
  have hlength : (l.length : ℚ) ≠ 0 := Nat.cast_ne_zero.mpr (mt List.length_eq_zero_iff.mp h)
  rw [variance, mean, List.length_map, sum_sub_sq, mean]
  field_simp
  ring

theorem variance_nonneg (l : List ℚ) : 0 ≤ variance l := by
  refine div_nonneg (List.sum_nonneg fun y hy ↦ ?_) (Nat.cast_nonneg _)
  obtain ⟨x, -, rfl⟩ := List.mem_map.mp hy
  exact sq_nonneg _

end SlidingWindow
