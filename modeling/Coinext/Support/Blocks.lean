import Mathlib.Algebra.Group.WithOne.Defs
import Mathlib.Algebra.BigOperators.Group.List.Basic
import Mathlib.Tactic.Common

/-!
# Folding a stream in blocks

`blocks n l` are the products of the successive blocks of `n` elements of a stream, as they are
emitted by a filter that keeps the product of the block it is filling and the number of elements in
it. The elements of a last block that is not full are left out.

Two equations say what is emitted, whatever the state of the filter: a full block in front of a
stream is emitted first (`blocks_append`), and nothing is emitted for less than a block
(`blocks_of_length_lt`). Products of products are products, so folding in blocks of `m` what has
been folded in blocks of `n` is folding in blocks of `m * n` (`blocks_blocks`).
-/

namespace Blocks

variable {S : Type} [Semigroup S]

/-- The product of a list; that of the empty list is the unit that is adjoined. -/
def total (l : List S) : WithOne S := (l.map WithOne.coe).prod

@[simp] theorem total_nil : total ([] : List S) = 1 := rfl

@[simp] theorem total_cons (s : S) (l : List S) : total (s :: l) = s * total l := List.prod_cons

@[simp] theorem total_append (l l' : List S) : total (l ++ l') = total l * total l' := by
  rw [total, List.map_append, List.prod_append, total, total]

theorem total_foldl (s : S) (l : List S) : total (s :: l) = (l.foldl (· * ·) s : S) := by
  induction l generalizing s with
  | nil => rw [total_cons, total_nil, mul_one, List.foldl_nil]
  | cons s' l ih => rw [List.foldl_cons, ← ih, total_cons, total_cons, total_cons, WithOne.coe_mul,
      mul_assoc]

theorem total_flatMap {α : Type} (f : α → List S) {g : α → S} {l : List α}
    (h : ∀ a ∈ l, total (f a) = g a) : total (l.flatMap f) = total (l.map g) := by
  induction l with
  | nil => rfl
  | cons a l ih =>
    rw [List.flatMap_cons, total_append, h a List.mem_cons_self,
      ih fun b hb ↦ h b (List.mem_cons_of_mem a hb), List.map_cons, total_cons]

theorem total_map {S' : Type} [Semigroup S'] {f : S → S'} (hf : ∀ a b, f (a * b) = f a * f b)
    {l : List S} {s : S} (h : total l = s) : total (l.map f) = f s := by
  induction l generalizing s with
  | nil => exact absurd h.symm WithOne.coe_ne_one
  | cons x l ih =>
    cases l with
    | nil =>
      rw [total_cons, total_nil, mul_one] at h
      rw [List.map_singleton, total_cons, total_nil, mul_one, WithOne.coe_inj.mp h]
    | cons y l =>
      have hrest := total_foldl y l
      rw [total_cons, hrest, ← WithOne.coe_mul] at h
      rw [List.map_cons, total_cons, ih hrest, ← WithOne.coe_mul, ← hf, WithOne.coe_inj.mp h]

/-! ## The filter -/

/-- The block that is being filled: how much there is of it, and the product of that. -/
abbrev Filling (S : Type) := Option (ℕ × S)

def fill : Filling S → S → ℕ × S
  | none, x => (1, x)
  | some (k, s), x => (k + 1, s * x)

/-- Put an element into the block, and emit the block when it is full. -/
def step (n : ℕ) (block : Filling S) (x : S) : Filling S × Option S :=
  let filled := fill block x
  if n ≤ filled.1 then (none, some filled.2) else (some filled, none)

/-- What is emitted for a stream. -/
def emit (n : ℕ) : Filling S → List S → List S
  | _, [] => []
  | block, x :: l => (step n block x).2.toList ++ emit n (step n block x).1 l

/-- The products of the full blocks of a stream. -/
def blocks (n : ℕ) (l : List S) : List S := emit n none l

theorem step_none {n : ℕ} (hn : 1 < n) (x : S) : step n none x = (some (1, x), none) :=
  if_neg (Nat.not_le.mpr hn)

theorem step_some {n k : ℕ} (hk : k + 1 < n) (s x : S) :
    step n (some (k, s)) x = (some (k + 1, s * x), none) :=
  if_neg (Nat.not_le.mpr hk)

theorem step_full {n k : ℕ} (hk : n = k + 1) (s x : S) :
    step n (some (k, s)) x = (none, some (s * x)) :=
  if_pos (Nat.le_of_eq hk)

theorem emit_append {n k : ℕ} (b : List S) (hb : b ≠ []) (s : S) (hlength : k + b.length = n)
    (l : List S) : emit n (some (k, s)) (b ++ l) = b.foldl (· * ·) s :: blocks n l := by
  induction b generalizing k s with
  | nil => exact absurd rfl hb
  | cons x b ih =>
    rw [List.length_cons] at hlength
    rw [List.cons_append, emit, List.foldl_cons]
    cases b with
    | nil =>
      rw [step_full (by simpa using hlength.symm)]
      rfl
    | cons y b =>
      rw [List.length_cons] at hlength
      rw [step_some (by omega), Option.toList_none, List.nil_append,
        ih (List.cons_ne_nil y b) (s * x) (by rw [List.length_cons]; omega)]

theorem blocks_append {n : ℕ} (hn : 0 < n) {b : List S} (hlength : b.length = n) (l : List S) :
    ∃ s : S, total b = s ∧ blocks n (b ++ l) = s :: blocks n l := by
  cases b with
  | nil => exact absurd hlength (by rw [List.length_nil]; omega)
  | cons x b =>
    refine ⟨b.foldl (· * ·) x, total_foldl x b, ?_⟩
    rw [List.length_cons] at hlength
    rw [List.cons_append, blocks, emit]
    cases b with
    | nil =>
      have hone : n ≤ (fill none x).1 := Nat.le_of_eq hlength.symm
      rw [step, if_pos hone]
      rfl
    | cons y b =>
      rw [List.length_cons] at hlength
      rw [step_none (by omega), Option.toList_none, List.nil_append,
        emit_append (y :: b) (List.cons_ne_nil y b) x (by rw [List.length_cons]; omega)]

theorem emit_of_length_lt {n k : ℕ} (l : List S) (s : S) (hlength : k + l.length < n) :
    emit n (some (k, s)) l = [] := by
  induction l generalizing k s with
  | nil => rfl
  | cons x l ih =>
    rw [List.length_cons] at hlength
    rw [emit, step_some (by omega), ih _ (by omega)]
    rfl

theorem blocks_of_length_lt {n : ℕ} {l : List S} (hlength : l.length < n) : blocks n l = [] := by
  cases l with
  | nil => rfl
  | cons x l =>
    rw [List.length_cons] at hlength
    rw [blocks, emit]
    by_cases hn : 1 < n
    · rw [step_none hn, emit_of_length_lt l x (by omega)]
      rfl
    · omega

/-! ## Blocks of blocks -/

theorem blocks_mul_append {n : ℕ} (hn : 0 < n) (m : ℕ) {b : List S} (hlength : b.length = m * n)
    (l : List S) : (blocks n b).length = m ∧ total (blocks n b) = total b ∧
      blocks n (b ++ l) = blocks n b ++ blocks n l := by
  induction m generalizing b with
  | zero =>
    obtain rfl : b = [] := List.length_eq_zero_iff.mp (by omega)
    exact ⟨rfl, rfl, rfl⟩
  | succ m ih =>
    rw [Nat.succ_mul] at hlength
    have hfirst : (b.take n).length = n := by
      rw [List.length_take]
      omega
    have hrest : (b.drop n).length = m * n := by
      rw [List.length_drop]
      omega
    obtain ⟨hcount, htotal, happend⟩ := ih hrest
    obtain ⟨s, hs, hblock⟩ := blocks_append hn hfirst (b.drop n)
    obtain ⟨s', hs', hblock'⟩ := blocks_append hn hfirst (b.drop n ++ l)
    obtain rfl : s = s' := WithOne.coe_inj.mp (hs.symm.trans hs')
    rw [List.take_append_drop] at hblock
    rw [← List.append_assoc, List.take_append_drop] at hblock'
    refine ⟨by rw [hblock, List.length_cons, hcount], ?_, ?_⟩
    · rw [hblock, total_cons, htotal, ← hs, ← total_append, List.take_append_drop]
    · rw [hblock', hblock, happend, List.cons_append]

theorem forall₂_blocks {n : ℕ} (hn : 0 < n) (l : List S) :
    List.Forall₂ (fun (s : S) b ↦ total b = s) (blocks n l)
      ((List.range (l.length / n)).map fun i ↦ (l.drop (i * n)).take n) := by
  induction hcount : l.length / n generalizing l with
  | zero =>
    rw [blocks_of_length_lt ((Nat.div_eq_zero_iff_lt hn).mp hcount)]
    exact .nil
  | succ m ih =>
    have hfirst : (l.take n).length = n := by
      have hle : 1 * n ≤ l.length := (Nat.le_div_iff_mul_le hn).mp (by omega)
      rw [List.length_take]
      omega
    obtain ⟨s, hs, hblock⟩ := blocks_append hn hfirst (l.drop n)
    rw [List.take_append_drop] at hblock
    have hrest : (l.drop n).length / n = m := by
      have hsub := Nat.sub_mul_div l.length n 1
      rwa [Nat.mul_one, hcount, Nat.succ_sub_one, ← List.length_drop] at hsub
    rw [hblock, List.range_succ_eq_map, List.map_cons, List.map_map]
    refine .cons (by rw [Nat.zero_mul, List.drop_zero, hs]) ?_
    have hshift : ((fun i ↦ (l.drop (i * n)).take n) ∘ Nat.succ)
        = fun i ↦ ((l.drop n).drop (i * n)).take n := by
      funext i
      rw [Function.comp_apply, Nat.succ_mul, List.drop_drop, Nat.add_comm]
    rw [hshift]
    exact ih _ hrest

theorem length_blocks {n : ℕ} (hn : 0 < n) (l : List S) : (blocks n l).length = l.length / n := by
  rw [(forall₂_blocks hn l).length_eq, List.length_map, List.length_range]

/-- **Blocks of blocks** are blocks. -/
theorem blocks_blocks {m n : ℕ} (hm : 0 < m) (hn : 0 < n) (l : List S) :
    blocks m (blocks n l) = blocks (m * n) l := by
  induction hlength : l.length using Nat.strongRecOn generalizing l with
  | ind N ih =>
    by_cases hshort : l.length < m * n
    · have hcount : (blocks n l).length < m := by
        rw [length_blocks hn]
        exact (Nat.div_lt_iff_lt_mul hn).mpr hshort
      rw [blocks_of_length_lt hshort, blocks_of_length_lt hcount]
    · have hpos : 0 < m * n := Nat.mul_pos hm hn
      have hfirst : (l.take (m * n)).length = m * n := by
        rw [List.length_take]
        omega
      obtain ⟨hcount, htotal, happend⟩ := blocks_mul_append hn m hfirst (l.drop (m * n))
      obtain ⟨s, hs, hblock⟩ := blocks_append hpos hfirst (l.drop (m * n))
      obtain ⟨s', hs', hblock'⟩ := blocks_append hm hcount (blocks n (l.drop (m * n)))
      obtain rfl : s = s' := WithOne.coe_inj.mp (hs.symm.trans (htotal.symm.trans hs'))
      have hrest := ih (l.drop (m * n)).length (by rw [List.length_drop]; omega) _ rfl
      rw [List.take_append_drop] at happend hblock
      rw [happend, hblock', hrest, hblock]

end Blocks
