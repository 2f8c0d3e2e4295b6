import Coinext.Core.Value
import Coinext.Support.Binary64
import Coinext.Support.Mutation
import Mathlib.Data.List.ReduceOption

/-!
# Walk-forward splits

A series of bars is cut into folds, each with a train window and a test window right after it. In
the rolling mode the folds are cut from segments that do not overlap; in the anchored mode every
train window begins with the series. Folds that would have too short a window are left out, and the
last segment takes what the division leaves over.

A fold is decided by three indices (`Fold`): where it starts, where its test window starts, and where
it stops. What is proved is about these indices, in the order of the folds
(`walkForwardSplits_folds`).
-/

namespace Coinext

/-! ## Floats -/

/-- The float nearest to a number. -/
def F64.ofRat (q : ℚ) : F64 :=
  let r := Binary64.nearest q
  if |r| < 2 ^ 1024 then .finite r else .infinite (r < 0)

/-- The product of floats. -/
def F64.mul : F64 → F64 → F64
  | .nan, _ | _, .nan => .nan
  | .finite a, .finite b => .ofRat (a * b)
  | .infinite s, .infinite t => .infinite (s != t)
  | .finite a, .infinite s | .infinite s, .finite a =>
    if a = 0 then .nan else .infinite (s != (a < 0))

/-- What the split raises. -/
inductive SplitError where
  /-- `ValueError`: `cannot convert float NaN to integer` -/
  | nanToInteger
  /-- `OverflowError`: `cannot convert float infinity to integer` -/
  | infinityToInteger
  /-- `ValueError`: `unknown walk-forward mode {mode} (expected 'rolling' or 'anchored')` -/
  | unknownMode (mode : String)
deriving DecidableEq

/-- The integer part of a float, towards zero. -/
def F64.toInt : F64 → Except SplitError ℤ
  | .finite q => .ok (if 0 ≤ q then ⌊q⌋ else ⌈q⌉)
  | .nan => .error .nanToInteger
  | .infinite _ => .error .infinityToInteger

/-! ## Splits -/

/-- One fold: a train window followed by a test window. -/
structure Split (β : Type) where
  train : List β
  test : List β
deriving DecidableEq

variable {β : Type}

/-- The elements from one index up to another. -/
def slice (l : List β) (start stop : ℕ) : List β := (l.take stop).drop start

/-- The fold of a train window that grows, unless one of its windows is too short. -/
def anchoredFold (bars : List β) (nSplits seg i : ℕ) : Option (Split β) :=
  let trainEnd := (i + 1) * seg
  let testEnd := if i = nSplits - 1 then bars.length else (i + 2) * seg
  let train := slice bars 0 trainEnd
  let test := slice bars trainEnd testEnd
  if train.length < 2 ∨ test.length < 1 then none else some ⟨train, test⟩

/-- The part of a window for training, as a number of bars: `int(len(window) * train_frac)`. -/
def trainPart (len : ℕ) (trainFrac : F64) : Except SplitError ℤ :=
  ((F64.ofRat len).mul trainFrac).toInt

/-- The fold of a segment, unless one of its windows is too short. -/
def rollingFold (bars : List β) (nSplits seg : ℕ) (trainFrac : F64) (i : ℕ) :
    Except SplitError (Option (Split β)) :=
  let start := i * seg
  let stop := if i = nSplits - 1 then bars.length else (i + 1) * seg
  let window := slice bars start stop
  if window.length < 2 then .ok none
  else do
    let part ← trainPart window.length trainFrac
    let cut := (max 1 part).toNat
    if cut ≥ window.length then .ok none
    else .ok (some ⟨window.take cut, window.drop cut⟩)

/-- The folds of a series. -/
def walkForwardSplits (bars : List β) (nSplits : ℤ) (trainFrac : F64) (mode : String) :
    Except SplitError (List (Split β)) :=
  if nSplits < 1 ∨ bars = [] then .ok []
  else
    let n := nSplits.toNat
    if mode = "anchored" then
      let seg := max 1 (bars.length / (n + 1))
      .ok ((List.range n).filterMap (anchoredFold bars n seg))
    else if mode ≠ "rolling" then .error (.unknownMode mode)
    else
      let seg := max 1 (bars.length / n)
      ((List.range n).mapM (rollingFold bars n seg trainFrac)).map List.reduceOption

/-! ## The indices of a fold -/

/-- A fold by its indices: its train window is from `start` to `cut`, its test window from `cut` to
`stop`. -/
structure Fold where
  start : ℕ
  cut : ℕ
  stop : ℕ
deriving DecidableEq

namespace Fold

/-- Both windows have elements, and the fold is within a series of `n` bars. -/
structure Valid (n : ℕ) (f : Fold) : Prop where
  start_lt_cut : f.start < f.cut
  cut_lt_stop : f.cut < f.stop
  stop_le : f.stop ≤ n

/-- The windows of a fold. -/
def split (bars : List β) (f : Fold) : Split β :=
  ⟨slice bars f.start f.cut, slice bars f.cut f.stop⟩

end Fold

theorem length_slice (l : List β) (start stop : ℕ) :
    (slice l start stop).length = min stop l.length - start := by
  rw [slice, List.length_drop, List.length_take]

theorem slice_min (l : List β) (start stop : ℕ) :
    slice l start (min stop l.length) = slice l start stop := by
  rw [slice, slice, List.take_eq_take_min (i := stop)]

theorem slice_append_drop (l : List β) {start stop : ℕ} (h : start ≤ stop) :
    slice l start stop ++ l.drop stop = l.drop start := by
  conv_rhs => rw [← List.take_append_drop stop l]
  rw [slice, List.drop_append, List.length_take]
  rcases le_or_gt stop l.length with hle | hgt
  · rw [min_eq_left hle, Nat.sub_eq_zero_of_le h, List.drop_zero]
  · rw [List.drop_eq_nil_of_le hgt.le, List.drop_nil]

/-- The anchored folds, by their indices. -/
def anchoredIndices (len nSplits seg i : ℕ) : Option Fold :=
  let cut := min ((i + 1) * seg) len
  let stop := min (if i = nSplits - 1 then len else (i + 2) * seg) len
  if cut < 2 ∨ stop - cut < 1 then none else some ⟨0, cut, stop⟩

theorem anchoredFold_eq (bars : List β) (nSplits seg i : ℕ) :
    anchoredFold bars nSplits seg i
      = (anchoredIndices bars.length nSplits seg i).map (Fold.split bars) := by
  simp only [anchoredFold, anchoredIndices, length_slice, Nat.sub_zero]
  generalize hstop : (if i = nSplits - 1 then bars.length else (i + 2) * seg) = stop
  by_cases hlt : (i + 1) * seg < bars.length
  · rw [min_eq_left hlt.le]
    split_ifs with hshort
    · rfl
    · rw [Option.map_some, Fold.split, slice_min]
  · -- the test window is empty
    rw [if_pos (by omega), if_pos (by omega), Option.map_none]

/-- The rolling folds, by their indices. -/
def rollingIndices (len nSplits seg : ℕ) (trainFrac : F64) (i : ℕ) :
    Except SplitError (Option Fold) :=
  let start := i * seg
  let stop := min (if i = nSplits - 1 then len else (i + 1) * seg) len
  if stop - start < 2 then .ok none
  else do
    let part ← trainPart (stop - start) trainFrac
    let cut := (max 1 part).toNat
    if cut ≥ stop - start then .ok none else .ok (some ⟨start, start + cut, stop⟩)

theorem rollingFold_eq (bars : List β) (nSplits seg : ℕ) (trainFrac : F64) (i : ℕ) :
    rollingFold bars nSplits seg trainFrac i
      = (rollingIndices bars.length nSplits seg trainFrac i).map
          (Option.map (Fold.split bars)) := by
  simp only [rollingFold, rollingIndices, length_slice]
  generalize (if i = nSplits - 1 then bars.length else (i + 1) * seg) = stop
  by_cases hshort : min stop bars.length - i * seg < 2
  · rw [if_pos hshort, if_pos hshort]
    rfl
  rw [if_neg hshort, if_neg hshort]
  cases trainPart (min stop bars.length - i * seg) trainFrac with
  | error e => rfl
  | ok part =>
    simp only [bind, Except.bind]
    split_ifs with hcut
    · rfl
    · have htrain : (slice bars (i * seg) stop).take (max 1 part).toNat
          = slice bars (i * seg) (i * seg + (max 1 part).toNat) := by
        rw [slice, slice, List.take_drop, List.take_take, min_eq_left (by omega)]
      have htest : (slice bars (i * seg) stop).drop (max 1 part).toNat
          = slice bars (i * seg + (max 1 part).toNat) (min stop bars.length) := by
        rw [slice_min, slice, slice, List.drop_drop]
      simp only [Except.map, Option.map_some, Fold.split, htrain, htest]

/-- The folds of a series, by their indices. -/
theorem exists_indices {bars : List β} {n seg : ℕ} {trainFrac : F64}
    {splits : List (Option (Split β))}
    (h : (List.range n).mapM (rollingFold bars n seg trainFrac) = .ok splits) :
    ∃ index : ℕ → Option Fold,
      (∀ i < n, rollingIndices bars.length n seg trainFrac i = .ok (index i)) ∧
        splits.reduceOption = ((List.range n).filterMap index).map (Fold.split bars) := by
  refine ⟨fun i ↦ (rollingIndices bars.length n seg trainFrac i).toOption.join, ?_, ?_⟩
  · intro i hi
    obtain ⟨y, hy⟩ := Except.exists_of_mem_of_mapM h (List.mem_range.mpr hi)
    rw [rollingFold_eq] at hy
    cases hindex : rollingIndices bars.length n seg trainFrac i with
    | error e =>
      rw [hindex] at hy
      cases hy
    | ok f =>
      change _ = Except.ok (rollingIndices bars.length n seg trainFrac i).toOption.join
      rw [hindex]
      rfl
  · have hall : List.Forall₂ (fun i y ↦
        (rollingIndices bars.length n seg trainFrac i).toOption.join.map (Fold.split bars) = y)
        (List.range n) splits := by
      refine (Except.mapM_eq_ok_iff.mp h).imp fun i y hy ↦ ?_
      rw [rollingFold_eq] at hy
      cases hindex : rollingIndices bars.length n seg trainFrac i with
      | error e =>
        rw [hindex] at hy
        cases hy
      | ok f =>
        rw [hindex] at hy
        exact Except.ok.inj hy
    rw [← List.forall₂_map_left_iff (R := Eq), List.forall₂_eq_eq_eq] at hall
    rw [← hall, List.reduceOption, List.filterMap_map, List.map_filterMap]
    rfl

/-- What the folds of a series keep to: the windows have elements, and the test windows follow one
another. -/
structure Ordered (len : ℕ) (folds : List Fold) : Prop where
  valid : ∀ f ∈ folds, f.Valid len
  tests_increase : folds.Pairwise fun f f' ↦ f.stop ≤ f'.cut

/-! ## Anchored folds -/

section Anchored

variable {len n seg i : ℕ} {f : Fold}

theorem of_anchoredIndices (h : anchoredIndices len n seg i = some f) :
    f.start = 0 ∧ f.cut = min ((i + 1) * seg) len
      ∧ f.stop = min (if i = n - 1 then len else (i + 2) * seg) len
      ∧ 2 ≤ f.cut ∧ f.cut < f.stop := by
  simp only [anchoredIndices] at h
  generalize (if i = n - 1 then len else (i + 2) * seg) = stop at h ⊢
  split_ifs at h with hshort
  cases h
  rw [not_or, not_lt] at hshort
  exact ⟨rfl, rfl, rfl, hshort.1, by dsimp only; omega⟩

theorem pairwise_range_lt (n : ℕ) : (List.range n).Pairwise fun i j ↦ i < j ∧ j < n :=
  List.pairwise_lt_range.imp_of_mem fun _ hj hlt ↦ ⟨hlt, List.mem_range.mp hj⟩

theorem ordered_anchored (len n seg : ℕ) :
    Ordered len ((List.range n).filterMap (anchoredIndices len n seg)) := by
  constructor
  · intro f hf
    obtain ⟨i, -, hi⟩ := List.mem_filterMap.mp hf
    obtain ⟨hstart, -, hstop, htwo, hlt⟩ := of_anchoredIndices hi
    exact ⟨by omega, hlt, hstop.trans_le (min_le_right ..)⟩
  · refine (pairwise_range_lt n).filterMap _ fun i j hij f hf f' hf' ↦ ?_
    obtain ⟨-, -, hstop, -⟩ := of_anchoredIndices hf
    obtain ⟨-, hcut, -⟩ := of_anchoredIndices hf'
    have hle : (i + 2) * seg ≤ (j + 1) * seg := Nat.mul_le_mul_right _ (by omega)
    rw [hstop, hcut, if_neg (by omega)]
    exact min_le_min_right _ hle

/-- The test windows of the anchored folds from the one at `i` on. -/
def testsFrom (bars : List β) (n seg i d : ℕ) : List β :=
  (((List.range' i d).filterMap (anchoredIndices bars.length n seg)).map fun f ↦
    (f.split bars).test).flatten

theorem testsFrom_succ (bars : List β) (n seg i d : ℕ) :
    testsFrom bars n seg i (d + 1)
      = ((anchoredIndices bars.length n seg i).map fun f ↦ (f.split bars).test).getD []
        ++ testsFrom bars n seg (i + 1) d := by
  rw [testsFrom, testsFrom, List.range'_succ]
  cases hi : anchoredIndices bars.length n seg i with
  | none => rw [List.filterMap_cons_none hi, Option.map_none, Option.getD_none, List.nil_append]
  | some f =>
    rw [List.filterMap_cons_some hi, List.map_cons, List.flatten_cons, Option.map_some,
      Option.getD_some]

/-- A fold whose train window is long enough is left out only if its test window is empty. -/
theorem test_anchored (bars : List β) (n seg i : ℕ)
    (hcut : 2 ≤ min ((i + 1) * seg) bars.length) :
    ((anchoredIndices bars.length n seg i).map fun f ↦ (f.split bars).test).getD []
      = slice bars ((i + 1) * seg) (if i = n - 1 then bars.length else (i + 2) * seg) := by
  simp only [anchoredIndices]
  generalize (if i = n - 1 then bars.length else (i + 2) * seg) = stop
  by_cases hempty : min stop bars.length - min ((i + 1) * seg) bars.length < 1
  · rw [if_pos (Or.inr hempty), Option.map_none, Option.getD_none, eq_comm,
      ← List.length_eq_zero_iff, length_slice]
    omega
  · rw [if_neg (by omega), Option.map_some, Option.getD_some,
      min_eq_left (show (i + 1) * seg ≤ bars.length by omega)]
    exact slice_min ..

theorem testsFrom_eq_drop (bars : List β) (n seg : ℕ) {i d : ℕ} (hid : i + d = n) (hd : 0 < d)
    (hcut : 2 ≤ min ((i + 1) * seg) bars.length) :
    testsFrom bars n seg i d = bars.drop ((i + 1) * seg) := by
  induction d generalizing i with
  | zero => exact absurd hd (lt_irrefl 0)
  | succ d ih =>
    rw [testsFrom_succ, test_anchored bars n seg i hcut]
    rcases Nat.eq_zero_or_pos d with rfl | hpos
    · -- the last fold is tested up to the end of the series
      rw [if_pos (by omega), slice, List.take_length]
      exact List.append_nil _
    · have hle : (i + 1) * seg ≤ (i + 1 + 1) * seg := Nat.mul_le_mul_right _ (Nat.le_succ _)
      rw [if_neg (by omega), ih (by omega) hpos (by omega)]
      exact slice_append_drop bars hle

theorem testsFrom_suffix (bars : List β) (n seg : ℕ) {i d : ℕ} (hid : i + d = n) :
    testsFrom bars n seg i d <:+ bars := by
  induction d generalizing i with
  | zero => exact List.nil_suffix
  | succ d ih =>
    by_cases hcut : 2 ≤ min ((i + 1) * seg) bars.length
    · rw [testsFrom_eq_drop bars n seg hid d.succ_pos hcut]
      exact List.drop_suffix ..
    · -- the fold is left out, as all before it
      have hnone : anchoredIndices bars.length n seg i = none := by
        simp only [anchoredIndices]
        rw [if_pos (Or.inl (not_le.mp hcut))]
      rw [testsFrom_succ, hnone]
      exact ih (by omega)

theorem anchoredIndices_eq_some (htwo : 2 ≤ (i + 1) * seg) (hcut : (i + 1) * seg < len)
    (hstop : (i + 1) * seg < if i = n - 1 then len else (i + 2) * seg) :
    ∃ f, anchoredIndices len n seg i = some f := by
  simp only [anchoredIndices]
  generalize (if i = n - 1 then len else (i + 2) * seg) = stop at hstop
  exact ⟨_, if_neg (by omega)⟩

theorem exists_last_anchored (hi : i < n) (h : anchoredIndices len n seg i = some f) :
    ∃ j < n, ∃ f', anchoredIndices len n seg j = some f' ∧ f'.stop = len := by
  induction hd : n - i generalizing i f with
  | zero => omega
  | succ d ih =>
    obtain ⟨-, hcut, hstop, htwo, hlt⟩ := of_anchoredIndices h
    by_cases hlast : i = n - 1
    · rw [if_pos hlast, min_self] at hstop
      exact ⟨i, hi, f, h, hstop⟩
    rw [if_neg hlast] at hstop
    rcases le_or_gt len ((i + 2) * seg) with hend | hmore
    · exact ⟨i, hi, f, h, hstop.trans (min_eq_right hend)⟩
    -- the next fold starts before the end, so it is not left out
    have hle : (i + 1) * seg ≤ (i + 2) * seg := Nat.mul_le_mul_right _ (by omega)
    have hseg : 0 < seg := by
      rcases Nat.eq_zero_or_pos seg with rfl | hpos
      · simp only [Nat.mul_zero] at hcut
        omega
      · exact hpos
    obtain ⟨f', hf'⟩ : ∃ f', anchoredIndices len n seg (i + 1) = some f' := by
      refine anchoredIndices_eq_some (show 2 ≤ (i + 2) * seg by omega) hmore ?_
      split_ifs
      · exact hmore
      · exact Nat.mul_lt_mul_of_pos_right (by omega) hseg
    exact ih (by omega) hf' (by omega)

theorem anchored_folds (bars : List β) (n seg : ℕ) :
    ∃ folds : List Fold,
      (List.range n).filterMap (anchoredFold bars n seg) = folds.map (Fold.split bars) ∧
      Ordered bars.length folds ∧ (∀ f ∈ folds, f.start = 0) ∧
      (folds.map fun f ↦ (f.split bars).test).flatten <:+ bars ∧
      (folds ≠ [] → ∃ f ∈ folds, f.stop = bars.length) := by
  refine ⟨(List.range n).filterMap (anchoredIndices bars.length n seg), ?_,
    ordered_anchored .., ?_, ?_, ?_⟩
  · rw [List.map_filterMap]
    exact List.filterMap_congr fun i _ ↦ anchoredFold_eq bars n seg i
  · intro f hf
    obtain ⟨i, -, hi⟩ := List.mem_filterMap.mp hf
    exact (of_anchoredIndices hi).1
  · have hsuffix := testsFrom_suffix bars n seg (Nat.zero_add n)
    rwa [testsFrom, ← List.range_eq_range'] at hsuffix
  · intro hne
    obtain ⟨f, hf⟩ := List.exists_mem_of_ne_nil _ hne
    obtain ⟨i, hi, hfi⟩ := List.mem_filterMap.mp hf
    obtain ⟨j, hj, f', hf', hstop⟩ := exists_last_anchored (List.mem_range.mp hi) hfi
    exact ⟨f', List.mem_filterMap.mpr ⟨j, List.mem_range.mpr hj, hf'⟩, hstop⟩

end Anchored

/-! ## Rolling folds -/

section Rolling

variable {len n seg i : ℕ} {trainFrac : F64} {f : Fold}

/-- The float is a number of the format, where it is finite. -/
def F64.IsDouble : F64 → Prop
  | .finite q => Binary64.Representable q
  | .nan | .infinite _ => True

theorem toInt_ofRat {q : ℚ} {part : ℤ} (h : (F64.ofRat q).toInt = .ok part) :
    part = if 0 ≤ Binary64.nearest q then ⌊Binary64.nearest q⌋ else ⌈Binary64.nearest q⌉ := by
  unfold F64.ofRat at h
  dsimp only at h
  split_ifs at h with hfinite
  · exact (Except.ok.inj h).symm
  · cases h

theorem ofRat_natCast (hlen : len ≤ 2 ^ 53) : F64.ofRat len = .finite len := by
  have hsmall : |(len : ℚ)| < 2 ^ 1024 := by
    rw [abs_of_nonneg (Nat.cast_nonneg _)]
    calc (len : ℚ) ≤ 2 ^ 53 := by exact_mod_cast hlen
      _ < 2 ^ 1024 := pow_lt_pow_right₀ one_lt_two (by norm_num)
  simp only [F64.ofRat, Binary64.nearest_natCast hlen, if_pos hsmall]

theorem trainPart_lt_iff (hlen : 0 < len) (hlen' : len ≤ 2 ^ 53) (hdouble : trainFrac.IsDouble)
    {part : ℤ} (h : trainPart len trainFrac = .ok part) :
    part < len ↔ ∃ q < 1, trainFrac = .finite q := by
  rw [trainPart, ofRat_natCast hlen'] at h
  cases trainFrac with
  | nan => cases h
  | infinite s =>
    have hne : (len : ℚ) ≠ 0 := Nat.cast_ne_zero.mpr hlen.ne'
    simp only [F64.mul, if_neg hne] at h
    cases h
  | finite q =>
    have hle : (∃ q' < 1, F64.finite q = .finite q') ↔ q < 1 := by
      constructor
      · rintro ⟨q', hq', heq⟩
        rwa [F64.finite.inj heq]
      · exact fun hq ↦ ⟨q, hq, rfl⟩
    rw [toInt_ofRat h, hle]
    constructor
    · intro hpart
      by_contra hge
      have hnearest := Binary64.le_nearest_mul hlen' (not_lt.mp hge)
      have hfloor : (len : ℤ) ≤ ⌊Binary64.nearest (len * q)⌋ := Int.le_floor.mpr hnearest
      rw [if_pos ((Nat.cast_nonneg _).trans hnearest)] at hpart
      omega
    · intro hq
      have hnearest := Binary64.nearest_mul_lt hlen hdouble hq
      split_ifs with hsign
      · exact Int.floor_lt.mpr hnearest
      · have hceil : ⌈Binary64.nearest (len * q)⌉ ≤ 0 :=
          Int.ceil_le.mpr (by exact_mod_cast (not_le.mp hsign).le)
        omega

theorem of_rollingIndices (h : rollingIndices len n seg trainFrac i = .ok (some f)) :
    f.start = i * seg ∧ f.stop = min (if i = n - 1 then len else (i + 1) * seg) len
      ∧ f.start < f.cut ∧ f.cut < f.stop
      ∧ ∃ part, trainPart (f.stop - f.start) trainFrac = .ok part
        ∧ part < (f.stop - f.start : ℕ) := by
  simp only [rollingIndices] at h
  generalize min (if i = n - 1 then len else (i + 1) * seg) len = stop at h ⊢
  split_ifs at h with hshort
  · cases h
  cases hpart : trainPart (stop - i * seg) trainFrac with
  | error e =>
    rw [hpart] at h
    cases h
  | ok part =>
    rw [hpart] at h
    simp only [bind, Except.bind] at h
    split_ifs at h with hcut
    · cases h
    · cases h
      exact ⟨rfl, rfl, by dsimp only; omega, by dsimp only; omega, part, hpart,
        by dsimp only; omega⟩

theorem rollingIndices_eq_some {part : ℤ} {start stop : ℕ} (hstart : start = i * seg)
    (hstop : stop = min (if i = n - 1 then len else (i + 1) * seg) len) (htwo : 2 ≤ stop - start)
    (hpart : trainPart (stop - start) trainFrac = .ok part) (hlt : part < (stop - start : ℕ)) :
    rollingIndices len n seg trainFrac i
      = .ok (some ⟨start, start + (max 1 part).toNat, stop⟩) := by
  simp only [rollingIndices, ← hstart, ← hstop, if_neg (show ¬ stop - start < 2 by omega), hpart]
  simp only [bind, Except.bind]
  rw [if_neg (by omega)]

variable {index : ℕ → Option Fold}
  (hindex : ∀ i < n, rollingIndices len n seg trainFrac i = .ok (index i))

include hindex

/-- The segments do not overlap, so neither do the folds. -/
theorem pairwise_rolling :
    ((List.range n).filterMap index).Pairwise fun f f' ↦ f.stop ≤ f'.start := by
  refine (pairwise_range_lt n).filterMap _ fun i j hij f hf f' hf' ↦ ?_
  obtain ⟨-, hstop, -⟩ := of_rollingIndices ((hindex i (hij.1.trans hij.2)).trans (by rw [hf]))
  obtain ⟨hstart, -⟩ := of_rollingIndices ((hindex j hij.2).trans (by rw [hf']))
  have hle : (i + 1) * seg ≤ j * seg := Nat.mul_le_mul_right _ hij.1
  rw [hstop, hstart, if_neg (by omega)]
  exact (min_le_left ..).trans hle

theorem ordered_rolling : Ordered len ((List.range n).filterMap index) := by
  have hfold : ∀ f ∈ (List.range n).filterMap index, f.Valid len := by
    intro f hf
    obtain ⟨i, hi, hfi⟩ := List.mem_filterMap.mp hf
    obtain ⟨-, hstop, hcut, hlt, -⟩ := of_rollingIndices
      ((hindex i (List.mem_range.mp hi)).trans (by rw [hfi]))
    exact ⟨hcut, hlt, hstop.trans_le (min_le_right ..)⟩
  refine ⟨hfold, (pairwise_rolling hindex).imp_of_mem fun _ hf' hle ↦ ?_⟩
  exact hle.trans (hfold _ hf').start_lt_cut.le

/-- If there is a fold then the last segment, which is the longest one, has one too. -/
theorem exists_last_rolling (hseg : seg = max 1 (len / n)) (hlen : len ≤ 2 ^ 53)
    (hdouble : trainFrac.IsDouble) (hne : (List.range n).filterMap index ≠ []) :
    ∃ f ∈ (List.range n).filterMap index, f.stop = len := by
  obtain ⟨f, hf⟩ := List.exists_mem_of_ne_nil _ hne
  obtain ⟨i, hi, hfi⟩ := List.mem_filterMap.mp hf
  rw [List.mem_range] at hi
  obtain ⟨hstart, hstop, hcut, hlt, part, hpart, hpartlt⟩ :=
    of_rollingIndices ((hindex i hi).trans (by rw [hfi]))
  by_cases hlast : i = n - 1
  · rw [if_pos hlast, min_self] at hstop
    exact ⟨f, hf, hstop⟩
  -- a segment of at least two bars means that there are as many bars as the segments need
  obtain ⟨m, rfl⟩ := Nat.exists_eq_add_of_lt hi
  have hmul : (i + m + 1) * seg = (i + m) * seg + seg := Nat.succ_mul ..
  have hstep : (i + 1) * seg = i * seg + seg := Nat.succ_mul ..
  have hsegments : (i + m + 1) * seg ≤ len := by
    have hdiv : (i + m + 1) * (len / (i + m + 1)) ≤ len := Nat.mul_div_le ..
    rw [if_neg hlast] at hstop
    have hlarge : 1 < len / (i + m + 1) := by omega
    rwa [hseg, max_eq_right hlarge.le]
  have hwindow : f.stop - f.start ≤ len - (i + m) * seg := by
    rw [if_neg hlast] at hstop
    omega
  obtain ⟨q, hq, hfinite⟩ := (trainPart_lt_iff (by omega) (by omega) hdouble hpart).mp hpartlt
  obtain ⟨part', hpart'⟩ : ∃ part', trainPart (len - (i + m) * seg) trainFrac = .ok part' := by
    cases hlastPart : trainPart (len - (i + m) * seg) trainFrac with
    | ok part' => exact ⟨part', rfl⟩
    | error e =>
      have hraise := hindex (i + m) (by omega)
      simp only [rollingIndices, if_pos (show i + m = i + m + 1 - 1 by omega), min_self,
        if_neg (show ¬ len - (i + m) * seg < 2 by omega), hlastPart] at hraise
      cases hraise
  have hpartlt' := (trainPart_lt_iff (by omega) (by omega) hdouble hpart').mpr ⟨q, hq, hfinite⟩
  have hfold : rollingIndices len (i + m + 1) seg trainFrac (i + m) = .ok (some
      ⟨(i + m) * seg, (i + m) * seg + (max 1 part').toNat, len⟩) :=
    rollingIndices_eq_some rfl (by rw [if_pos (by omega), min_self]) (by omega) hpart' hpartlt'
  rw [hindex (i + m) (by omega)] at hfold
  exact ⟨_, List.mem_filterMap.mpr ⟨i + m, List.mem_range.mpr (by omega),
    Except.ok.inj hfold⟩, rfl⟩

end Rolling

/-! ## All folds -/

/-- What the folds of a mode keep to. -/
structure NoLeak (bars : List β) (trainFrac : F64) (mode : String) (folds : List Fold) : Prop
    extends Ordered bars.length folds where
  /-- Rolling folds follow one another as a whole. -/
  rolling : mode = "rolling" → folds.Pairwise fun f f' ↦ f.stop ≤ f'.start
  /-- Anchored train windows begin with the series, and the anchored test windows together are a
  suffix of it. -/
  anchored : mode = "anchored" → (∀ f ∈ folds, f.start = 0) ∧
    (folds.map fun f ↦ (f.split bars).test).flatten <:+ bars
  /-- If there is a fold then one is tested up to the end of the series. In the rolling mode this is
  about floats of the format and series of at most `2 ^ 53` bars. -/
  last : mode = "anchored" ∨ trainFrac.IsDouble ∧ bars.length ≤ 2 ^ 53 →
    folds ≠ [] → ∃ f ∈ folds, f.stop = bars.length

/-- **Walk-forward folds never leak.** Of every fold both windows have elements and the test window
comes right after the train window; the test windows follow one another; and so on, by the mode. -/
theorem walkForwardSplits_folds {bars : List β} {nSplits : ℤ} {trainFrac : F64} {mode : String}
    {splits : List (Split β)} (h : walkForwardSplits bars nSplits trainFrac mode = .ok splits) :
    ∃ folds : List Fold, splits = folds.map (Fold.split bars) ∧
      NoLeak bars trainFrac mode folds := by
  unfold walkForwardSplits at h
  dsimp only at h
  split_ifs at h with hempty hanchored hmode
  · cases h
    exact ⟨[], rfl, ⟨by simp, .nil⟩, fun _ ↦ .nil, fun _ ↦ ⟨by simp, List.nil_suffix⟩,
      fun _ hne ↦ absurd rfl hne⟩
  · cases h
    obtain ⟨folds, hfolds, hordered, hstart, hsuffix, hlast⟩ := anchored_folds bars nSplits.toNat
      (max 1 (bars.length / (nSplits.toNat + 1)))
    rw [hfolds]
    refine ⟨folds, rfl, hordered, fun hrolling ↦ ?_, fun _ ↦ ⟨hstart, hsuffix⟩, fun _ ↦ hlast⟩
    exact absurd (hanchored.symm.trans hrolling) (by decide)
  · obtain ⟨parts, hparts, rfl⟩ : ∃ parts, (List.range nSplits.toNat).mapM (rollingFold bars
        nSplits.toNat (max 1 (bars.length / nSplits.toNat)) trainFrac) = .ok parts
        ∧ parts.reduceOption = splits := by
      cases hmapM : (List.range nSplits.toNat).mapM (rollingFold bars nSplits.toNat
          (max 1 (bars.length / nSplits.toNat)) trainFrac) with
      | error e =>
        rw [hmapM] at h
        cases h
      | ok parts =>
        rw [hmapM] at h
        exact ⟨parts, rfl, Except.ok.inj h⟩
    obtain ⟨index, hindex, hfolds⟩ := exists_indices hparts
    rw [hfolds]
    refine ⟨_, rfl, ordered_rolling hindex, fun _ ↦ pairwise_rolling hindex,
      fun h ↦ absurd h hanchored, ?_⟩
    rintro (hmode' | ⟨hdouble, hlen⟩) hne
    · exact absurd hmode' hanchored
    · exact exists_last_rolling hindex rfl hlen hdouble hne

theorem walkForwardSplits_folds_ten :
    ∃ folds : List Fold, [⟨[0], [1, 2]⟩, ⟨[3], [4, 5]⟩, ⟨[6, 7], [8, 9]⟩]
        = folds.map (Fold.split (List.range 10)) ∧
      NoLeak (List.range 10) (.finite (1 / 2)) "rolling" folds :=
  walkForwardSplits_folds (show walkForwardSplits (List.range 10) 3 (.finite (1 / 2)) "rolling"
    = .ok [⟨[0], [1, 2]⟩, ⟨[3], [4, 5]⟩, ⟨[6, 7], [8, 9]⟩] by decide +kernel)

example : walkForwardSplits (List.range 10) 3 (.finite (1 / 2)) "anchored"
    = .ok [⟨[0, 1], [2, 3]⟩, ⟨[0, 1, 2, 3], [4, 5]⟩, ⟨[0, 1, 2, 3, 4, 5], [6, 7, 8, 9]⟩] := by
  decide

end Coinext
