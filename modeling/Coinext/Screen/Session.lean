import Mathlib.Algebra.BigOperators.Group.List.Lemmas
import Mathlib.Data.List.Forall2
import Mathlib.Data.List.GetD
import Mathlib.Data.List.Sort
import Coinext.Screen.Backtest
import Coinext.Support.Grouping

/-!
# Sessions rebuilt from fills

`fromFillsAndBars` rebuilds an equity curve from fills and bars: each fill is snapped to the nearest
bar, the fills of a bar are looked up by its time, and cash and position are carried from bar to
bar. Every fill ends up on exactly one bar, so the last equity accounts for all of them
(`fromFillsAndBars_accounts`).

The vectorized backtest computes its curve from running sums instead. For the fills it makes up the
two curves are the same (`fromFillsAndBars_vectorBacktest`). Floats are taken to be exact.
-/

namespace Coinext.Screen

open Accumulate

/-! ## The nearest bar -/

/-- `min` of a list by a key: the first of the least. -/
def pyMin {α : Type} (key : α → ℤ) : List α → Option α
  | [] => none
  | a :: l => some (l.foldl (fun best b ↦ if key b < key best then b else best) a)

/-- The candidates of a time: the last index before it, and the first that is not. -/
def candidates (bt : List ℤ) (ts : ℤ) : List ℕ :=
  let i := (bt.takeWhile (· < ts)).length
  (if 0 < i then [i - 1] else []) ++ if i < bt.length then [i] else []

/-- The time in the sorted grid that is nearest, and the time itself when the grid is empty. -/
def snapTs (bt : List ℤ) (ts : ℤ) : ℤ :=
  match pyMin (fun j ↦ |bt.getD j 0 - ts|) (candidates bt ts) with
  | some best => bt.getD best 0
  | none => ts

/-- `_snap_fills_to_grid` -/
def snapFillsToGrid (fills : List ScreenFill) (barTs : List ℤ) : List ScreenFill :=
  let bt := barTs.mergeSort (· ≤ ·)
  fills.map fun fill ↦ { fill with ts := snapTs bt fill.ts }

theorem pyMin_spec {α : Type} (key : α → ℤ) {l : List α} (hl : l ≠ []) :
    ∃ b ∈ l, pyMin key l = some b ∧ ∀ a ∈ l, key b ≤ key a := by
  cases l with
  | nil => exact absurd rfl hl
  | cons a l =>
    clear hl
    suffices h : ∀ best, ∃ b ∈ best :: l,
        l.foldl (fun best b ↦ if key b < key best then b else best) best = b ∧
          ∀ a ∈ best :: l, key b ≤ key a by
      obtain ⟨b, hb, heq, hle⟩ := h a
      exact ⟨b, hb, congrArg some heq, hle⟩
    induction l with
    | nil => exact fun best ↦ ⟨best, List.mem_cons_self, rfl, fun a ha ↦ by
        rw [List.mem_singleton.mp ha]⟩
    | cons c l ih =>
      intro best
      obtain ⟨b, hb, heq, hle⟩ := ih (if key c < key best then c else best)
      have hstart := hle _ List.mem_cons_self
      refine ⟨b, ?_, heq, ?_⟩
      · split_ifs at hb <;> simp only [List.mem_cons] at hb ⊢ <;> tauto
      · intro a ha
        simp only [List.mem_cons] at ha
        split_ifs at hstart with hlt
        · rcases ha with rfl | rfl | ha
          · exact hstart.trans hlt.le
          · exact hstart
          · exact hle a (List.mem_cons_of_mem _ ha)
        · rcases ha with rfl | rfl | ha
          · exact hstart
          · exact hstart.trans (not_lt.mp hlt)
          · exact hle a (List.mem_cons_of_mem _ ha)

variable {bt : List ℤ}

theorem lt_of_mem_candidates {ts : ℤ} {j : ℕ} (hj : j ∈ candidates bt ts) : j < bt.length := by
  have hle := (List.takeWhile_sublist (fun t ↦ decide (t < ts)) (l := bt)).length_le
  unfold candidates at hj
  simp only [List.mem_append] at hj
  rcases hj with hj | hj
  · split_ifs at hj with hpos
    · rw [List.mem_singleton.mp hj]
      omega
    · cases hj
  · split_ifs at hj with hlt
    · rwa [List.mem_singleton.mp hj]
    · cases hj

theorem exists_candidate (hsorted : bt.Pairwise (· ≤ ·)) (ts : ℤ) {t : ℤ} (ht : t ∈ bt) :
    ∃ j ∈ candidates bt ts, |bt.getD j 0 - ts| ≤ |t - ts| := by
  obtain ⟨lo, hi, hbt, hlo, hhi⟩ : ∃ lo hi, bt = lo ++ hi ∧ bt.takeWhile (· < ts) = lo ∧
      bt.dropWhile (· < ts) = hi :=
    ⟨_, _, List.takeWhile_append_dropWhile.symm, rfl, rfl⟩
  have hbefore (x : ℤ) (hx : x ∈ lo) : x < ts := by
    have h := List.mem_takeWhile_imp (hlo ▸ hx)
    exact of_decide_eq_true h
  unfold candidates
  rw [hlo]
  rw [hbt] at ht hsorted ⊢
  rcases List.mem_append.mp ht with ht | ht
  · -- before `ts`, the last is the nearest
    have hne : lo ≠ [] := List.ne_nil_of_mem ht
    have hpos : 0 < lo.length := List.length_pos_of_ne_nil hne
    have hlast : (lo ++ hi).getD (lo.length - 1) 0 = lo.getLast hne := by
      rw [List.getD_eq_getElem?_getD, List.getElem?_append_left (by omega),
        ← List.getLast?_eq_getElem?, List.getLast?_eq_some_getLast hne]
      rfl
    refine ⟨lo.length - 1, by simp [hpos], ?_⟩
    have hle : t ≤ lo.getLast hne := by
      rw [List.pairwise_append] at hsorted
      rw [← List.dropLast_append_getLast hne, List.pairwise_append] at hsorted
      rw [← List.dropLast_append_getLast hne] at ht
      rcases List.mem_append.mp ht with ht | ht
      · exact hsorted.1.2.2 t ht _ (List.mem_singleton_self _)
      · exact (List.mem_singleton.mp ht).le
    have hlt := hbefore _ (List.getLast_mem hne)
    rw [hlast, abs_of_neg (by omega), abs_of_neg (by omega)]
    omega
  · cases hi with
    | nil => cases ht
    | cons x hi =>
      -- from `ts` on, the first is the nearest
      have hx : ts ≤ x := by
        have hhead : (bt.dropWhile (· < ts)).head? = some x := by
          rw [hhi]
          rfl
        have h := List.head?_dropWhile_not (fun t ↦ decide (t < ts)) bt
        rw [hhead] at h
        simpa using h
      have hle : x ≤ t := by
        rcases List.mem_cons.mp ht with rfl | ht
        · exact le_rfl
        · exact List.rel_of_pairwise_cons (List.pairwise_append.mp hsorted).2.1 ht
      refine ⟨lo.length, by simp, ?_⟩
      have hfirst : (lo ++ x :: hi).getD lo.length 0 = x := by
        rw [List.getD_eq_getElem?_getD, List.getElem?_append_right le_rfl]
        simp
      rw [hfirst, abs_of_nonneg (by omega), abs_of_nonneg (by omega)]
      omega

theorem snapTs_nearest (hsorted : bt.Pairwise (· ≤ ·)) (hbt : bt ≠ []) (ts : ℤ) :
    snapTs bt ts ∈ bt ∧ ∀ t ∈ bt, |snapTs bt ts - ts| ≤ |t - ts| := by
  obtain ⟨t, ht⟩ := List.exists_mem_of_ne_nil bt hbt
  obtain ⟨j, hj, -⟩ := exists_candidate hsorted ts ht
  obtain ⟨b, hb, hmin, hle⟩ := pyMin_spec (fun j ↦ |bt.getD j 0 - ts|) (List.ne_nil_of_mem hj)
  have hsnap : snapTs bt ts = bt.getD b 0 := by
    simp only [snapTs, hmin]
  have hlt := lt_of_mem_candidates hb
  rw [hsnap]
  refine ⟨?_, fun t ht ↦ ?_⟩
  · rw [List.getD_eq_getElem?_getD, List.getElem?_eq_getElem hlt]
    exact List.getElem_mem hlt
  · obtain ⟨j, hj, hnear⟩ := exists_candidate hsorted ts ht
    exact (hle j hj).trans hnear

theorem snapTs_of_mem (hsorted : bt.Pairwise (· ≤ ·)) {ts : ℤ} (h : ts ∈ bt) :
    snapTs bt ts = ts := by
  have hnear := (snapTs_nearest hsorted (List.ne_nil_of_mem h) ts).2 ts h
  rw [sub_self, abs_zero] at hnear
  exact sub_eq_zero.mp (abs_nonpos_iff.mp hnear)

/-! ## The walk -/

structure SessionResult where
  equityCurve : List (ℤ × ℚ)
  fills : List ScreenFill
deriving DecidableEq

/-- What a fill does to cash and position. -/
def applyFill (feeRate : ℚ) (account : ℚ × ℚ) (fill : ScreenFill) : ℚ × ℚ :=
  let notional := fill.px * fill.qty
  let fee := notional * feeRate
  if 0 < fill.side then (account.1 - (notional + fee), account.2 + fill.qty)
  else (account.1 + (notional - fee), account.2 - fill.qty)

/-- One bar: its fills, and the equity at its close. -/
def walkBar (byTs : List (ℤ × List ScreenFill)) (feeRate : ℚ)
    (walked : (ℚ × ℚ) × List (ℤ × ℚ)) (bar : ℤ × ℚ) : (ℚ × ℚ) × List (ℤ × ℚ) :=
  let account := ((byTs.lookup bar.1).getD []).foldl (applyFill feeRate) walked.1
  (account, walked.2 ++ [(bar.1, account.1 + account.2 * bar.2)])

def SessionResult.fromFillsAndBars (fills : List ScreenFill) (bars : List (ℤ × ℚ))
    (startingBalance feeRate : ℚ) : SessionResult :=
  let barTs := bars.map Prod.fst
  let snapped := if barTs.length ≠ 0 then snapFillsToGrid fills barTs else fills
  let byTs := groups ScreenFill.ts id snapped
  let walked := bars.foldl (walkBar byTs feeRate) ((startingBalance, 0), [])
  ⟨walked.2, snapped⟩

/-- The cash and the position that a fill moves. -/
def flow (feeRate : ℚ) (fill : ScreenFill) : ℚ × ℚ := applyFill feeRate (0, 0) fill

variable {feeRate : ℚ} {fills snapped : List ScreenFill} {bars : List (ℤ × ℚ)} {t : ℤ}

theorem applyFill_eq (feeRate : ℚ) (account : ℚ × ℚ) (fill : ScreenFill) :
    applyFill feeRate account fill = account + flow feeRate fill := by
  unfold flow applyFill
  split_ifs <;> ext <;> simp <;> ring

theorem foldl_applyFill (feeRate : ℚ) (account : ℚ × ℚ) (fills : List ScreenFill) :
    fills.foldl (applyFill feeRate) account = account + (fills.map (flow feeRate)).sum := by
  induction fills generalizing account with
  | nil => simp
  | cons fill l ih =>
    rw [List.foldl_cons, ih, applyFill_eq, List.map_cons, List.sum_cons, add_assoc]

/-- The account after the first bars. -/
def accountAfter (feeRate startingBalance : ℚ) (snapped : List ScreenFill) (bars : List (ℤ × ℚ)) :
    ℚ × ℚ :=
  (startingBalance, 0)
    + (bars.map fun bar ↦ ((snapped.filter (·.ts = bar.1)).map (flow feeRate)).sum).sum

/-- The equity at the close of a bar. -/
def equityAt (account : ℚ × ℚ) (bar : ℤ × ℚ) : ℤ × ℚ := (bar.1, account.1 + account.2 * bar.2)

/-- **The walk**, bar by bar. -/
theorem walk_eq (feeRate startingBalance : ℚ) (snapped : List ScreenFill) (bars : List (ℤ × ℚ)) :
    bars.foldl (walkBar (groups ScreenFill.ts id snapped) feeRate) ((startingBalance, 0), [])
      = (accountAfter feeRate startingBalance snapped bars,
        (List.range bars.length).map fun i ↦
          equityAt (accountAfter feeRate startingBalance snapped (bars.take (i + 1)))
            (bars.getD i (0, 0))) := by
  induction bars using List.reverseRecOn with
  | nil => simp [accountAfter]
  | append_singleton l bar ih =>
    have haccount : accountAfter feeRate startingBalance snapped (l ++ [bar])
        = accountAfter feeRate startingBalance snapped l
          + ((snapped.filter (·.ts = bar.1)).map (flow feeRate)).sum := by
      simp [accountAfter, add_assoc]
    rw [List.foldl_append, ih, List.foldl_cons, List.foldl_nil, walkBar]
    simp only [lookup_groups, List.map_id, foldl_applyFill, ← haccount]
    rw [List.length_append, List.length_singleton, List.range_succ, List.map_append,
      List.map_singleton, List.take_of_length_le (by simp), equityAt]
    congr 2
    · refine List.map_congr_left fun i hi ↦ ?_
      have hlt := List.mem_range.mp hi
      rw [List.take_append_of_le_length hlt, List.getD_append _ _ _ _ hlt]
    · simp

/-! ## Every fill is accounted for -/

/-- What a rebuilt session says about its fills. -/
structure Accounts (fills : List ScreenFill) (bars : List (ℤ × ℚ)) (startingBalance feeRate : ℚ)
    (session : SessionResult) : Prop where
  /-- Each fill is moved to a bar that is nearest to it. -/
  snapped : List.Forall₂ (fun fill moved : ScreenFill ↦ moved = { fill with ts := moved.ts } ∧
    moved.ts ∈ bars.map Prod.fst ∧ ∀ t ∈ bars.map Prod.fst, |moved.ts - fill.ts| ≤ |t - fill.ts|)
    fills session.fills
  length_eq : session.equityCurve.length = bars.length
  /-- The equity at a bar is that of the cash and the position that the fills up to it leave. -/
  equity_eq : ∀ (i : ℕ) (bar : ℤ × ℚ), bars[i]? = some bar → session.equityCurve[i]?
    = some (equityAt ((startingBalance, 0)
      + ((session.fills.filter (·.ts ≤ bar.1)).map (flow feeRate)).sum) bar)

theorem mem_take_iff_le {ks : List ℤ} (hks : ks.Pairwise (· < ·)) {k : ℤ} (hk : k ∈ ks) {i : ℕ}
    (hi : i < ks.length) : k ∈ ks.take (i + 1) ↔ k ≤ ks[i] := by
  obtain ⟨j, hj, rfl⟩ := List.getElem_of_mem hk
  have hlt := List.pairwise_iff_getElem.mp hks
  rw [List.mem_take_iff_getElem]
  constructor
  · rintro ⟨m, hm, heq⟩
    rw [← heq]
    rcases Nat.lt_or_eq_of_le (show m ≤ i by omega) with hmi | rfl
    · exact (hlt m i (by omega) hi hmi).le
    · exact le_rfl
  · intro hle
    refine ⟨j, ?_, rfl⟩
    by_contra hlate
    exact absurd hle (not_le.mpr (hlt i j hi hj (by omega)))

theorem snapFillsToGrid_eq (hsorted : (bars.map Prod.fst).Pairwise (· < ·))
    (fills : List ScreenFill) : snapFillsToGrid fills (bars.map Prod.fst)
      = fills.map fun fill ↦ { fill with ts := snapTs (bars.map Prod.fst) fill.ts } := by
  have hle : (bars.map Prod.fst).Pairwise fun a b ↦ decide (a ≤ b) = true :=
    hsorted.imp fun h ↦ decide_eq_true h.le
  rw [snapFillsToGrid, List.mergeSort_of_pairwise hle]

/-- **Every fill is accounted for.** Whatever the fills, each is moved to a bar that is nearest, and
at each bar the rebuilt equity is that of exactly the fills that were moved to a bar up to it. -/
theorem fromFillsAndBars_accounts (hsorted : (bars.map Prod.fst).Pairwise (· < ·))
    (hbars : bars ≠ []) (fills : List ScreenFill) (startingBalance feeRate : ℚ) :
    Accounts fills bars startingBalance feeRate
      (.fromFillsAndBars fills bars startingBalance feeRate) := by
  have hne : (bars.map Prod.fst).length ≠ 0 := by simpa using hbars
  have hgrid : bars.map Prod.fst ≠ [] := by simpa using hbars
  have hle := hsorted.imp fun {a b : ℤ} (h : a < b) ↦ h.le
  obtain ⟨snapped, hsnapped⟩ : ∃ snapped, snapFillsToGrid fills (bars.map Prod.fst) = snapped :=
    ⟨_, rfl⟩
  have hon (s : ScreenFill) (hs : s ∈ snapped) : s.ts ∈ bars.map Prod.fst := by
    rw [← hsnapped, snapFillsToGrid_eq hsorted] at hs
    obtain ⟨fill, -, rfl⟩ := List.mem_map.mp hs
    exact (snapTs_nearest hle hgrid fill.ts).1
  have hsession : SessionResult.fromFillsAndBars fills bars startingBalance feeRate
      = ⟨(List.range bars.length).map fun i ↦
          equityAt (accountAfter feeRate startingBalance snapped (bars.take (i + 1)))
            (bars.getD i (0, 0)), snapped⟩ := by
    rw [SessionResult.fromFillsAndBars, if_pos hne, hsnapped, walk_eq]
  rw [hsession]
  refine ⟨?_, by simp, fun i bar hbar ↦ ?_⟩
  · rw [← hsnapped, snapFillsToGrid_eq hsorted, List.forall₂_map_right_iff, List.forall₂_same]
    exact fun fill _ ↦ ⟨rfl, snapTs_nearest hle hgrid fill.ts⟩
  · obtain ⟨hi, rfl⟩ := List.getElem?_eq_some_iff.mp hbar
    have hkeys : ((bars.take (i + 1)).map Prod.fst).Nodup := by
      rw [List.map_take]
      exact (hsorted.sublist (List.take_sublist _ _)).imp fun h ↦ h.ne
    have hsum := sum_filter_keys ScreenFill.ts (flow feeRate) hkeys snapped
    have hupTo : snapped.filter (fun s ↦ s.ts ∈ (bars.take (i + 1)).map Prod.fst)
        = snapped.filter (·.ts ≤ bars[i].1) := by
      refine List.filter_congr fun s hs ↦ decide_eq_decide.mpr ?_
      rw [List.map_take, mem_take_iff_le hsorted (hon s hs) (by simpa using hi), List.getElem_map]
    rw [List.map_map, hupTo] at hsum
    rw [List.getElem?_map, List.getElem?_range hi, Option.map_some, List.getD_eq_getElem _ _ hi,
      accountAfter, ← hsum]
    rfl

/-- A fill one second after the first of two bars counts from the first on. -/
theorem fromFillsAndBars_accounts_late :
    Accounts [⟨61, 1, 2, 10⟩] [(60, 10), (120, 12)] 1000 (1 / 1000)
      (.fromFillsAndBars [⟨61, 1, 2, 10⟩] [(60, 10), (120, 12)] 1000 (1 / 1000)) :=
  fromFillsAndBars_accounts (by simp) (by simp) [⟨61, 1, 2, 10⟩] 1000 (1 / 1000)

/-! ## The vectorized curve -/

section Vectorized

variable {n : ℕ} {time : ℕ → ℤ} {close pos : ℕ → ℚ}

theorem ts_of_fillAt {i : ℕ} {s : ScreenFill} (h : fillAt time close pos i = some s) :
    s.ts = time i := by
  unfold fillAt at h
  by_cases hchange : change pos i ≠ 0
  · rw [if_pos hchange] at h
    cases h
    rfl
  · rw [if_neg hchange] at h
    cases h

theorem filter_fillAt (htime : ∀ i < n, ∀ j < n, time i = time j → i = j) {j : ℕ} (hj : j < n) :
    ((List.range n).filterMap (fillAt time close pos)).filter (·.ts = time j)
      = (fillAt time close pos j).toList := by
  have hone (i : ℕ) (hi : i ∈ List.range n) :
      (fillAt time close pos i).toList.filter (·.ts = time j)
        = if i = j then (fillAt time close pos j).toList else [] := by
    by_cases hij : i = j
    · rw [if_pos hij, hij, fillAt]
      split_ifs <;> simp
    · have hne : time i ≠ time j := fun h ↦ hij (htime i (List.mem_range.mp hi) j hj h)
      rw [if_neg hij, fillAt]
      split_ifs <;> simp [hne]
  rw [List.filterMap_eq_flatMap_toList, List.filter_flatMap, List.flatMap_congr hone,
    flatMap_ite_eq List.nodup_range, if_pos (List.mem_range.mpr hj)]

/-- What a made-up fill moves: what is paid for the change of the position, with the fee. -/
theorem flow_fillAt (feeRate : ℚ) (j : ℕ) :
    ((fillAt time close pos j).toList.map (flow feeRate)).sum
      = (-(change pos j * close j + |change pos j| * close j * feeRate), change pos j) := by
  unfold fillAt
  rcases lt_trichotomy (change pos j) 0 with hneg | hzero | hpos
  · simp [hneg.ne, not_lt.mpr hneg.le, flow, applyFill, abs_of_neg hneg]
    ring
  · simp [hzero]
    rfl
  · simp [hpos.ne', hpos, flow, applyFill, abs_of_pos hpos]
    ring

/-- The running account of the made-up fills. -/
theorem upTo_flows (feeRate : ℚ) (i : ℕ) :
    upTo (· + ·) (fun j ↦ ((fillAt time close pos j).toList.map (flow feeRate)).sum) i
      = (-(upTo (· + ·) (fun j ↦ change pos j * close j) i
          + upTo (· + ·) (fun j ↦ |change pos j| * close j * feeRate) i), pos i) := by
  induction i with
  | zero => simp [upTo, flow_fillAt, change]
  | succ i ih =>
    rw [upTo, ih, flow_fillAt]
    refine Prod.ext ?_ ?_
    · simp only [upTo, Prod.fst_add]
      ring
    · simp [change]

/-- The curve of running sums. -/
theorem equityCurve_markToMarket (n : ℕ) (time : ℕ → ℤ) (close pos : ℕ → ℚ)
    (startingBalance feeRate : ℚ) :
    (markToMarket n time close pos startingBalance feeRate).equityCurve
      = (List.range n).map fun i ↦ (time i, startingBalance + upTo (· + ·) (gain pos close) i
        - upTo (· + ·) (fun j ↦ |change pos j| * close j * feeRate) i) := by
  simp only [markToMarket, accumulate_map_range]
  refine List.map_congr_left fun i hi ↦ ?_
  rw [List.getD_eq_getElem _ _ (by simpa using hi), List.getElem_zipWith]
  simp

theorem take_succ_eq_map_range {α : Type} (l : List α) (d : α) {i : ℕ} (hi : i < l.length) :
    l.take (i + 1) = (List.range (i + 1)).map fun j ↦ l.getD j d := by
  refine List.ext_getElem (by simp; omega) fun j hj _ ↦ ?_
  have hlt : j < l.length := by
    simp only [List.length_take] at hj
    omega
  simp [hlt]

/-- **Two ways to one curve.** On bars whose times increase, the curve that the vectorized backtest
computes from running sums is the one that the walk rebuilds from the fills it makes up, whatever
the targets, the lag and the fees. -/
theorem fromFillsAndBars_vectorBacktest {rows : List BarRow} {positions : List ℚ}
    {startingBalance feeRate : ℚ} {execLag : ℕ} {result : VectorResult}
    (hsorted : (rows.map BarRow.ts).Pairwise (· < ·))
    (hresult : vectorBacktest rows positions startingBalance feeRate execLag = some result) :
    (SessionResult.fromFillsAndBars result.fills (rows.map fun row ↦ (row.ts, row.closePx))
      startingBalance feeRate).equityCurve = result.equityCurve := by
  have hgrid : (rows.map fun row ↦ (row.ts, row.closePx)).map Prod.fst = rows.map BarRow.ts := by
    rw [List.map_map]
    rfl
  unfold vectorBacktest at hresult
  simp only at hresult
  split_ifs at hresult with hn hlength
  · obtain rfl := List.length_eq_zero_iff.mp hn
    cases hresult
    rfl
  cases hresult
  set time : ℕ → ℤ := fun i ↦ (rows.map BarRow.ts).getD i 0 with htime
  set close : ℕ → ℚ := fun i ↦ (rows.map BarRow.closePx).getD i 0 with hclose
  set pos := realized rows.length execLag positions
  have htimes : ∀ i < rows.length, time i ∈ rows.map BarRow.ts := fun i hi ↦ by
    rw [htime]
    simp only
    rw [List.getD_eq_getElem _ _ (by simpa using hi)]
    exact List.getElem_mem _
  have hinj : ∀ i < rows.length, ∀ j < rows.length, time i = time j → i = j := by
    intro i hi j hj heq
    have hi' : i < (rows.map BarRow.ts).length := by simpa using hi
    have hj' : j < (rows.map BarRow.ts).length := by simpa using hj
    rw [htime] at heq
    simp only at heq
    rw [List.getD_eq_getElem _ _ hi', List.getD_eq_getElem _ _ hj'] at heq
    have hnodup : (rows.map BarRow.ts).Nodup := hsorted.imp fun h ↦ h.ne
    exact hnodup.getElem_inj_iff.mp heq
  -- the fills are on the grid already
  have hsnap : snapFillsToGrid ((List.range rows.length).filterMap (fillAt time close pos))
      (rows.map BarRow.ts) = (List.range rows.length).filterMap (fillAt time close pos) := by
    rw [← hgrid, snapFillsToGrid_eq (hgrid ▸ hsorted), hgrid]
    refine (List.map_congr_left fun s hs ↦ ?_).trans (List.map_id _)
    obtain ⟨i, hi, hfill⟩ := List.mem_filterMap.mp hs
    have hts := ts_of_fillAt hfill
    have hle := hsorted.imp fun {a b : ℤ} (h : a < b) ↦ h.le
    rw [hts, snapTs_of_mem hle (htimes i (List.mem_range.mp hi)), ← hts]
    rfl
  rw [equityCurve_markToMarket, SessionResult.fromFillsAndBars, hgrid,
    if_pos (by simpa using hn), markToMarket, hsnap, walk_eq, List.length_map]
  refine List.map_congr_left fun i hi ↦ ?_
  have hi := List.mem_range.mp hi
  rw [accountAfter, take_succ_eq_map_range _ (0, 0) (by simpa using hi), List.map_map]
  have hflows : ((List.range (i + 1)).map fun j ↦
      ((fillAt time close pos j).toList.map (flow feeRate)).sum).sum = _ :=
    (sum_map_range_succ _ i).trans (upTo_flows feeRate i)
  have hbar (j : ℕ) (hj : j < rows.length) :
      (rows.map fun row ↦ (row.ts, row.closePx)).getD j (0, 0) = (time j, close j) := by
    simp [htime, hclose, hj]
  have hlooked : ((List.range (i + 1)).map fun j ↦
      ((((List.range rows.length).filterMap (fillAt time close pos)).filter
        (·.ts = ((rows.map fun row ↦ (row.ts, row.closePx)).getD j (0, 0)).1)).map
          (flow feeRate)).sum)
      = (List.range (i + 1)).map fun j ↦
        ((fillAt time close pos j).toList.map (flow feeRate)).sum := by
    refine List.map_congr_left fun j hj ↦ ?_
    have hj : j < rows.length := Nat.lt_of_lt_of_le (List.mem_range.mp hj) hi
    rw [hbar j hj, filter_fillAt hinj hj]
  simp only [Function.comp_def]
  rw [hlooked, hflows, hbar i hi, equityAt, upTo_gains]
  refine Prod.ext rfl ?_
  simp only [Prod.fst_add, Prod.snd_add]
  ring

/-- What the backtest makes of holding half a unit on the third and the fourth bar. -/
def seesawResult : VectorResult :=
  markToMarket 6 (fun i ↦ (seesaw.map BarRow.ts).getD i 0)
    (fun i ↦ (seesaw.map BarRow.closePx).getD i 0) (realized 6 1 [0, 0, 1 / 2, 1 / 2, 0, 0])
    1000 (1 / 1000)

theorem fromFillsAndBars_vectorBacktest_seesaw :
    (SessionResult.fromFillsAndBars seesawResult.fills
      (seesaw.map fun row ↦ (row.ts, row.closePx)) 1000 (1 / 1000)).equityCurve
      = seesawResult.equityCurve :=
  have hsorted : (seesaw.map BarRow.ts).Pairwise (· < ·) := by decide
  have hresult : vectorBacktest seesaw [0, 0, 1 / 2, 1 / 2, 0, 0] 1000 (1 / 1000) 1
      = some seesawResult := rfl
  fromFillsAndBars_vectorBacktest hsorted hresult

end Vectorized

end Coinext.Screen
