import Mathlib.Algebra.Order.Ring.Rat
import Coinext.Screen.SmaCross

/-!
# The vectorized backtest

`vectorBacktest` marks a series of targets to the market without a loop: a target is realized
`execLag` bars after the close it was decided on, gains and fees are running sums, and a fill is
made up wherever the position changes.

For the targets of the crossover these fills are the orders of the strategy, each on the bar that
comes `execLag` bars after the one it was submitted on, at that bar's close
(`vectorBacktest_fills`). Floats are taken to be exact.
-/

namespace Coinext.Screen

open Accumulate

/-- A bar with its close alone, with the range, or with the volume as well. -/
inductive BarRow where
  | close (ts : ℤ) (close : ℚ)
  | ohlc (ts : ℤ) (opn high low close : ℚ)
  | ohlcv (ts : ℤ) (opn high low close volume : ℚ)

/-- `_closes`: the times and the closes. -/
def BarRow.ts : BarRow → ℤ
  | .close ts _ | .ohlc ts .. | .ohlcv ts .. => ts

def BarRow.closePx : BarRow → ℚ
  | .close _ c | .ohlc _ _ _ _ c | .ohlcv _ _ _ _ c _ => c

/-- A fill: the side is one for a buy and minus one for a sell. -/
structure ScreenFill where
  ts : ℤ
  side : ℤ
  qty : ℚ
  px : ℚ
deriving DecidableEq

structure VectorResult where
  equityCurve : List (ℤ × ℚ)
  fills : List ScreenFill
  finalEquity : ℚ
  totalReturn : ℚ
deriving DecidableEq

/-- The targets moved on by `lag` bars, flat until then. -/
def lagged (n lag : ℕ) (pos : List ℚ) : List ℚ :=
  if lag < n then List.replicate lag 0 ++ pos.take (n - lag) else List.replicate n 0

/-- A made-up fill at an index where the position changes. -/
def fillAt (ts : ℕ → ℤ) (close pos : ℕ → ℚ) (i : ℕ) : Option ScreenFill :=
  if change pos i ≠ 0 then
    some ⟨ts i, if 0 < change pos i then 1 else -1, |change pos i|, close i⟩
  else none

/-- The position realized on a bar. -/
def realized (n lag : ℕ) (positions : List ℚ) (i : ℕ) : ℚ :=
  (if lag ≠ 0 then lagged n lag positions else positions).getD i 0

/-- The gains and fees of `n` bars, as running sums, and the fills. -/
def markToMarket (n : ℕ) (ts : ℕ → ℤ) (close pos : ℕ → ℚ) (startingBalance feeRate : ℚ) :
    VectorResult :=
  let fees := fun i ↦ |change pos i| * close i * feeRate
  let gains := accumulate (· + ·) ((List.range n).map (gain pos close))
  let paid := accumulate (· + ·) ((List.range n).map fees)
  let equity := List.zipWith (fun g p ↦ startingBalance + g - p) gains paid
  let final := equity.getLastD 0
  { equityCurve := (List.range n).map fun i ↦ (ts i, equity.getD i 0)
    fills := (List.range n).filterMap (fillAt ts close pos)
    finalEquity := final
    totalReturn := if startingBalance ≠ 0 then final / startingBalance - 1 else 0 }

/-- A length of the targets that is not that of the bars raises. -/
def vectorBacktest (bars : List BarRow) (positions : List ℚ) (startingBalance feeRate : ℚ)
    (execLag : ℕ) : Option VectorResult :=
  let n := bars.length
  if n = 0 then some ⟨[], [], startingBalance, 0⟩
  else if positions.length ≠ n then none
  else some (markToMarket n (fun i ↦ (bars.map BarRow.ts).getD i 0)
    (fun i ↦ (bars.map BarRow.closePx).getD i 0) (realized n execLag positions)
    startingBalance feeRate)

/-! ## The fills are the strategy's orders -/

/-- The orders that the strategy submits on each of the bars. -/
def SmaCross.ordersOn (s : SmaCross) : List ℚ → List (List (OrderSide × ℚ))
  | [] => []
  | close :: rest => (s.onBar close).1 :: ordersOn (s.onBar close).2 rest

/-- An order that is filled whole at the close of a bar. -/
def fillOn (bar : BarRow) (order : OrderSide × ℚ) : ScreenFill :=
  ⟨bar.ts, if order.1 = .buy then 1 else -1, order.2, bar.closePx⟩

/-- Fill the orders of each bar on the bar that comes `lag` later. -/
def filledLater (lag : ℕ) (orders : List (List (OrderSide × ℚ))) (bars : List BarRow) :
    List ScreenFill :=
  (List.zipWith (fun orders bar ↦ orders.map (fillOn bar)) orders (bars.drop lag)).flatten

variable {fast slow : ℕ} {qty : ℚ}

theorem ordersOn_concat (s : SmaCross) (closes : List ℚ) (close : ℚ) :
    s.ordersOn (closes ++ [close]) = s.ordersOn closes ++ [((s.after closes).onBar close).1] := by
  induction closes generalizing s with
  | nil => rfl
  | cons c l ih =>
    rw [List.cons_append, SmaCross.ordersOn, SmaCross.ordersOn, ih]
    rfl

/-- On each bar the strategy orders what its holding changes by. -/
theorem ordersOn_eq (hfast : 0 < fast) (hslow : 0 < slow) (qty : ℚ) (closes : List ℚ) :
    (SmaCross.new fast slow hfast hslow qty).ordersOn closes
      = (List.range closes.length).map fun i ↦
        ordersFor qty (held fast slow closes i) (held fast slow closes (i + 1)) := by
  induction closes using List.reverseRecOn with
  | nil => rfl
  | append_singleton l close ih =>
    rw [ordersOn_concat, ih, orders_eq hfast hslow, List.length_append, List.length_singleton,
      List.range_succ, List.map_append, List.map_singleton, held_append [close] le_rfl]
    congr 1
    refine List.map_congr_left fun i hi ↦ ?_
    have hlt := List.mem_range.mp hi
    rw [held_append [close] hlt.le, held_append [close] hlt]

/-- A position that follows a holding, `lag` bars behind. -/
def follows (h : ℕ → Bool) (lag : ℕ) (qty : ℚ) (i : ℕ) : ℚ :=
  if lag ≤ i ∧ h (i - lag + 1) = true then qty else 0

theorem change_follows {h : ℕ → Bool} (h0 : h 0 = false) (lag : ℕ) (qty : ℚ) {i : ℕ}
    (hi : lag ≤ i) : change (follows h lag qty) i
      = (if h (i - lag + 1) then qty else 0) - (if h (i - lag) then qty else 0) := by
  have hnow : follows h lag qty i = if h (i - lag + 1) then qty else 0 := by
    simp [follows, hi]
  cases i with
  | zero =>
    rw [change, hnow, Nat.zero_sub, h0]
    simp
  | succ i =>
    rw [change, hnow]
    congr 1
    by_cases hle : lag ≤ i
    · rw [show i + 1 - lag = i - lag + 1 by omega]
      simp [follows, hle]
    · -- the first bar on which a target is realized
      rw [show i + 1 - lag = 0 by omega, h0]
      simp [follows, hle]

theorem change_follows_of_lt {h : ℕ → Bool} (lag : ℕ) (qty : ℚ) {i : ℕ} (hi : i < lag) :
    change (follows h lag qty) i = 0 := by
  cases i with
  | zero => simp [change, follows, not_le.mpr hi]
  | succ i => simp [change, follows, not_le.mpr hi, show ¬ lag ≤ i by omega]

/-- A fill is made up exactly for an order of the bar `lag` before. -/
theorem fillAt_follows {h : ℕ → Bool} (h0 : h 0 = false) (lag : ℕ) (hqty : 0 < qty)
    (ts : ℕ → ℤ) (close : ℕ → ℚ) (i : ℕ) :
    (fillAt ts close (follows h lag qty) i).toList
      = if lag ≤ i then (ordersFor qty (h (i - lag)) (h (i - lag + 1))).map
          fun order ↦ ⟨ts i, if order.1 = .buy then 1 else -1, order.2, close i⟩
        else [] := by
  by_cases hi : lag ≤ i
  · rw [if_pos hi, fillAt, change_follows h0 lag qty hi]
    cases h (i - lag) <;> cases h (i - lag + 1) <;>
      simp [ordersFor, hqty, hqty.ne', not_lt.mpr hqty.le, abs_of_pos hqty]
  · rw [if_neg hi, fillAt, change_follows_of_lt lag qty (by omega), if_neg (by simp)]
    rfl

theorem getD_map_range {α : Type} (g : ℕ → α) {n i : ℕ} (hi : i < n) (d : α) :
    ((List.range n).map g).getD i d = g i := by
  simp [List.getD_eq_getElem?_getD, hi]

theorem getD_append_replicate {lag i : ℕ} (l : List ℚ) :
    (List.replicate lag 0 ++ l).getD i 0 = if lag ≤ i then l.getD (i - lag) 0 else 0 := by
  rw [List.getD_eq_getElem?_getD, List.getElem?_append, List.length_replicate]
  split_ifs with hlt hle hle
  · omega
  · simp [hlt]
  · rw [List.getD_eq_getElem?_getD]
  · omega

theorem realized_eq {n lag i : ℕ} (h : ℕ → Bool) (hi : i < n) :
    realized n lag ((List.range n).map fun i ↦ if h (i + 1) then qty else 0) i
      = follows h lag qty i := by
  unfold realized
  split_ifs with hlag
  · unfold lagged
    split_ifs with hlt
    · rw [getD_append_replicate, ← List.map_take, List.take_range, min_eq_left (Nat.sub_le n lag)]
      by_cases hle : lag ≤ i
      · rw [if_pos hle, getD_map_range _ (by omega)]
        simp [follows, hle]
      · simp [follows, hle]
    · simp [follows, hi, show ¬ lag ≤ i by omega]
  · rw [getD_map_range _ hi]
    simp [follows, not_not.mp hlag]

/-- Filling the orders of each bar `lag` bars later, index by index. -/
theorem filledLater_map_range (lag : ℕ) (g : ℕ → List (OrderSide × ℚ)) (bars : List BarRow) :
    filledLater lag ((List.range bars.length).map g) bars
      = (List.range bars.length).flatMap fun i ↦
        if lag ≤ i then (g (i - lag)).map fun order ↦
          ⟨(bars.map BarRow.ts).getD i 0, if order.1 = .buy then 1 else -1, order.2,
            (bars.map BarRow.closePx).getD i 0⟩
        else [] := by
  by_cases hlag : lag ≤ bars.length
  · obtain ⟨m, hm⟩ := Nat.exists_eq_add_of_le hlag
    have hlate : List.zipWith (fun orders bar ↦ orders.map (fillOn bar))
        ((List.range bars.length).map g) (bars.drop lag)
        = (List.range m).map fun j ↦ (g j).map fun order ↦
          ⟨(bars.map BarRow.ts).getD (lag + j) 0, if order.1 = .buy then 1 else -1, order.2,
            (bars.map BarRow.closePx).getD (lag + j) 0⟩ := by
      refine List.ext_getElem (by simp; omega) fun j hj hj' ↦ ?_
      have hlt : lag + j < bars.length := by
        simp only [List.length_map, List.length_range] at hj'
        omega
      simp [fillOn, hlt]
    have hearly : ((List.range lag).flatMap fun i ↦
        if lag ≤ i then (g (i - lag)).map fun order ↦
          ScreenFill.mk ((bars.map BarRow.ts).getD i 0) (if order.1 = .buy then 1 else -1) order.2
            ((bars.map BarRow.closePx).getD i 0)
        else []) = [] := by
      refine List.flatMap_eq_nil_iff.mpr fun i hi ↦ if_neg ?_
      exact not_le.mpr (List.mem_range.mp hi)
    rw [filledLater, hlate, hm, List.range_add, List.flatMap_append, hearly, List.nil_append,
      List.flatMap_map, ← List.flatMap_def]
    simp
  · rw [filledLater, List.drop_eq_nil_of_le (by omega), List.zipWith_nil_right, List.flatten_nil]
    refine (List.flatMap_eq_nil_iff.mpr fun i hi ↦ if_neg ?_).symm
    have hlt := List.mem_range.mp hi
    omega

theorem change_congr {x y : ℕ → ℚ} {i : ℕ} (h : ∀ j ≤ i, x j = y j) : change x i = change y i := by
  cases i with
  | zero => rw [change, change, h 0 le_rfl]
  | succ i => rw [change, change, h (i + 1) le_rfl, h i (Nat.le_succ i)]

/-- The targets of the crossover, realized `execLag` bars later, trade what the strategy orders. -/
theorem fills_markToMarket (hfast : 0 < fast) (hslow : 0 < slow) (hqty : 0 < qty)
    (bars : List BarRow) (startingBalance feeRate : ℚ) (execLag : ℕ) :
    (markToMarket bars.length (fun i ↦ (bars.map BarRow.ts).getD i 0)
      (fun i ↦ (bars.map BarRow.closePx).getD i 0)
      (realized bars.length execLag ((List.range bars.length).map fun i ↦
        if held fast slow (bars.map BarRow.closePx) (i + 1) then qty else 0))
      startingBalance feeRate).fills
      = filledLater execLag
        ((SmaCross.new fast slow hfast hslow qty).ordersOn (bars.map BarRow.closePx)) bars := by
  rw [ordersOn_eq, List.length_map, filledLater_map_range, markToMarket,
    List.filterMap_eq_flatMap_toList]
  refine List.flatMap_congr fun i hi ↦ ?_
  have hlt := List.mem_range.mp hi
  rw [← fillAt_follows (h := held fast slow (bars.map BarRow.closePx)) rfl execLag hqty
    (fun i ↦ (bars.map BarRow.ts).getD i 0) fun i ↦ (bars.map BarRow.closePx).getD i 0]
  rw [fillAt, fillAt, change_congr fun j hj ↦ realized_eq _ (Nat.lt_of_le_of_lt hj hlt)]

/-- Closes that cross up at the third bar and down at the fifth. -/
def seesaw : List BarRow :=
  [.close 0 3, .close 60 2, .close 120 4, .close 180 5, .close 240 1, .close 300 1]

/-- The buy is filled at the fourth bar, the sale at the sixth. -/
example : filledLater 1 ((SmaCross.new 1 2 (by decide) (by decide) (1 / 2)).ordersOn
    (seesaw.map BarRow.closePx)) seesaw = [⟨180, 1, 1 / 2, 5⟩, ⟨300, -1, 1 / 2, 1⟩] := by
  decide +kernel

end Coinext.Screen
