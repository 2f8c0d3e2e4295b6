import Coinext.Model.Types
import Coinext.Support.Accumulate
import Coinext.Support.SlidingWindow

/-!
# The moving-average crossover, streamed and vectorized

`SmaCross` is a strategy: it takes one close after the other, keeps two running averages, and
orders when they cross. `smaCrossPositions` is the screen's shortcut: it computes the averages of
all closes from running sums, marks the crosses by comparing arrays that are shifted by one, and
carries the last mark forward with a running maximum. The two agree on every series of closes.

Between them stands `held`, which says after how many bars the strategy ought to be in the market.
Floats are taken to be exact; an entry that is not a number is `none`, and comparisons with it fail.
-/

namespace Coinext.Screen

open SlidingWindow Accumulate

/-! ## The strategy -/

/-- `_Sma`: the last values and their sum. -/
structure StreamSma where
  period : ℕ
  period_pos : 0 < period
  buf : List ℚ
  length_le : buf.length ≤ period
  sum : ℚ

namespace StreamSma

def new (period : ℕ) (period_pos : 0 < period) : StreamSma :=
  ⟨period, period_pos, [], Nat.zero_le period, 0⟩

theorem length_slide {n : ℕ} {buf : List ℚ} (h : buf.length ≤ n) (x : ℚ) :
    (slide n buf x).1.length ≤ n := by
  unfold slide
  split_ifs with hfull
  · rw [List.length_tail, List.length_append, List.length_singleton]
    exact h
  · exact not_lt.mp hfull

/-- The buffer drops its first value when it is full. -/
def update (s : StreamSma) (value : ℚ) : StreamSma where
  period := s.period
  period_pos := s.period_pos
  buf := (slide s.period s.buf value).1
  length_le := length_slide s.length_le value
  sum := (if s.buf.length = s.period then s.sum - s.buf.headD 0 else s.sum) + value

def value (s : StreamSma) : Option ℚ :=
  if s.buf.length = s.period then some (s.sum / s.period) else none

theorem isWindow : IsWindow update period buf sum id where
  capacity_update _ _ := rfl
  buf_update _ _ := rfl
  total_update s x := by
    have hpos := s.period_pos
    have hle := s.length_le
    unfold update slide
    simp only [List.length_append, List.length_singleton]
    by_cases hfull : s.buf.length = s.period
    · cases hbuf : s.buf with
      | nil => simp [hbuf] at hfull; omega
      | cons y rest =>
        rw [hbuf] at hfull
        simp only [hfull, if_true, Nat.lt_succ_self, List.headD_cons, List.cons_append,
          List.head?_cons, Option.map_some, Option.getD_some, id]
        ring
    · rw [if_neg hfull, if_neg (by omega), Option.map_none, Option.getD_none, sub_zero, id]

end StreamSma

structure SmaCross where
  fast : StreamSma
  slow : StreamSma
  qty : ℚ
  prevFast : Option ℚ
  prevSlow : Option ℚ
  inPosition : Bool

namespace SmaCross

def new (fast slow : ℕ) (hfast : 0 < fast) (hslow : 0 < slow) (qty : ℚ) : SmaCross :=
  ⟨.new fast hfast, .new slow hslow, qty, none, none, false⟩

/-- The market orders submitted on a bar, and the strategy after it. -/
def onBar (s : SmaCross) (close : ℚ) : List (OrderSide × ℚ) × SmaCross :=
  let fast := s.fast.update close
  let slow := s.slow.update close
  match fast.value, slow.value with
  | some f, some v =>
    let next := { s with fast, slow, prevFast := some f, prevSlow := some v }
    match s.prevFast, s.prevSlow with
    | some pf, some ps =>
      if (pf ≤ ps ∧ v < f) ∧ s.inPosition = false then
        ([(.buy, s.qty)], { next with inPosition := true })
      else if (ps ≤ pf ∧ f < v) ∧ s.inPosition = true then
        ([(.sell, s.qty)], { next with inPosition := false })
      else ([], next)
    | _, _ => ([], next)
  | _, _ => ([], { s with fast, slow })

/-- The strategy after the closes. -/
def after (s : SmaCross) (closes : List ℚ) : SmaCross :=
  closes.foldl (fun s close ↦ (s.onBar close).2) s

end SmaCross

/-! ## The screen -/

/-- Averages over a window; none before it is full. -/
def sma (values : List ℚ) (period : ℕ) : List (Option ℚ) :=
  if period ≤ 1 then values.map some
  else if period ≤ values.length then
    let csum : List ℚ := accumulate (· + ·) (0 :: values)
    List.replicate (period - 1) none ++
      List.zipWith (fun (a b : ℚ) ↦ some ((a - b) / period)) (csum.drop period)
        (csum.take (csum.length - period))
  else List.replicate values.length none

/-- An entry of an array; `none` for one that is not a number. -/
def entry (x : List (Option ℚ)) (i : ℕ) : Option ℚ := x[i]?.join

/-- The index that is rolled to `i` in an array of `n` entries. -/
def rolled (n i : ℕ) : ℕ := (i + n - 1) % n

def nanLe (a b : Option ℚ) : Bool :=
  match a, b with
  | some x, some y => x ≤ y
  | _, _ => false

def nanLt (a b : Option ℚ) : Bool :=
  match a, b with
  | some x, some y => x < y
  | _, _ => false

section Arrays

variable (n : ℕ) (f s : List (Option ℚ))

def warm (i : ℕ) : Bool := (entry f i).isSome && (entry s i).isSome

def prevWarm (i : ℕ) : Bool := if i = 0 then false else warm f s (rolled n i)

def both (i : ℕ) : Bool := warm f s i && prevWarm n f s i

/-- Not above before, above now. -/
def up (i : ℕ) : Bool :=
  both n f s i && nanLe (entry f (rolled n i)) (entry s (rolled n i)) &&
    nanLt (entry s i) (entry f i)

/-- Not below before, below now. -/
def down (i : ℕ) : Bool :=
  both n f s i && nanLe (entry s (rolled n i)) (entry f (rolled n i)) &&
    nanLt (entry f i) (entry s i)

def crossState (i : ℕ) : ℤ := if down n f s i then -1 else if up n f s i then 1 else 0

end Arrays

/-- The target after each bar. An empty array of closes raises. -/
def smaCrossPositions (closes : List ℚ) (fast slow : ℕ) (qty : ℚ) : Option (List ℚ) :=
  if closes = [] then none
  else
    let n := closes.length
    let state := crossState n (sma closes fast) (sma closes slow)
    let last := accumulate max ((List.range n).map fun i ↦ if state i ≠ 0 then i else 0)
    some (last.map fun i ↦ if 0 < state i then qty else 0)

/-! ## When to hold -/

/-- The average of the last `p` closes. -/
def avg (closes : List ℚ) (p : ℕ) : Option ℚ :=
  if p ≤ closes.length then some ((closes.rtake p).sum / p) else none

/-- The cross, if there is one, from two averages to the next two: up or not. -/
def crossOf (pf ps f s : Option ℚ) : Option Bool :=
  match pf, ps, f, s with
  | some pf, some ps, some f, some s =>
    if pf ≤ ps ∧ s < f then some true else if ps ≤ pf ∧ f < s then some false else none
  | _, _, _, _ => none

theorem crossOf_of_eq_none {pf ps f s : Option ℚ} (h : f = none ∨ s = none) :
    crossOf pf ps f s = none := by
  rcases h with rfl | rfl
  · cases pf <;> cases ps <;> rfl
  · cases pf <;> cases ps <;> cases f <;> rfl

theorem crossOf_congr {a b c d : Option ℚ} (h : ∀ x y, a = some x ∧ b = some y ↔
    c = some x ∧ d = some y) (f s : Option ℚ) : crossOf a b f s = crossOf c d f s := by
  by_cases hboth : ∃ x y, a = some x ∧ b = some y
  · obtain ⟨x, y, hab⟩ := hboth
    obtain ⟨rfl, rfl⟩ := (h x y).mp hab
    obtain ⟨rfl, rfl⟩ := hab
    rfl
  · have hnone {a b : Option ℚ} (hab : ¬ ∃ x y, a = some x ∧ b = some y) :
        crossOf a b f s = none := by
      cases a with
      | none => rfl
      | some x =>
        cases b with
        | none => rfl
        | some y => exact absurd ⟨x, y, rfl, rfl⟩ hab
    rw [hnone hboth, hnone fun ⟨x, y, hcd⟩ ↦ hboth ⟨x, y, (h x y).mpr hcd⟩]

/-- The cross as one more close comes. -/
def cross (fast slow : ℕ) (before after : List ℚ) : Option Bool :=
  crossOf (avg before fast) (avg before slow) (avg after fast) (avg after slow)

/-- Whether the last cross among the first closes went up. -/
def held (fast slow : ℕ) (closes : List ℚ) : ℕ → Bool
  | 0 => false
  | i + 1 => (cross fast slow (closes.take i) (closes.take (i + 1))).getD (held fast slow closes i)

variable {closes : List ℚ} {fast slow : ℕ} {qty : ℚ}

theorem held_append (l : List ℚ) {i : ℕ} (h : i ≤ closes.length) :
    held fast slow (closes ++ l) i = held fast slow closes i := by
  induction i with
  | zero => rfl
  | succ i ih =>
    rw [held, held, ih (by omega), List.take_append_of_le_length (by omega),
      List.take_append_of_le_length h]

/-! ## The strategy holds -/

theorem StreamSma.value_foldl {p : ℕ} (hp : 0 < p) (closes : List ℚ) :
    (closes.foldl update (.new p hp)).value = avg closes p := by
  have hbuf := StreamSma.isWindow.buf_foldl (s := .new p hp) rfl closes
  have hsum := StreamSma.isWindow.total_foldl (s := .new p hp) rfl rfl closes
  have hperiod := StreamSma.isWindow.capacity_foldl (.new p hp) closes
  change (closes.foldl update (.new p hp)).period = p at hperiod
  change (closes.foldl update (.new p hp)).buf = closes.rtake p at hbuf
  change (closes.foldl update (.new p hp)).sum = ((closes.rtake p).map id).sum at hsum
  rw [value, avg, hbuf, hsum, hperiod, length_rtake, List.map_id]
  simp only [min_eq_left_iff]

/-- What the strategy knows after the closes. -/
structure Knows (fast slow : ℕ) (qty : ℚ) (closes : List ℚ) (s : SmaCross) : Prop where
  qty_eq : s.qty = qty
  fast_eq : ∃ hfast, s.fast = closes.foldl StreamSma.update (.new fast hfast)
  slow_eq : ∃ hslow, s.slow = closes.foldl StreamSma.update (.new slow hslow)
  prev_eq : ∀ f v, s.prevFast = some f ∧ s.prevSlow = some v ↔
    avg closes fast = some f ∧ avg closes slow = some v
  inPosition_eq : s.inPosition = held fast slow closes closes.length

/-- The orders that lead from one holding to the next. -/
def ordersFor (qty : ℚ) (before after : Bool) : List (OrderSide × ℚ) :=
  match before, after with
  | false, true => [(.buy, qty)]
  | true, false => [(.sell, qty)]
  | _, _ => []

theorem ordersFor_self (qty : ℚ) (b : Bool) : ordersFor qty b b = [] := by
  cases b <;> rfl

/-- A bar on which both averages are full. -/
theorem SmaCross.onBar_of_warm {s : SmaCross} {close f v : ℚ}
    (hf : (s.fast.update close).value = some f) (hv : (s.slow.update close).value = some v) :
    let inPosition := (crossOf s.prevFast s.prevSlow (some f) (some v)).getD s.inPosition
    s.onBar close = (ordersFor s.qty s.inPosition inPosition,
      ⟨s.fast.update close, s.slow.update close, s.qty, some f, some v, inPosition⟩) := by
  obtain ⟨fast, slow, qty, prevFast, prevSlow, inPosition⟩ := s
  simp only [onBar, hf, hv]
  cases prevFast with
  | none => simp [crossOf, ordersFor_self]
  | some pf =>
    cases prevSlow with
    | none => simp [crossOf, ordersFor_self]
    | some ps =>
      simp only [crossOf]
      by_cases hup : pf ≤ ps ∧ v < f
      · cases inPosition <;> simp [hup, ordersFor, not_lt.mpr hup.2.le]
      · by_cases hdown : ps ≤ pf ∧ f < v
        · cases inPosition <;> simp [hup, hdown, ordersFor]
        · cases inPosition <;> simp [hup, hdown, ordersFor]

/-- A bar on which one of them is not. -/
theorem SmaCross.onBar_of_not_warm {s : SmaCross} {close : ℚ}
    (h : (s.fast.update close).value = none ∨ (s.slow.update close).value = none) :
    s.onBar close = ([], { s with fast := s.fast.update close, slow := s.slow.update close }) := by
  simp only [onBar]
  cases hf : (s.fast.update close).value with
  | none => rfl
  | some f =>
    rw [hf] at h
    rw [h.resolve_left (by simp)]

theorem held_concat (close : ℚ) :
    held fast slow (closes ++ [close]) (closes ++ [close]).length
      = (cross fast slow closes (closes ++ [close])).getD
        (held fast slow closes closes.length) := by
  rw [List.length_append, List.length_singleton, held, held_append [close] le_rfl,
    List.take_left' rfl, List.take_of_length_le (by simp)]

theorem avg_eq_none_of_concat {p : ℕ} {close : ℚ} (h : avg (closes ++ [close]) p = none) :
    avg closes p = none := by
  unfold avg at h ⊢
  rw [if_neg]
  intro hle
  rw [if_pos (by rw [List.length_append]; omega)] at h
  cases h

/-- **Step lemma.** On a bar the strategy orders what its holding changes by. -/
theorem Knows.onBar {s : SmaCross} (h : Knows fast slow qty closes s) (close : ℚ) :
    Knows fast slow qty (closes ++ [close]) (s.onBar close).2 ∧
      (s.onBar close).1 = ordersFor qty s.inPosition (s.onBar close).2.inPosition := by
  obtain ⟨hfast, hfast_eq⟩ := h.fast_eq
  obtain ⟨hslow, hslow_eq⟩ := h.slow_eq
  have hfast' : s.fast.update close
      = (closes ++ [close]).foldl StreamSma.update (.new fast hfast) := by
    rw [hfast_eq, List.foldl_append]
    rfl
  have hslow' : s.slow.update close
      = (closes ++ [close]).foldl StreamSma.update (.new slow hslow) := by
    rw [hslow_eq, List.foldl_append]
    rfl
  have hf := StreamSma.value_foldl hfast (closes ++ [close])
  have hv := StreamSma.value_foldl hslow (closes ++ [close])
  rw [← hfast'] at hf
  rw [← hslow'] at hv
  have hcross := crossOf_congr h.prev_eq
  by_cases hwarm : (s.fast.update close).value = none ∨ (s.slow.update close).value = none
  · rw [SmaCross.onBar_of_not_warm hwarm]
    rw [hf, hv] at hwarm
    refine ⟨⟨h.qty_eq, ⟨hfast, hfast'⟩, ⟨hslow, hslow'⟩, fun f v ↦ ?_, ?_⟩,
      (ordersFor_self _ _).symm⟩
    · rw [h.prev_eq]
      rcases hwarm with hnone | hnone
      · simp [hnone, avg_eq_none_of_concat hnone]
      · simp [hnone, avg_eq_none_of_concat hnone]
    · rw [held_concat, cross, crossOf_of_eq_none hwarm]
      exact h.inPosition_eq
  · obtain ⟨f, hsome⟩ := Option.ne_none_iff_exists'.mp (not_or.mp hwarm).1
    obtain ⟨v, hsome'⟩ := Option.ne_none_iff_exists'.mp (not_or.mp hwarm).2
    rw [SmaCross.onBar_of_warm hsome hsome', h.qty_eq]
    rw [hf] at hsome
    rw [hv] at hsome'
    refine ⟨⟨rfl, ⟨hfast, hfast'⟩, ⟨hslow, hslow'⟩, fun x y ↦ ?_, ?_⟩, rfl⟩
    · rw [hsome, hsome']
    · rw [held_concat, cross, hsome, hsome', ← hcross, ← h.inPosition_eq]

theorem knows_new (hfast : 0 < fast) (hslow : 0 < slow) :
    Knows fast slow qty [] (.new fast slow hfast hslow qty) where
  qty_eq := rfl
  fast_eq := ⟨hfast, rfl⟩
  slow_eq := ⟨hslow, rfl⟩
  prev_eq f v := by simp [SmaCross.new, avg, hfast.ne']
  inPosition_eq := rfl

theorem knows_after (hfast : 0 < fast) (hslow : 0 < slow) (closes : List ℚ) :
    Knows fast slow qty closes ((SmaCross.new fast slow hfast hslow qty).after closes) := by
  induction closes using List.reverseRecOn with
  | nil => exact knows_new hfast hslow
  | append_singleton l close ih =>
    rw [SmaCross.after, List.foldl_append]
    exact (ih.onBar close).1

/-- The orders of the strategy on the bar that comes after the closes. -/
theorem orders_eq (hfast : 0 < fast) (hslow : 0 < slow) (close : ℚ) :
    (((SmaCross.new fast slow hfast hslow qty).after closes).onBar close).1
      = ordersFor qty (held fast slow closes closes.length)
        (held fast slow (closes ++ [close]) (closes.length + 1)) := by
  have h : Knows fast slow qty closes _ := knows_after hfast hslow closes
  obtain ⟨hnext, horders⟩ := h.onBar close
  rw [horders, h.inPosition_eq, hnext.inPosition_eq, List.length_append, List.length_singleton]

/-! ## The screen holds -/

theorem avg_take {p i : ℕ} (h : i + p ≤ closes.length) :
    avg (closes.take (i + p)) p
      = some (((closes.take (i + p)).sum - (closes.take i).sum) / p) := by
  rw [avg, if_pos (by rw [List.length_take]; omega), sum_rtake_take closes h]

theorem entry_sma {p : ℕ} (hp : 0 < p) {i : ℕ} (hi : i < closes.length) :
    entry (sma closes p) i = avg (closes.take (i + 1)) p := by
  unfold sma entry
  split_ifs with hone hfull
  · obtain rfl : p = 1 := by omega
    rw [avg_take (by omega), List.sum_take_succ closes i hi, add_sub_cancel_left, Nat.cast_one,
      div_one, List.getElem?_map, List.getElem?_eq_getElem hi]
    rfl
  · by_cases hearly : i < p - 1
    · rw [List.getElem?_append_left (by simpa using hearly), avg,
        if_neg (by rw [List.length_take]; omega), List.getElem?_replicate, if_pos hearly]
      rfl
    · obtain ⟨j, rfl⟩ : ∃ j, i = p - 1 + j := ⟨i - (p - 1), by omega⟩
      have hlength : (accumulate (· + ·) (0 :: closes)).length = closes.length + 1 :=
        length_accumulate _ _
      rw [List.getElem?_append_right (by simp), List.length_replicate, Nat.add_sub_cancel_left,
        List.getElem?_zipWith, List.getElem?_drop, getElem?_accumulate_zero closes (by omega),
        List.getElem?_take_of_lt (by omega), getElem?_accumulate_zero closes (by omega),
        show p - 1 + j + 1 = j + p by omega, add_comm p j, avg_take (by omega)]
      rfl
  · rw [List.getElem?_replicate, if_pos hi, avg, if_neg (by rw [List.length_take]; omega)]
    rfl

/-- The mark of a cross. -/
def markOf : Option Bool → ℤ
  | some true => 1
  | some false => -1
  | none => 0

theorem rolled_succ {n i : ℕ} (h : i + 1 < n) : rolled n (i + 1) = i := by
  rw [rolled, show i + 1 + n - 1 = i + n by omega, Nat.add_mod_right, Nat.mod_eq_of_lt (by omega)]

theorem crossState_eq (hfast : 0 < fast) (hslow : 0 < slow) {i : ℕ} (hi : i < closes.length) :
    crossState closes.length (sma closes fast) (sma closes slow) i
      = markOf (cross fast slow (closes.take i) (closes.take (i + 1))) := by
  cases i with
  | zero =>
    have hnone : avg [] fast = none := by simp [avg, hfast.ne']
    simp [crossState, up, down, both, prevWarm, cross, hnone, crossOf, markOf]
  | succ i =>
    have hi' : i < closes.length := by omega
    simp only [crossState, up, down, both, prevWarm, warm, rolled_succ hi, entry_sma hfast hi,
      entry_sma hslow hi, entry_sma hfast hi', entry_sma hslow hi', cross,
      Nat.succ_ne_zero, if_false]
    generalize avg (closes.take (i + 1)) fast = pf
    generalize avg (closes.take (i + 1)) slow = ps
    generalize avg (closes.take (i + 1 + 1)) fast = f
    generalize avg (closes.take (i + 1 + 1)) slow = v
    rcases pf with - | pf <;> rcases ps with - | ps <;> rcases f with - | f <;>
      rcases v with - | v
    all_goals simp only [Option.isSome_none, Option.isSome_some, Bool.and_false, Bool.false_and,
      Bool.and_true, Bool.true_and, Bool.false_eq_true, if_false, nanLe, nanLt, crossOf, markOf]
    -- both averages are there before and now
    by_cases hup : pf ≤ ps ∧ v < f
    · simp [hup, not_lt.mpr hup.2.le]
    · by_cases hdown : ps ≤ pf ∧ f < v
      · simp [hup, hdown]
      · simp only [Bool.and_eq_true, decide_eq_true_eq, hup, hdown, if_false]

theorem crossState_lastMark (hfast : 0 < fast) (hslow : 0 < slow) {i : ℕ} (hi : i < closes.length) :
    let state := crossState closes.length (sma closes fast) (sma closes slow)
    0 < state (lastMark (fun i ↦ state i ≠ 0) i) ↔ held fast slow closes (i + 1) = true := by
  have hstate := crossState_eq hfast hslow hi
  have hheld (i : ℕ) : held fast slow closes (i + 1)
      = (cross fast slow (closes.take i) (closes.take (i + 1))).getD
        (held fast slow closes i) := rfl
  induction i with
  | zero =>
    simp only [lastMark, hheld, hstate]
    rcases cross fast slow (closes.take 0) (closes.take (0 + 1)) with - | - | - <;>
      simp [markOf, held]
  | succ i ih =>
    have hold := ih (by omega) (crossState_eq hfast hslow (by omega))
    simp only at hold
    rw [hheld (i + 1)]
    generalize cross fast slow (closes.take (i + 1)) (closes.take (i + 1 + 1)) = c at hstate ⊢
    simp only [lastMark, hstate]
    rcases c with - | - | -
    · simpa only [markOf, ne_eq, not_true_eq_false, decide_false, Bool.false_eq_true, if_false,
        Option.getD_none] using hold
    · simp [markOf, hstate]
    · simp [markOf, hstate]

/-- **The screen's targets are the strategy's positions**, on any series of closes. -/
theorem smaCrossPositions_eq (hfast : 0 < fast) (hslow : 0 < slow) (qty : ℚ)
    (hclose : closes ≠ []) :
    smaCrossPositions closes fast slow qty = some ((List.range closes.length).map fun i ↦
      if held fast slow closes (i + 1) then qty else 0) := by
  have hmarks (state : ℕ → ℤ) : (fun i ↦ if state i ≠ 0 then i else 0)
      = fun i ↦ if decide (state i ≠ 0) then i else 0 := by
    funext i
    simp
  rw [smaCrossPositions, if_neg hclose]
  simp only [hmarks]
  rw [accumulate_map_range, List.map_map]
  congr 1
  refine List.map_congr_left fun i hi ↦ ?_
  simp only [Function.comp_apply, upTo_max_marks]
  have hheld := crossState_lastMark hfast hslow (List.mem_range.mp hi)
  simp only at hheld
  simp only [hheld]

end Coinext.Screen
