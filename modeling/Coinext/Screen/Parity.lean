import Mathlib.Algebra.BigOperators.Group.Finset.Basic
import Mathlib.Algebra.Order.Field.Rat
import Mathlib.Data.Finset.Card
import Mathlib.Data.Rat.Sqrt
import Mathlib.Tactic.Linarith
import Mathlib.Tactic.Positivity
import Coinext.Screen.Session

/-!
# The parity gate

Two sessions are compared by the buckets in which they trade and the sides they take, by the prices
of the fills that match, by the correlation of their equity curves, and by their returns. A strategy
goes live only when all four are within the limits.

The agreement on signals lies between zero and one and is one exactly when the two sessions trade in
the same buckets on the same sides. A session compared with itself is perfect in every respect but
one: with fewer than two points its curve has the correlation zero, and the gate is closed to it.

Floats are taken to be exact, and the square root is a parameter. The texts of reasons and warnings are left out;
what they report is kept.
-/

namespace Coinext.Screen

/-! ## Metrics -/

structure ParityMetrics where
  signalTimingAgreement : ℚ
  fillPriceDeviationBps : ℚ
  equityCorrelation : ℚ
  returnDiff : ℚ
deriving DecidableEq

def bucket (ts tsBucketNs : ℤ) : ℤ := if 0 < tsBucketNs then ts / tsBucketNs else ts

/-- The bucket and the side of a fill. -/
def signal (tsBucketNs : ℤ) (fill : ScreenFill) : ℤ × ℤ := (bucket fill.ts tsBucketNs, fill.side)

/-- `_fill_keys`: the prices of the fills by bucket and side. -/
def fillKeys (fills : List ScreenFill) (tsBucketNs : ℤ) : List ((ℤ × ℤ) × List ℚ) :=
  groups (signal tsBucketNs) ScreenFill.px fills

/-- The keys, as a set. -/
def keySet (keys : List ((ℤ × ℤ) × List ℚ)) : Finset (ℤ × ℤ) := (keys.map Prod.fst).toFinset

def signalAgreement (a b : Finset (ℤ × ℤ)) : ℚ :=
  if a.card + b.card = 0 then 1 else 2 * (a ∩ b).card / (a.card + b.card : ℕ)

/-- The mean price under a key. -/
def meanPx (keys : List ((ℤ × ℤ) × List ℚ)) (k : ℤ × ℤ) : ℚ :=
  let px := (keys.lookup k).getD []
  px.sum / px.length

/-- The mean deviation of the prices under the matched keys, in basis points. -/
def fillDeviation (bt sb : List ((ℤ × ℤ) × List ℚ)) : ℚ :=
  let devs := (keySet bt ∩ keySet sb).filter fun k ↦ meanPx bt k ≠ 0
  if devs = ∅ then 0
  else (∑ k ∈ devs, |meanPx sb k - meanPx bt k| / |meanPx bt k| * 10000) / devs.card

/-- `_pearson`, up to the shorter length. -/
def pearson (sqrt : ℚ → ℚ) (xs ys : List ℚ) : ℚ :=
  let n := min xs.length ys.length
  if n < 2 then 0
  else
    let xs := xs.take n
    let ys := ys.take n
    let mx := xs.sum / n
    let my := ys.sum / n
    let sxx := (xs.map fun x ↦ (x - mx) ^ 2).sum
    let syy := (ys.map fun y ↦ (y - my) ^ 2).sum
    let sxy := (List.zipWith (fun x y ↦ (x - mx) * (y - my)) xs ys).sum
    if sxx = 0 ∧ syy = 0 then if xs = ys then 1 else 0
    else
      let denom := sqrt (sxx * syy)
      if denom = 0 then 0 else sxy / denom

/-- `_resample`: the values of a curve at `n` points. -/
def resample (curve : List (ℤ × ℚ)) (n : ℕ) : List ℚ :=
  let m := curve.length
  if m = 0 ∨ n = 0 then []
  else if m = n then curve.map Prod.snd
  else (List.range n).map fun i ↦ (curve.getD (min (i * m / n) (m - 1)) (0, 0)).2

/-- The last equity relative to the first. -/
def SessionResult.finalReturn (s : SessionResult) : ℚ :=
  match s.equityCurve with
  | first :: second :: rest =>
    if first.2 = 0 then 0 else ((first :: second :: rest).getLastD (0, 0)).2 / first.2 - 1
  | _ => 0

def parityMetrics (sqrt : ℚ → ℚ) (backtest sandbox : SessionResult) (tsBucketNs : ℤ) :
    ParityMetrics :=
  let bt := fillKeys backtest.fills tsBucketNs
  let sb := fillKeys sandbox.fills tsBucketNs
  let n := min backtest.equityCurve.length sandbox.equityCurve.length
  { signalTimingAgreement := signalAgreement (keySet bt) (keySet sb)
    fillPriceDeviationBps := fillDeviation bt sb
    equityCorrelation :=
      pearson sqrt (resample backtest.equityCurve n) (resample sandbox.equityCurve n)
    returnDiff := |backtest.finalReturn - sandbox.finalReturn| }

/-! ## The gate -/

structure AcceptanceCriterion where
  minSignalAgreement : ℚ := 95 / 100
  maxFillDevBps : ℚ := 5
  minEquityCorr : ℚ := 90 / 100
  maxReturnDiff : ℚ := 2 / 100

/-- A condition that fails: what was measured, and the limit. -/
inductive GateReason where
  | signalTimingAgreement (observed min : ℚ)
  | fillPriceDeviationBps (observed max : ℚ)
  | equityCorrelation (observed min : ℚ)
  | returnDiff (observed max : ℚ)
deriving DecidableEq

structure GateVerdict where
  passed : Bool
  reasons : List GateReason
  metrics : ParityMetrics
deriving DecidableEq

def evaluate (m : ParityMetrics) (c : AcceptanceCriterion) : GateVerdict :=
  let reasons :=
    (if m.signalTimingAgreement < c.minSignalAgreement then
      [.signalTimingAgreement m.signalTimingAgreement c.minSignalAgreement] else [])
    ++ (if c.maxFillDevBps < m.fillPriceDeviationBps then
      [.fillPriceDeviationBps m.fillPriceDeviationBps c.maxFillDevBps] else [])
    ++ (if m.equityCorrelation < c.minEquityCorr then
      [.equityCorrelation m.equityCorrelation c.minEquityCorr] else [])
    ++ if c.maxReturnDiff < m.returnDiff then [.returnDiff m.returnDiff c.maxReturnDiff] else []
  ⟨reasons.isEmpty, reasons, m⟩

/-- A warning that the screen misleads. -/
inductive DriftWarning where
  | signalTiming (agreement : ℚ)
  | returnProxy (diffBps max : ℚ)
deriving DecidableEq

/-- `cross_check`, on buckets of a minute. -/
def crossCheck (sqrt : ℚ → ℚ) (event vector : SessionResult) (maxPnlDiffBps : ℚ) :
    List DriftWarning :=
  let m := parityMetrics sqrt event vector 60000000000
  (if m.signalTimingAgreement < 1 then [.signalTiming m.signalTimingAgreement] else [])
    ++ if maxPnlDiffBps < m.returnDiff * 10000 then
      [.returnProxy (m.returnDiff * 10000) maxPnlDiffBps] else []

/-! ## Signals -/

variable {sqrt : ℚ → ℚ} {tsBucketNs : ℤ}

theorem mem_keySet_fillKeys {fills : List ScreenFill} {k : ℤ × ℤ} :
    k ∈ keySet (fillKeys fills tsBucketNs) ↔ ∃ fill ∈ fills, signal tsBucketNs fill = k := by
  have hfst : (fillKeys fills tsBucketNs).map Prod.fst = groupKeys (signal tsBucketNs) fills := by
    rw [fillKeys, groups_eq_map, List.map_map]
    exact List.map_id _
  rw [keySet, List.mem_toFinset, hfst, mem_groupKeys, List.mem_map]

theorem two_mul_card_inter_le (a b : Finset (ℤ × ℤ)) : 2 * (a ∩ b).card ≤ a.card + b.card := by
  have hleft : (a ∩ b).card ≤ a.card := Finset.card_le_card Finset.inter_subset_left
  have hright : (a ∩ b).card ≤ b.card := Finset.card_le_card Finset.inter_subset_right
  omega

theorem two_mul_card_inter_eq_iff {a b : Finset (ℤ × ℤ)} :
    2 * (a ∩ b).card = a.card + b.card ↔ a = b := by
  have hleft : (a ∩ b).card ≤ a.card := Finset.card_le_card Finset.inter_subset_left
  have hright : (a ∩ b).card ≤ b.card := Finset.card_le_card Finset.inter_subset_right
  constructor
  · intro h
    have ha : a ∩ b = a := Finset.eq_of_subset_of_card_le Finset.inter_subset_left (by omega)
    have hb : a ∩ b = b := Finset.eq_of_subset_of_card_le Finset.inter_subset_right (by omega)
    exact ha.symm.trans hb
  · rintro rfl
    rw [Finset.inter_self]
    omega

theorem signalAgreement_nonneg (a b : Finset (ℤ × ℤ)) : 0 ≤ signalAgreement a b := by
  unfold signalAgreement
  split_ifs
  · exact zero_le_one
  · positivity

theorem signalAgreement_le_one (a b : Finset (ℤ × ℤ)) : signalAgreement a b ≤ 1 := by
  unfold signalAgreement
  split_ifs with h
  · exact le_rfl
  · rw [div_le_one (by exact_mod_cast Nat.pos_of_ne_zero h)]
    exact_mod_cast two_mul_card_inter_le a b

theorem signalAgreement_eq_one_iff {a b : Finset (ℤ × ℤ)} : signalAgreement a b = 1 ↔ a = b := by
  unfold signalAgreement
  split_ifs with h
  · obtain ⟨ha, hb⟩ := Nat.add_eq_zero_iff.mp h
    rw [Finset.card_eq_zero.mp ha, Finset.card_eq_zero.mp hb]
    exact iff_of_true rfl rfl
  · rw [div_eq_one_iff_eq (by exact_mod_cast h), ← two_mul_card_inter_eq_iff]
    exact_mod_cast Iff.rfl

theorem signalAgreement_comm (a b : Finset (ℤ × ℤ)) :
    signalAgreement a b = signalAgreement b a := by
  rw [signalAgreement, signalAgreement, Finset.inter_comm, add_comm a.card]

/-- **What the agreement on signals says.** It lies between zero and one, does not depend on which
session is which, and is one exactly when each bucket that one session trades in, on either side, is
one that the other trades in on that side. -/
theorem signalTimingAgreement_spec (sqrt : ℚ → ℚ) (backtest sandbox : SessionResult)
    (tsBucketNs : ℤ) :
    let agreement := (parityMetrics sqrt backtest sandbox tsBucketNs).signalTimingAgreement
    (0 ≤ agreement ∧ agreement ≤ 1) ∧
      (parityMetrics sqrt sandbox backtest tsBucketNs).signalTimingAgreement = agreement ∧
      (agreement = 1 ↔ ∀ k, (∃ fill ∈ backtest.fills, signal tsBucketNs fill = k) ↔
        ∃ fill ∈ sandbox.fills, signal tsBucketNs fill = k) := by
  refine ⟨⟨signalAgreement_nonneg _ _, signalAgreement_le_one _ _⟩, signalAgreement_comm _ _, ?_⟩
  refine signalAgreement_eq_one_iff.trans (Finset.ext_iff.trans ?_)
  exact forall_congr' fun k ↦ iff_congr mem_keySet_fillKeys mem_keySet_fillKeys

/-! ## A session against itself -/

theorem fillDeviation_self (keys : List ((ℤ × ℤ) × List ℚ)) : fillDeviation keys keys = 0 := by
  simp [fillDeviation]

theorem pearson_self (hsqrt : ∀ x, 0 ≤ x → sqrt (x * x) = x) (xs : List ℚ) :
    pearson sqrt xs xs = if 2 ≤ xs.length then 1 else 0 := by
  unfold pearson
  simp only [min_self, List.take_length]
  by_cases hn : xs.length < 2
  · rw [if_pos hn, if_neg (not_le.mpr hn)]
  · rw [if_neg hn, if_pos (not_lt.mp hn)]
    set mean := xs.sum / xs.length
    have hprod : List.zipWith (fun x y ↦ (x - mean) * (y - mean)) xs xs
        = xs.map fun x ↦ (x - mean) ^ 2 := by
      rw [List.zipWith_self]
      exact List.map_congr_left fun x _ ↦ (sq _).symm
    have hnonneg : 0 ≤ (xs.map fun x ↦ (x - mean) ^ 2).sum :=
      List.sum_nonneg fun y hy ↦ by
        obtain ⟨x, -, rfl⟩ := List.mem_map.mp hy
        positivity
    rw [hprod, hsqrt _ hnonneg]
    split_ifs with hflat hzero
    · rfl
    · exact absurd ⟨hzero, hzero⟩ hflat
    · exact div_self hzero

theorem resample_self (curve : List (ℤ × ℚ)) :
    resample curve curve.length = curve.map Prod.snd := by
  unfold resample
  simp only [or_self, if_true]
  split_ifs with h
  · rw [List.length_eq_zero_iff.mp h]
    rfl
  · rfl

theorem parityMetrics_self (hsqrt : ∀ x, 0 ≤ x → sqrt (x * x) = x) (s : SessionResult)
    (tsBucketNs : ℤ) : parityMetrics sqrt s s tsBucketNs
      = ⟨1, 0, if 2 ≤ s.equityCurve.length then 1 else 0, 0⟩ := by
  simp only [parityMetrics, signalAgreement_eq_one_iff.mpr, fillDeviation_self, min_self,
    resample_self, pearson_self hsqrt, List.length_map, sub_self, abs_zero]

theorem evaluate_passed_iff {m : ParityMetrics} {c : AcceptanceCriterion} :
    (evaluate m c).passed = true ↔ c.minSignalAgreement ≤ m.signalTimingAgreement ∧
      m.fillPriceDeviationBps ≤ c.maxFillDevBps ∧ c.minEquityCorr ≤ m.equityCorrelation ∧
      m.returnDiff ≤ c.maxReturnDiff := by
  simp only [evaluate, List.isEmpty_iff, List.append_eq_nil_iff, ite_eq_right_iff,
    List.cons_ne_nil, imp_false, not_lt, and_assoc]

/-- **A session against itself.** With a square root that is right on squares, the gate lets a
session through against itself exactly when the criterion can be met at all and, unless the
criterion asks for no correlation, its curve has two points. -/
theorem evaluate_self_passed_iff (hsqrt : ∀ x, 0 ≤ x → sqrt (x * x) = x) (s : SessionResult)
    (tsBucketNs : ℤ) (c : AcceptanceCriterion) :
    (evaluate (parityMetrics sqrt s s tsBucketNs) c).passed = true ↔
      c.minSignalAgreement ≤ 1 ∧ 0 ≤ c.maxFillDevBps ∧
        c.minEquityCorr ≤ (if 2 ≤ s.equityCurve.length then 1 else 0) ∧ 0 ≤ c.maxReturnDiff := by
  rw [evaluate_passed_iff, parityMetrics_self hsqrt]

/-! ## The screen against the runner -/

variable {fast slow : ℕ} {qty : ℚ}

/-- **No drift of its own making.** If the runner fills each order of the strategy in the bucket of
the bar that comes next, on the order's side and at any price, the cross-check of the screen against
it has no warning about signals. -/
theorem crossCheck_no_signalTiming (hfast : 0 < fast) (hslow : 0 < slow) (hqty : 0 < qty)
    {bars : List BarRow} {positions : List ℚ} {startingBalance feeRate : ℚ} {result : VectorResult}
    (hpositions : smaCrossPositions (bars.map BarRow.closePx) fast slow qty = some positions)
    (hresult : vectorBacktest bars positions startingBalance feeRate 1 = some result)
    {event : SessionResult}
    (hevent : event.fills.map (signal 60000000000)
      = (filledLater 1 ((SmaCross.new fast slow hfast hslow qty).ordersOn
        (bars.map BarRow.closePx)) bars).map (signal 60000000000)) (maxPnlDiffBps agreement : ℚ) :
    .signalTiming agreement ∉
      crossCheck sqrt event ⟨result.equityCurve, result.fills⟩ maxPnlDiffBps := by
  have hbars : bars ≠ [] := by
    rintro rfl
    cases hpositions
  have hcloses : bars.map BarRow.closePx ≠ [] := by simpa using hbars
  have hn : bars.length ≠ 0 := fun h ↦ hbars (List.length_eq_zero_iff.mp h)
  rw [smaCrossPositions_eq hfast hslow qty hcloses, Option.some.injEq] at hpositions
  rw [← hpositions, vectorBacktest, if_neg hn, if_neg (by simp), Option.some.injEq] at hresult
  have hfills := fills_markToMarket hfast hslow hqty bars startingBalance feeRate 1
  simp only [List.length_map] at hresult
  rw [hresult] at hfills
  have hagree : (parityMetrics sqrt event ⟨result.equityCurve, result.fills⟩
      60000000000).signalTimingAgreement = 1 := by
    refine signalAgreement_eq_one_iff.mpr (Finset.ext fun k ↦ ?_)
    rw [mem_keySet_fillKeys, mem_keySet_fillKeys, ← List.mem_map, ← List.mem_map, hevent, hfills]
  rw [crossCheck, hagree, if_neg (lt_irrefl 1), List.nil_append]
  split_ifs <;> simp

/-- The strategy's fills on the seesaw, late by a nanosecond and at other prices. -/
def lateSession : SessionResult := ⟨[(0, 1000)], [⟨181, 1, 1 / 2, 7⟩, ⟨301, -1, 1 / 2, 3⟩]⟩

theorem crossCheck_no_signalTiming_seesaw :
    .signalTiming 0 ∉ crossCheck id lateSession
      ⟨seesawResult.equityCurve, seesawResult.fills⟩ 50 :=
  have hpositions : smaCrossPositions (seesaw.map BarRow.closePx) 1 2 (1 / 2)
      = some [0, 0, 1 / 2, 1 / 2, 0, 0] := by decide +kernel
  have hresult : vectorBacktest seesaw [0, 0, 1 / 2, 1 / 2, 0, 0] 1000 (1 / 1000) 1
      = some seesawResult := rfl
  crossCheck_no_signalTiming (by decide) (by decide) (by decide +kernel) hpositions hresult
    (by decide +kernel) 50 0

/-- The number whose square it is, if there is one. -/
def ratRoot (x : ℚ) : ℚ := Rat.sqrt x

theorem evaluate_self_passed_iff_late :
    (evaluate (parityMetrics ratRoot lateSession lateSession 60000000000) {}).passed = true ↔
      (95 / 100 : ℚ) ≤ 1 ∧ (0 : ℚ) ≤ 5 ∧
        (90 / 100 : ℚ) ≤ (if 2 ≤ lateSession.equityCurve.length then 1 else 0) ∧
        (0 : ℚ) ≤ 2 / 100 :=
  have hroot : ∀ x, 0 ≤ x → ratRoot (x * x) = x := fun x hx ↦ by
    rw [ratRoot, Rat.sqrt_eq, abs_of_nonneg hx]
  evaluate_self_passed_iff hroot lateSession 60000000000 {}

end Coinext.Screen
