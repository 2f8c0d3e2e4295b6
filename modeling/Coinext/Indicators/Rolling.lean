import Coinext.Core.Value
import Coinext.Support.SlidingWindow

/-!
# Indicators over a rolling window

`Sma`, `Bollinger` and `Vwap` keep the last `period` finite observations and running sums over them,
updated by adding what comes in and taking off what goes out; observations that are not finite are
skipped. Each is a sliding window, so after any stream its value is the batch definition over the
last finite observations of it (`indicators_stream`), and skipped observations leave no trace.

Observations are exact rationals; the square root in the bands is a parameter.
-/

namespace Coinext

open SlidingWindow

/-- The number that a finite float stands for. -/
def F64.toRat : F64 → Option ℚ
  | .finite q => some q
  | .nan | .infinite _ => none

/-! ## Simple moving average -/

structure Sma where
  period : ℕ
  buf : List ℚ
  sum : ℚ
deriving DecidableEq

namespace Sma

/-- The period must be positive. -/
def new (period : ℕ) : Option Sma := if 0 < period then some ⟨period, [], 0⟩ else none

def push (s : Sma) (x : ℚ) : Sma :=
  let (buf, old) := slide s.period s.buf x
  { s with buf, sum := s.sum + x - old.getD 0 }

def update (s : Sma) (value : F64) : Sma :=
  match value.toRat with
  | none => s
  | some x => s.push x

def value (s : Sma) : Option ℚ :=
  if s.buf.length = s.period then some (s.sum / s.period) else none

theorem isWindow : IsWindow push period buf sum id where
  capacity_update _ _ := rfl
  buf_update _ _ := rfl
  total_update s x := by
    rw [Option.map_id]
    rfl

end Sma

/-! ## Bollinger bands -/

structure Bollinger where
  period : ℕ
  k : ℚ
  buf : List ℚ
  sum : ℚ
  sumSq : ℚ
deriving DecidableEq

namespace Bollinger

/-- The period must be positive. -/
def new (period : ℕ) (k : ℚ) : Option Bollinger :=
  if 0 < period then some ⟨period, k, [], 0, 0⟩ else none

def push (s : Bollinger) (x : ℚ) : Bollinger :=
  let (buf, old) := slide s.period s.buf x
  { s with
    buf
    sum := s.sum + x - old.getD 0
    sumSq := s.sumSq + x * x - (old.map fun old ↦ old * old).getD 0 }

def update (s : Bollinger) (value : F64) : Bollinger :=
  match value.toRat with
  | none => s
  | some x => s.push x

/-- The lower band, the mean and the upper band. -/
def value (sqrt : ℚ → ℚ) (s : Bollinger) : Option (ℚ × ℚ × ℚ) :=
  if s.buf.length < s.period then none
  else
    let n : ℚ := s.period
    let mean := s.sum / n
    let var := max (s.sumSq / n - mean * mean) 0
    let sd := sqrt var
    some (mean - s.k * sd, mean, mean + s.k * sd)

theorem isWindow_sum : IsWindow push period buf sum id where
  capacity_update _ _ := rfl
  buf_update _ _ := rfl
  total_update s x := by
    rw [Option.map_id]
    rfl

theorem isWindow_sumSq : IsWindow push period buf sumSq fun x ↦ x * x where
  capacity_update _ _ := rfl
  buf_update _ _ := rfl
  total_update _ _ := rfl

end Bollinger

/-! ## Volume-weighted average price -/

structure Vwap where
  period : ℕ
  /-- Prices and volumes. -/
  win : List (ℚ × ℚ)
  sumPv : ℚ
  sumV : ℚ
deriving DecidableEq

namespace Vwap

/-- The period must be positive. -/
def new (period : ℕ) : Option Vwap := if 0 < period then some ⟨period, [], 0, 0⟩ else none

def push (s : Vwap) (x : ℚ × ℚ) : Vwap :=
  let (win, old) := slide s.period s.win x
  { s with
    win
    sumPv := s.sumPv + x.1 * x.2 - (old.map fun old ↦ old.1 * old.2).getD 0
    sumV := s.sumV + x.2 - (old.map Prod.snd).getD 0 }

/-- A price and a volume that are both finite. -/
def toRat (obs : F64 × F64) : Option (ℚ × ℚ) :=
  match obs.1.toRat, obs.2.toRat with
  | some price, some volume => some (price, volume)
  | _, _ => none

def update (s : Vwap) (obs : F64 × F64) : Vwap :=
  match toRat obs with
  | none => s
  | some x => s.push x

def value (s : Vwap) : Option ℚ :=
  if s.win.length < s.period ∨ s.sumV = 0 then none else some (s.sumPv / s.sumV)

theorem isWindow_sumPv : IsWindow push period win sumPv fun x ↦ x.1 * x.2 where
  capacity_update _ _ := rfl
  buf_update _ _ := rfl
  total_update _ _ := rfl

theorem isWindow_sumV : IsWindow push period win sumV Prod.snd where
  capacity_update _ _ := rfl
  buf_update _ _ := rfl
  total_update _ _ := rfl

end Vwap

/-! ## Batch definitions -/

/-- The last `period` observations, if there are as many. -/
def lastWindow {α : Type} (period : ℕ) (l : List α) : Option (List α) :=
  if l.length < period then none else some (l.rtake period)

def smaBatch (period : ℕ) (l : List ℚ) : Option ℚ := (lastWindow period l).map mean

/-- The mean, and bands around it that are `k` standard deviations wide. -/
def bollingerBatch (sqrt : ℚ → ℚ) (k : ℚ) (period : ℕ) (l : List ℚ) : Option (ℚ × ℚ × ℚ) :=
  (lastWindow period l).map fun w ↦
    (mean w - k * sqrt (variance w), mean w, mean w + k * sqrt (variance w))

def vwapBatch (period : ℕ) (l : List (ℚ × ℚ)) : Option ℚ :=
  (lastWindow period l).bind fun w ↦
    if (w.map Prod.snd).sum = 0 then none
    else some ((w.map fun x ↦ x.1 * x.2).sum / (w.map Prod.snd).sum)

/-- An indicator that is built gives, after any observations, the batch definition of the finite ones
among them, and is in a state that depends on these only. -/
def Streams {σ ω α V : Type} (new : Option σ) (update : σ → ω → σ) (value : σ → V)
    (toRat : ω → Option α) (batch : List α → V) : Prop :=
  ∃ s, new = some s ∧ ∀ obs : List ω,
    value (obs.foldl update s) = batch (obs.filterMap toRat) ∧
      ∀ obs' : List ω, obs'.filterMap toRat = obs.filterMap toRat →
        obs'.foldl update s = obs.foldl update s

/-- Where what is not finite is skipped, it is enough to look at finite observations. -/
theorem streams_of_push {σ ω α V : Type} {new : Option σ} {update : σ → ω → σ} {value : σ → V}
    {toRat : ω → Option α} {batch : List α → V} {push : σ → α → σ} {s : σ} (hnew : new = some s)
    (hskip : ∀ s o, toRat o = none → update s o = s)
    (hpush : ∀ s o x, toRat o = some x → update s o = push s x)
    (hvalue : ∀ l, value (l.foldl push s) = batch l) : Streams new update value toRat batch := by
  have hrun (obs : List ω) (s : σ) :
      obs.foldl update s = (obs.filterMap toRat).foldl push s := by
    induction obs generalizing s with
    | nil => rfl
    | cons o obs ih =>
      cases ho : toRat o with
      | none => rw [List.filterMap_cons_none ho, List.foldl_cons, hskip s o ho, ih]
      | some x =>
        rw [List.filterMap_cons_some ho, List.foldl_cons, List.foldl_cons, hpush s o x ho, ih]
  refine ⟨s, hnew, fun obs ↦ ⟨?_, fun obs' heq ↦ ?_⟩⟩
  · rw [hrun, hvalue]
  · rw [hrun, hrun, heq]

section Values

variable {period : ℕ}

theorem length_rtake_of_le {α : Type} {l : List α} (h : period ≤ l.length) :
    (l.rtake period).length = period := by
  rw [length_rtake, min_eq_left h]

theorem Sma.value_foldl (period : ℕ) (l : List ℚ) :
    (l.foldl Sma.push ⟨period, [], 0⟩).value = smaBatch period l := by
  have hperiod := Sma.isWindow.capacity_foldl ⟨period, [], 0⟩ l
  have hbuf := Sma.isWindow.buf_foldl (s := ⟨period, [], 0⟩) rfl l
  have hsum := Sma.isWindow.total_foldl (s := ⟨period, [], 0⟩) rfl rfl l
  rw [Sma.value, hperiod, hbuf, hsum, smaBatch, lastWindow]
  by_cases hshort : l.length < period
  · have hne : (l.rtake period).length ≠ period := by
      rw [length_rtake]
      omega
    rw [if_pos hshort, if_neg hne, Option.map_none]
  · have hfull := length_rtake_of_le (not_lt.mp hshort)
    rw [if_neg hshort, if_pos hfull, Option.map_some, List.map_id, mean, hfull]

theorem Bollinger.value_foldl (sqrt : ℚ → ℚ) (k : ℚ) (hperiod : 0 < period) (l : List ℚ) :
    (l.foldl Bollinger.push ⟨period, k, [], 0, 0⟩).value sqrt
      = bollingerBatch sqrt k period l := by
  have hk : (l.foldl Bollinger.push ⟨period, k, [], 0, 0⟩).k = k := by
    induction l using List.reverseRecOn with
    | nil => rfl
    | append_singleton l x ih =>
      rw [List.foldl_append]
      exact ih
  have hcapacity := Bollinger.isWindow_sum.capacity_foldl ⟨period, k, [], 0, 0⟩ l
  have hbuf := Bollinger.isWindow_sum.buf_foldl (s := ⟨period, k, [], 0, 0⟩) rfl l
  have hsum := Bollinger.isWindow_sum.total_foldl (s := ⟨period, k, [], 0, 0⟩) rfl rfl l
  have hsumSq := Bollinger.isWindow_sumSq.total_foldl (s := ⟨period, k, [], 0, 0⟩) rfl rfl l
  simp only [Bollinger.value, hk, hcapacity, hbuf, hsum, hsumSq, bollingerBatch, lastWindow,
    length_rtake, List.map_id]
  by_cases hshort : l.length < period
  · rw [if_pos hshort, if_pos (by omega), Option.map_none]
  · have hfull := length_rtake_of_le (not_lt.mp hshort)
    have hne : l.rtake period ≠ [] := by
      intro hnil
      rw [hnil, List.length_nil] at hfull
      omega
    have hmean : (l.rtake period).sum / period = mean (l.rtake period) := by
      rw [mean, hfull]
    have hvariance : ((l.rtake period).map fun x ↦ x * x).sum / period
        - mean (l.rtake period) * mean (l.rtake period) = variance (l.rtake period) := by
      rw [variance_eq hne, hfull]
    rw [if_neg hshort, if_neg (by omega), Option.map_some, hmean, hvariance,
      max_eq_left (variance_nonneg _)]

theorem Vwap.value_foldl (period : ℕ) (l : List (ℚ × ℚ)) :
    (l.foldl Vwap.push ⟨period, [], 0, 0⟩).value = vwapBatch period l := by
  have hperiod := Vwap.isWindow_sumPv.capacity_foldl ⟨period, [], 0, 0⟩ l
  have hwin := Vwap.isWindow_sumPv.buf_foldl (s := ⟨period, [], 0, 0⟩) rfl l
  have hsumPv := Vwap.isWindow_sumPv.total_foldl (s := ⟨period, [], 0, 0⟩) rfl rfl l
  have hsumV := Vwap.isWindow_sumV.total_foldl (s := ⟨period, [], 0, 0⟩) rfl rfl l
  simp only [Vwap.value, hperiod, hwin, hsumPv, hsumV, vwapBatch, lastWindow, length_rtake]
  by_cases hshort : l.length < period
  · rw [if_pos hshort, if_pos (Or.inl (by omega)), Option.bind_none]
  · rw [if_neg hshort, Option.bind_some]
    by_cases hzero : ((l.rtake period).map Prod.snd).sum = 0
    · rw [if_pos hzero, if_pos (Or.inr hzero)]
    · rw [if_neg hzero, if_neg (by rintro (hlt | heq) <;> [omega; exact hzero heq])]

end Values

/-- **Streaming indicators equal their batch definition.** Over the last `period` finite observations
the moving average is the mean, the bands are about the mean and the variance, and the
volume-weighted price is the weighted mean; there is no value before there are as many observations,
or where the volume of the window is zero. What is not finite changes nothing. -/
theorem indicators_stream {period : ℕ} (hperiod : 0 < period) (sqrt : ℚ → ℚ) (k : ℚ) :
    Streams (Sma.new period) Sma.update Sma.value F64.toRat (smaBatch period) ∧
    Streams (Bollinger.new period k) Bollinger.update (Bollinger.value sqrt) F64.toRat
      (bollingerBatch sqrt k period) ∧
    Streams (Vwap.new period) Vwap.update Vwap.value Vwap.toRat (vwapBatch period) := by
  refine ⟨?_, ?_, ?_⟩
  · refine streams_of_push (if_pos hperiod) ?_ ?_ (Sma.value_foldl period)
    · intro s o ho
      simp only [Sma.update, ho]
    · intro s o x ho
      simp only [Sma.update, ho]
  · refine streams_of_push (if_pos hperiod) ?_ ?_ (Bollinger.value_foldl sqrt k hperiod)
    · intro s o ho
      simp only [Bollinger.update, ho]
    · intro s o x ho
      simp only [Bollinger.update, ho]
  · refine streams_of_push (if_pos hperiod) ?_ ?_ (Vwap.value_foldl period)
    · intro s o ho
      simp only [Vwap.update, ho]
    · intro s o x ho
      simp only [Vwap.update, ho]

/-- The square root of the square of a rational. -/
def exactSqrt (q : ℚ) : ℚ := Nat.sqrt q.num.toNat / Nat.sqrt q.den

theorem indicators_stream_eight :
    Streams (Sma.new 8) Sma.update Sma.value F64.toRat (smaBatch 8) ∧
    Streams (Bollinger.new 8 1) Bollinger.update (Bollinger.value exactSqrt) F64.toRat
      (bollingerBatch exactSqrt 1 8) ∧
    Streams (Vwap.new 8) Vwap.update Vwap.value Vwap.toRat (vwapBatch 8) :=
  indicators_stream (by decide) exactSqrt 1

/-- The mean is 5 and the deviation is 2; a value that is no number is skipped. -/
example : (Bollinger.new 8 1).map (fun s ↦ ([.finite 2, .finite 4, .finite 4, .nan, .finite 4,
    .finite 5, .finite 5, .finite 7, .finite 9].foldl Bollinger.update s).value exactSqrt)
      = some (some (3, 5, 7)) := by decide +kernel

end Coinext
