import Coinext.Support.Blocks
import Mathlib.Algebra.Order.Ring.Rat
import Mathlib.Order.Defs.LinearOrder
import Mathlib.Order.Lattice

/-!
# Resampling bars

A `Resampler` makes one bar of every `factor` bars that it is fed. It keeps the open, the extremes,
the close and the volume of the bar that is in the making, each in a field, and overwrites them when
the next one begins.

Bars form a semigroup, a bar after another one being the bar of both, and the fields are a product
in this semigroup. So a resampler folds a stream of bars in blocks, and what is known of blocks is
known of it: what it emits sums up the successive blocks of the stream, and one resampler that is
fed by another does what a single one does (`resamplers_compose`).

The prices and volumes of a bar are exact rationals.
-/

namespace Coinext

open Blocks

/-- Time of the close, prices and volume. -/
structure OhlcvBar where
  ts : ℤ
  open_ : ℚ
  high : ℚ
  low : ℚ
  close : ℚ
  volume : ℚ
deriving DecidableEq

namespace OhlcvBar

/-- A bar and the next one, as one bar. -/
instance : Mul OhlcvBar where
  mul a b := ⟨b.ts, a.open_, max a.high b.high, min a.low b.low, b.close, a.volume + b.volume⟩

theorem mul_eq (a b : OhlcvBar) : a * b
    = ⟨b.ts, a.open_, max a.high b.high, min a.low b.low, b.close, a.volume + b.volume⟩ := rfl

instance : Semigroup OhlcvBar where
  mul_assoc a b c := by simp only [mul_eq, max_assoc, min_assoc, add_assoc]

/-- A bar sums up a list of bars. -/
structure SumsUp (bar : OhlcvBar) (l : List OhlcvBar) : Prop where
  open_eq : l.head?.map OhlcvBar.open_ = some bar.open_
  close_eq : l.getLast?.map (fun b ↦ (b.ts, b.close)) = some (bar.ts, bar.close)
  high_mem : bar.high ∈ l.map OhlcvBar.high
  le_high : ∀ b ∈ l, b.high ≤ bar.high
  low_mem : bar.low ∈ l.map OhlcvBar.low
  low_le : ∀ b ∈ l, bar.low ≤ b.low
  volume_eq : bar.volume = (l.map OhlcvBar.volume).sum

theorem SumsUp.singleton (b : OhlcvBar) : b.SumsUp [b] where
  open_eq := rfl
  close_eq := rfl
  high_mem := List.mem_singleton_self b.high
  le_high b' hb' := by rw [List.mem_singleton.mp hb']
  low_mem := List.mem_singleton_self b.low
  low_le b' hb' := by rw [List.mem_singleton.mp hb']
  volume_eq := (List.sum_singleton (x := b.volume)).symm

theorem SumsUp.cons {bar : OhlcvBar} {l : List OhlcvBar} (h : bar.SumsUp l) (b : OhlcvBar) :
    (b * bar).SumsUp (b :: l) := by
  have hne : l ≠ [] := by
    rintro rfl
    cases h.open_eq
  refine ⟨rfl, ?_, ?_, ?_, ?_, ?_, ?_⟩
  · rw [List.getLast?_cons_of_ne_nil hne]
    exact h.close_eq
  · rw [mul_eq, List.map_cons]
    rcases le_total b.high bar.high with hle | hle
    · rw [max_eq_right hle]
      exact List.mem_cons_of_mem _ h.high_mem
    · rw [max_eq_left hle]
      exact List.mem_cons_self
  · rintro b' (- | ⟨-, hb'⟩)
    · exact le_max_left _ _
    · exact (h.le_high b' hb').trans (le_max_right _ _)
  · rw [mul_eq, List.map_cons]
    rcases le_total b.low bar.low with hle | hle
    · rw [min_eq_left hle]
      exact List.mem_cons_self
    · rw [min_eq_right hle]
      exact List.mem_cons_of_mem _ h.low_mem
  · rintro b' (- | ⟨-, hb'⟩)
    · exact min_le_left _ _
    · exact (min_le_right _ _).trans (h.low_le b' hb')
  · rw [mul_eq, List.map_cons, List.sum_cons, ← h.volume_eq]

theorem sumsUp_of_total {l : List OhlcvBar} {bar : OhlcvBar} (h : total l = bar) :
    bar.SumsUp l := by
  induction l generalizing bar with
  | nil => exact absurd h.symm (WithOne.coe_ne_one)
  | cons b l ih =>
    cases l with
    | nil =>
      rw [total_cons, total_nil, mul_one] at h
      rw [← WithOne.coe_inj.mp h]
      exact .singleton b
    | cons b' l =>
      have hrest := ih (total_foldl b' l)
      rw [total_cons, total_foldl, ← WithOne.coe_mul] at h
      rw [← WithOne.coe_inj.mp h]
      exact hrest.cons b

end OhlcvBar

/-! ## The resampler -/

structure Resampler where
  factor : ℕ
  n : ℕ
  ts : ℤ
  open_ : ℚ
  /-- The highest price so far; none before there is one. -/
  high : Option ℚ
  /-- The lowest price so far; none before there is one. -/
  low : Option ℚ
  close : ℚ
  volume : ℚ
deriving DecidableEq

namespace Resampler

/-- The factor must be positive. -/
def new (factor : ℤ) : Option Resampler :=
  if factor ≤ 0 then none else some ⟨factor.toNat, 0, 0, 0, none, none, 0, 0⟩

/-- Feed a bar; the result is the bar that is complete with it, if there is one. -/
def update (s : Resampler) (b : OhlcvBar) : Resampler × Option OhlcvBar :=
  let s :=
    if s.n = 0 then { s with open_ := b.open_, high := none, low := none, volume := 0 } else s
  let high := s.high.elim b.high (max · b.high)
  let low := s.low.elim b.low (min · b.low)
  let s := { s with
    n := s.n + 1
    ts := b.ts
    high := some high
    low := some low
    close := b.close
    volume := s.volume + b.volume }
  if s.factor ≤ s.n then ({ s with n := 0 }, some ⟨s.ts, s.open_, high, low, s.close, s.volume⟩)
  else (s, none)

/-- The bars that are emitted for a stream of bars. -/
def feed : Resampler → List OhlcvBar → List OhlcvBar
  | _, [] => []
  | s, b :: l => (s.update b).2.toList ++ (s.update b).1.feed l

/-! ## Resampling in blocks -/

/-- What a resampler holds of the bar that is in the making. -/
def Holds (s : Resampler) : Filling OhlcvBar → Prop
  | none => s.n = 0
  | some (k, a) => 0 < k ∧
      s = ⟨s.factor, k, a.ts, a.open_, some a.high, some a.low, a.close, a.volume⟩

variable {s : Resampler} {block : Filling OhlcvBar}

theorem holds_update (h : s.Holds block) (b : OhlcvBar) :
    (s.update b).1.Holds (step s.factor block b).1 ∧
      (s.update b).2 = (step s.factor block b).2 ∧ (s.update b).1.factor = s.factor := by
  cases block with
  | none =>
    have hn : s.n = 0 := h
    by_cases hfull : s.factor ≤ 1
    · simp [update, step, fill, hn, hfull, Holds]
    · simp [update, step, fill, hn, hfull, Holds]
  | some block =>
    obtain ⟨k, a⟩ := block
    obtain ⟨hk, hs⟩ := h
    have hn : s.n ≠ 0 := by
      rw [hs]
      exact Nat.ne_of_gt hk
    by_cases hfull : s.factor ≤ k + 1
    · rw [hs]
      simp [update, step, fill, Nat.ne_of_gt hk, hfull, Holds, OhlcvBar.mul_eq]
    · rw [hs]
      simp [update, step, fill, Nat.ne_of_gt hk, hfull, Holds, OhlcvBar.mul_eq]

theorem feed_eq_emit (h : s.Holds block) (l : List OhlcvBar) :
    s.feed l = emit s.factor block l := by
  induction l generalizing s block with
  | nil => rfl
  | cons b l ih =>
    obtain ⟨hholds, hout, hfactor⟩ := holds_update h b
    rw [feed, emit, hout, ih hholds, hfactor]

theorem feed_new {factor : ℕ} (hfactor : 0 < factor) :
    ∃ s, new factor = some s ∧ ∀ l, s.feed l = blocks factor l := by
  refine ⟨⟨factor, 0, 0, 0, none, none, 0, 0⟩, if_neg (by omega), fun l ↦ ?_⟩
  have hempty : Holds ⟨factor, 0, 0, 0, none, none, 0, 0⟩ none := rfl
  exact feed_eq_emit hempty l

end Resampler

/-- **Resampling resampled bars is resampling.** What a resampler of factor `a` emits sums up the
successive blocks of `a` bars, and a resampler of factor `b` that is fed with it emits what one of
factor `a * b` does. -/
theorem resamplers_compose {a b : ℕ} (ha : 0 < a) (hb : 0 < b) :
    ∃ ra rb rab, Resampler.new a = some ra ∧ Resampler.new b = some rb ∧
      Resampler.new (a * b : ℕ) = some rab ∧ ∀ bars : List OhlcvBar,
        List.Forall₂ OhlcvBar.SumsUp (ra.feed bars)
          ((List.range (bars.length / a)).map fun i ↦ (bars.drop (i * a)).take a) ∧
        rb.feed (ra.feed bars) = rab.feed bars := by
  obtain ⟨ra, hra, hfeedA⟩ := Resampler.feed_new ha
  obtain ⟨rb, hrb, hfeedB⟩ := Resampler.feed_new hb
  obtain ⟨rab, hrab, hfeedAB⟩ := Resampler.feed_new (Nat.mul_pos ha hb)
  refine ⟨ra, rb, rab, hra, hrb, hrab, fun bars ↦ ⟨?_, ?_⟩⟩
  · rw [hfeedA]
    exact (forall₂_blocks ha bars).imp fun bar l h ↦ OhlcvBar.sumsUp_of_total h
  · rw [hfeedA, hfeedB, hfeedAB, blocks_blocks hb ha, Nat.mul_comm]

theorem resamplers_compose_five_three : ∃ ra rb rab, Resampler.new (5 : ℕ) = some ra ∧
    Resampler.new (3 : ℕ) = some rb ∧ Resampler.new (5 * 3 : ℕ) = some rab ∧
    ∀ bars : List OhlcvBar, List.Forall₂ OhlcvBar.SumsUp (ra.feed bars)
      ((List.range (bars.length / 5)).map fun i ↦ (bars.drop (i * 5)).take 5) ∧
      rb.feed (ra.feed bars) = rab.feed bars :=
  resamplers_compose (by decide) (by decide)

end Coinext
