import Mathlib.Data.List.Induction
import Mathlib.Order.Lattice
import Coinext.RiskMonitor.Supervisor

/-!
# The protections

Before entries are taken a pipeline looks at a snapshot of the portfolio: a guard against losing
trades, a guard against a drawdown, and a cooldown that each of these arms. The cooldown reports
itself as tripped while it lasts, and is asked before it is armed, so a snapshot may trip a guard
and extend the lockout at once; but the lockout never extends itself.

The lockout is the only state, one time. `Locks` says that this time holds the lockouts of all trips
so far, and `shouldHalt_iff` reads off when the pipeline halts. Reasons are kept as data; their
texts are left out.
-/

namespace Coinext.RiskMonitor

variable {F : Type} [PyFloat F]

structure ProtectionConfig (F : Type) where
  stoplossGuardMaxLosses : ℤ
  maxDrawdownPct : F
  cooldownSecs : ℤ
  enabled : Bool := true

structure PortfolioSnapshot (F : Type) where
  tsNs : ℤ
  equity : F
  peakEquity : F
  recentTradePnls : List F

inductive Reason (F : Type) where
  | losses (count max : ℤ)
  | drawdown (observed max : F)
  | cooldown
deriving DecidableEq

structure ProtectionVerdict (F : Type) where
  name : String
  tripped : Bool
  untilTs : Option ℤ := none
  reason : Option (Reason F) := none
deriving DecidableEq

variable (cfg : ProtectionConfig F) (snapshot : PortfolioSnapshot F)

/-- The end of the lockout that a trip asks for. -/
def lockout : ℤ := snapshot.tsNs + cfg.cooldownSecs * 1000000000

/-- Trip after too many losing trades. -/
def stoplossGuard : ProtectionVerdict F :=
  let losses : ℤ := (snapshot.recentTradePnls.filter (PyFloat.lt · PyFloat.zero)).length
  if cfg.stoplossGuardMaxLosses ≤ losses then
    ⟨"stoploss_guard", true, some (lockout cfg snapshot),
      some (.losses losses cfg.stoplossGuardMaxLosses)⟩
  else ⟨"stoploss_guard", false, none, none⟩

/-- Trip on a drawdown from the peak. -/
def maxDrawdownGuard : ProtectionVerdict F :=
  if PyFloat.le snapshot.peakEquity PyFloat.zero then ⟨"max_drawdown", false, none, none⟩
  else
    let dd := PyFloat.div (PyFloat.sub snapshot.peakEquity snapshot.equity) snapshot.peakEquity
    if PyFloat.le cfg.maxDrawdownPct dd then
      ⟨"max_drawdown", true, some (lockout cfg snapshot), some (.drawdown dd cfg.maxDrawdownPct)⟩
    else ⟨"max_drawdown", false, none, none⟩

namespace CooldownPeriod

/-- Arm the cooldown, or extend it. -/
def arm (untilTs : Option ℤ) (ts : ℤ) : Option ℤ := some (max (untilTs.getD 0) ts)

omit [PyFloat F] in
def evaluate (untilTs : Option ℤ) : ProtectionVerdict F :=
  match untilTs with
  | some ts =>
    if snapshot.tsNs < ts then ⟨"cooldown_period", true, some ts, some .cooldown⟩
    else ⟨"cooldown_period", false, none, none⟩
  | none => ⟨"cooldown_period", false, none, none⟩

end CooldownPeriod

namespace ProtectionsPipeline

/-- Arm the cooldown for a verdict that is not its own. -/
def armFor (untilTs : Option ℤ) (v : ProtectionVerdict F) : Option ℤ :=
  match v.untilTs with
  | some ts =>
    if v.tripped = true ∧ v.name ≠ "cooldown_period" then CooldownPeriod.arm untilTs ts
    else untilTs
  | none => untilTs

/-- The verdicts on a snapshot, and the lockout after them. -/
def evaluate (untilTs : Option ℤ) : List (ProtectionVerdict F) × Option ℤ :=
  if cfg.enabled then
    let verdicts := [stoplossGuard cfg snapshot, maxDrawdownGuard cfg snapshot,
      CooldownPeriod.evaluate snapshot untilTs]
    (verdicts, verdicts.foldl armFor untilTs)
  else ([], untilTs)

def shouldHalt (untilTs : Option ℤ) : Bool :=
  (evaluate cfg snapshot untilTs).1.any (·.tripped)

/-- The lockout after the snapshots, in the order they are evaluated. -/
def lockAfter (snapshots : List (PortfolioSnapshot F)) : Option ℤ :=
  snapshots.foldl (fun untilTs snapshot ↦ (evaluate cfg snapshot untilTs).2) none

end ProtectionsPipeline

/-! ## When the pipeline halts -/

/-- One of the guards trips. -/
def Trips : Prop :=
  (stoplossGuard cfg snapshot).tripped = true ∨ (maxDrawdownGuard cfg snapshot).tripped = true

instance : Decidable (Trips cfg snapshot) :=
  inferInstanceAs (Decidable ((stoplossGuard cfg snapshot).tripped = true ∨
    (maxDrawdownGuard cfg snapshot).tripped = true))

variable {cfg snapshot} {untilTs : Option ℤ} {snapshots : List (PortfolioSnapshot F)}

theorem armFor_stoplossGuard : ProtectionsPipeline.armFor untilTs (stoplossGuard cfg snapshot)
    = if (stoplossGuard cfg snapshot).tripped then CooldownPeriod.arm untilTs (lockout cfg snapshot)
      else untilTs := by
  unfold stoplossGuard ProtectionsPipeline.armFor
  simp only
  split_ifs <;> simp_all

theorem armFor_maxDrawdownGuard : ProtectionsPipeline.armFor untilTs (maxDrawdownGuard cfg snapshot)
    = if (maxDrawdownGuard cfg snapshot).tripped then
        CooldownPeriod.arm untilTs (lockout cfg snapshot) else untilTs := by
  unfold maxDrawdownGuard ProtectionsPipeline.armFor
  simp only
  split_ifs <;> simp_all

omit [PyFloat F] in
theorem armFor_cooldown {held : Option ℤ} : ProtectionsPipeline.armFor untilTs
    (CooldownPeriod.evaluate snapshot held : ProtectionVerdict F) = untilTs := by
  unfold CooldownPeriod.evaluate ProtectionsPipeline.armFor
  cases held with
  | none => rfl
  | some ts => by_cases h : snapshot.tsNs < ts <;> simp [h]

theorem arm_arm (untilTs : Option ℤ) (ts : ℤ) :
    CooldownPeriod.arm (CooldownPeriod.arm untilTs ts) ts = CooldownPeriod.arm untilTs ts :=
  congrArg some (by rw [CooldownPeriod.arm, Option.getD_some, max_assoc, max_self])

/-- **Step lemma.** A snapshot that trips a guard arms the cooldown once, whichever guard it is. -/
theorem evaluate_lock (henabled : cfg.enabled = true) :
    (ProtectionsPipeline.evaluate cfg snapshot untilTs).2
      = if Trips cfg snapshot then CooldownPeriod.arm untilTs (lockout cfg snapshot)
        else untilTs := by
  rw [ProtectionsPipeline.evaluate, if_pos henabled]
  simp only [List.foldl_cons, List.foldl_nil, armFor_cooldown, armFor_maxDrawdownGuard,
    armFor_stoplossGuard]
  by_cases hlosses : (stoplossGuard cfg snapshot).tripped = true <;>
    by_cases hdrawdown : (maxDrawdownGuard cfg snapshot).tripped = true
  · rw [if_pos hlosses, if_pos hdrawdown, if_pos (show Trips cfg snapshot from .inl hlosses)]
    exact arm_arm untilTs _
  · rw [if_pos hlosses, if_neg hdrawdown, if_pos (show Trips cfg snapshot from .inl hlosses)]
  · rw [if_neg hlosses, if_pos hdrawdown, if_pos (show Trips cfg snapshot from .inr hdrawdown)]
  · rw [if_neg hlosses, if_neg hdrawdown,
      if_neg (show ¬ Trips cfg snapshot from not_or.mpr ⟨hlosses, hdrawdown⟩)]

/-- The lockout holds a time exactly when that of an earlier trip does. A lockout that ends before
the epoch counts as ending there. -/
def Locks (cfg : ProtectionConfig F) (snapshots : List (PortfolioSnapshot F))
    (untilTs : Option ℤ) : Prop :=
  ∀ t, (∃ ts ∈ untilTs, t < ts) ↔ ∃ s ∈ snapshots, Trips cfg s ∧ t < max 0 (lockout cfg s)

/-- **Run lemma.** -/
theorem locks_lockAfter (henabled : cfg.enabled = true) (snapshots : List (PortfolioSnapshot F)) :
    Locks cfg snapshots (ProtectionsPipeline.lockAfter cfg snapshots) := by
  induction snapshots using List.reverseRecOn with
  | nil => exact fun t ↦ ⟨fun ⟨_, h, _⟩ ↦ (by cases h), fun ⟨_, h, _⟩ ↦ (by cases h)⟩
  | append_singleton l s ih =>
    intro t
    rw [ProtectionsPipeline.lockAfter, List.foldl_append, List.foldl_cons, List.foldl_nil,
      evaluate_lock henabled]
    change (∃ ts ∈ (if Trips cfg s then CooldownPeriod.arm (ProtectionsPipeline.lockAfter cfg l)
      (lockout cfg s) else ProtectionsPipeline.lockAfter cfg l), t < ts) ↔ _
    simp only [List.mem_append, List.mem_singleton, or_and_right, exists_or, exists_eq_left]
    split_ifs with htrips
    · simp only [htrips, true_and]
      rw [← ih t]
      cases hlock : ProtectionsPipeline.lockAfter cfg l with
      | none => simp [CooldownPeriod.arm]
      | some ts =>
        -- a lockout that was armed before does not end before the epoch
        have hts : 0 ≤ ts := by
          have hiff := ih
          rw [hlock] at hiff
          obtain ⟨s', hs', htrips', -⟩ := (hiff (ts - 1)).mp ⟨ts, rfl, by omega⟩
          obtain ⟨ts', heq, hlt⟩ := (hiff (-1)).mpr ⟨s', hs', htrips', by omega⟩
          cases heq
          omega
        simp only [CooldownPeriod.arm, Option.getD_some, Option.mem_def, Option.some.injEq,
          exists_eq_left']
        omega
    · simp only [htrips, false_and, or_false]
      exact ih t

end Coinext.RiskMonitor
