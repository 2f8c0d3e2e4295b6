import Coinext.Support.Rounding
import Mathlib.Data.List.AList

/-!
# Rules of the A-share markets

Which venues settle T+1, the daily price band around a previous close, and the previous close
itself, looked up over trading days. Floats are exact rationals here. Calendars and time zones, the
cases of texts and the decimal digits beyond the ASCII ones are those of the platform.
-/

namespace Coinext.Broker

/-- A date, as the number of its day. -/
abbrev Day := ℤ

/-- Texts as the language handles them. -/
class PyText where
  upper : String → String
  strip : String → String
  isDigit : Char → Bool
  upper_upper : ∀ s, upper (upper s) = upper s

/-- Venue calendars. -/
class Calendars where
  /-- The local date of a time at a venue. -/
  sessionDate : ℤ → String → Day
  /-- The nearest trading day before a day, within thirty days. -/
  previousSessionDate : String → Day → Option Day

/-- The two sides, as the broker spells them. -/
inductive Side where
  | buy | sell
deriving DecidableEq

variable [PyText]

def t1Venues : List String := ["SSE", "SZSE"]

def isT1Venue (venue : String) : Bool := PyText.upper (PyText.strip venue) ∈ t1Venues

def tradeDateFromNs [Calendars] (tsNs : ℤ) (venue : String) : Day :=
  Calendars.sessionDate tsNs venue

def limitPctMain : ℚ := 1 / 10

def limitPctChinextStar : ℚ := 1 / 5

def limitPctSt : ℚ := 1 / 20

/-- Remove a suffix, if it is there. -/
def dropSuffix (suffix body : List Char) : List Char :=
  if suffix.isSuffixOf body then body.take (body.length - suffix.length) else body

/-- Daily limit fraction, or `none` if the venue has no band. -/
def priceLimitPct (venue symbol : String) : Option ℚ :=
  if isT1Venue venue then
    let s := (PyText.upper (PyText.strip symbol)).toList
    if "*ST".toList.isPrefixOf s ∨ "ST".toList.isPrefixOf s then some limitPctSt
    else
      let body := dropSuffix ".SZ".toList (dropSuffix ".SS".toList s)
      if body ≠ [] ∧ body.all PyText.isDigit then
        let b := List.replicate (6 - body.length) '0' ++ body
        if ["300", "301", "688", "689"].any fun p ↦ p.toList.isPrefixOf b then
          some limitPctChinextStar
        else some limitPctMain
      else some limitPctMain
  else none

/-- Round to cents. -/
def roundTick (px : ℚ) : ℚ := roundHalfEven (px * 100) / 100

structure LimitBand where
  prevClose : ℚ
  pct : ℚ

namespace LimitBand

variable (b : LimitBand)

def up : ℚ := roundTick (b.prevClose * (1 + b.pct))

def down : ℚ := roundTick (b.prevClose * (1 - b.pct))

def clamp (price : ℚ) : ℚ := min b.up (max b.down price)

/-- A buy is held against the upper bound only, and a sell against the lower one. -/
def allows (price : ℚ) : Side → Bool
  | .buy => decide (price ≤ b.up + 1 / 10 ^ 9)
  | .sell => decide (b.down - 1 / 10 ^ 9 ≤ price)

/-- The price lies in the band. -/
def Contains (price : ℚ) : Prop := b.down ≤ price ∧ price ≤ b.up

instance (price : ℚ) : Decidable (b.Contains price) := inferInstanceAs (Decidable (_ ∧ _))

end LimitBand

def limitBand (venue symbol : String) (prevClose : ℚ) : Option LimitBand :=
  match priceLimitPct venue symbol with
  | none => none
  | some pct => if prevClose ≤ 0 then none else some ⟨prevClose, pct⟩

/-- Last close on one of the trading days before `d`, itself included, at most `n` of them. -/
def lookBack [Calendars] (closesBySession : AList fun _ : Day ↦ ℚ) (venue : String) :
    ℕ → Option Day → Option ℚ
  | 0, _ | _, none => none
  | n + 1, some d =>
    match closesBySession.lookup d with
    | some close => some close
    | none => lookBack closesBySession venue n (Calendars.previousSessionDate venue d)

def resolvePrevClose [Calendars] (closesBySession : AList fun _ : Day ↦ ℚ) (sessionDay : Day)
    (venue : String) : Option ℚ :=
  lookBack closesBySession venue 30 (Calendars.previousSessionDate venue sessionDay)

/-! ## Bands -/

omit [PyText] in
theorem roundTick_mono : Monotone roundTick := by
  intro a b hab
  have hround : roundHalfEven (a * 100) ≤ roundHalfEven (b * 100) :=
    roundHalfEven_mono (mul_le_mul_of_nonneg_right hab (by norm_num))
  exact div_le_div_of_nonneg_right (by exact_mod_cast hround) (by norm_num)

theorem priceLimitPct_pos {venue symbol : String} {pct : ℚ}
    (h : priceLimitPct venue symbol = some pct) : 0 < pct := by
  unfold priceLimitPct at h
  simp only at h
  split_ifs at h <;> cases h <;> norm_num [limitPctSt, limitPctChinextStar, limitPctMain]

theorem LimitBand.down_le_up {venue symbol : String} {prevClose : ℚ} {b : LimitBand}
    (h : limitBand venue symbol prevClose = some b) : b.down ≤ b.up := by
  unfold limitBand at h
  cases hpct : priceLimitPct venue symbol with
  | none =>
    rw [hpct] at h
    cases h
  | some pct =>
    rw [hpct] at h
    split_ifs at h with hprev
    cases h
    have hpos := priceLimitPct_pos hpct
    refine roundTick_mono (mul_le_mul_of_nonneg_left ?_ (not_le.mp hprev).le)
    linarith

omit [PyText] in
theorem LimitBand.contains_clamp {b : LimitBand} (h : b.down ≤ b.up) (price : ℚ) :
    b.Contains (b.clamp price) :=
  ⟨le_min h (le_max_left _ _), min_le_left _ _⟩

end Coinext.Broker
