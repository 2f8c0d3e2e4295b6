import Mathlib.Data.Nat.Find
import Mathlib.Order.Monotone.Basic
import Mathlib.Tactic.IntervalCases

/-!
# The Gregorian calendar

Days are counted from the first of January of the year one. `yearOf` and `monthOf` are the latest
year, and month of it, that have begun; they are determined by the leap years and the lengths of the
months.

The common shortcut starts its years in March, so that the leap day comes last. In a cycle of four
hundred years it finds the year of a day by one division: the day is corrected for the leap days
before it (`marchEstimate`), and the correction is monotone and right on the first and the last day
of every year of the cycle. `of_march` and `of_march_next` say that the shortcut agrees with the
calendar.

A `Date` is a day of a month that exists. Dates and numbers of days are the same: `dateOf` and
`Date.daysBefore` are inverse to each other.
-/

namespace Coinext

namespace Calendar

/-! ## Years and months -/

/-- Days before a year. -/
def daysBeforeYear (y : ℕ) : ℕ := 365 * (y - 1) + (y - 1) / 4 - (y - 1) / 100 + (y - 1) / 400

/-- A leap year is divisible by four, and by four hundred if by one hundred. -/
def IsLeap (y : ℕ) : Prop := 4 ∣ y ∧ (100 ∣ y → 400 ∣ y)

instance (y : ℕ) : Decidable (IsLeap y) := inferInstanceAs (Decidable (_ ∧ _))

def daysInMonth (y : ℕ) : ℕ → ℕ
  | 2 => if IsLeap y then 29 else 28
  | 4 | 6 | 9 | 11 => 30
  | _ => 31

/-- Days of a year before its month `m`; the first month is one. -/
def daysBeforeMonth (y : ℕ) : ℕ → ℕ
  | 0 | 1 => 0
  | m + 2 => daysBeforeMonth y (m + 1) + daysInMonth y (m + 1)

/-- The latest year that has begun. -/
def yearOf (n : ℕ) : ℕ := Nat.findGreatest (fun y ↦ daysBeforeYear y ≤ n) (n / 365 + 1)

/-- The latest month of the year that has begun. -/
def monthOf (n : ℕ) : ℕ :=
  Nat.findGreatest (fun m ↦ daysBeforeYear (yearOf n) + daysBeforeMonth (yearOf n) m ≤ n) 12

/-- The year and the month as one number. -/
def yyyymm (n : ℕ) : ℕ := yearOf n * 100 + monthOf n

theorem daysBeforeYear_succ {y : ℕ} (hy : 0 < y) :
    daysBeforeYear (y + 1) = daysBeforeYear y + (if IsLeap y then 366 else 365) := by
  obtain ⟨x, rfl⟩ := Nat.exists_eq_add_of_lt hy
  rw [Nat.zero_add]
  have hle : x / 100 ≤ x / 4 := Nat.div_le_div_left (by decide) (by decide)
  unfold daysBeforeYear IsLeap
  simp only [Nat.add_sub_cancel, Nat.succ_div]
  by_cases hfour : 4 ∣ x + 1
  · by_cases hcentury : 100 ∣ x + 1
    · by_cases hcycle : 400 ∣ x + 1
      · simp only [hfour, hcentury, hcycle, if_true, and_self, imp_self]
        omega
      · simp only [hfour, hcentury, hcycle, if_true, if_false, true_and, true_imp_iff]
        omega
    · have hcycle : ¬ 400 ∣ x + 1 := fun h ↦ hcentury ((by decide : 100 ∣ 400).trans h)
      simp only [hfour, hcentury, hcycle, if_true, if_false, true_and, false_imp_iff]
      omega
  · have hcentury : ¬ 100 ∣ x + 1 := fun h ↦ hfour ((by decide : 4 ∣ 100).trans h)
    have hcycle : ¬ 400 ∣ x + 1 := fun h ↦ hcentury ((by decide : 100 ∣ 400).trans h)
    simp only [hfour, hcentury, hcycle, if_false, false_and]
    omega

theorem daysBeforeYear_mono : Monotone daysBeforeYear := by
  refine monotone_nat_of_le_succ fun y ↦ ?_
  rcases Nat.eq_zero_or_pos y with rfl | hy
  · exact le_rfl
  · rw [daysBeforeYear_succ hy]
    exact Nat.le_add_right ..

theorem daysBeforeMonth_mono (y : ℕ) : Monotone (daysBeforeMonth y) := by
  refine monotone_nat_of_le_succ fun m ↦ ?_
  cases m with
  | zero => exact le_rfl
  | succ m => exact Nat.le_add_right ..

theorem daysBeforeMonth_of_march (y : ℕ) {j : ℕ} (hj : j ≤ 10) :
    daysBeforeMonth y (j + 3) = 59 + (if IsLeap y then 1 else 0) + (153 * j + 2) / 5 := by
  split_ifs with hleap <;> interval_cases j <;> simp [daysBeforeMonth, daysInMonth, hleap]

/-! ## What determines them -/

theorem yearOf_eq {n y : ℕ} (hy : 0 < y) (hle : daysBeforeYear y ≤ n)
    (hlt : n < daysBeforeYear (y + 1)) : yearOf n = y := by
  rw [yearOf, Nat.findGreatest_eq_iff]
  refine ⟨?_, fun _ ↦ hle, fun y' hy' _ hbegun ↦ ?_⟩
  · unfold daysBeforeYear at hle
    omega
  · exact absurd (hlt.trans_le (daysBeforeYear_mono hy')) hbegun.not_gt

theorem monthOf_eq {n y m : ℕ} (hyear : yearOf n = y) (hm : m ≤ 12)
    (hle : daysBeforeYear y + daysBeforeMonth y m ≤ n)
    (hlt : n < daysBeforeYear y + daysBeforeMonth y (m + 1)) : monthOf n = m := by
  rw [monthOf, Nat.findGreatest_eq_iff, hyear]
  refine ⟨hm, fun _ ↦ hle, fun m' hmm' _ hbegun ↦ ?_⟩
  have hmono : daysBeforeMonth y (m + 1) ≤ daysBeforeMonth y m' := daysBeforeMonth_mono y hmm'
  exact absurd (hlt.trans_le (Nat.add_le_add_left hmono _)) hbegun.not_gt

theorem monthOf_le (n : ℕ) : monthOf n ≤ 12 := Nat.findGreatest_le 12

theorem yyyymm_mono : Monotone yyyymm := by
  intro n n' h
  have hyear : yearOf n ≤ yearOf n' := by
    refine (Nat.findGreatest_mono_left (fun y hy ↦ hy.trans h) _).trans
      (Nat.findGreatest_mono_right _ ?_)
    omega
  unfold yyyymm
  rcases hyear.eq_or_lt with heq | hlt
  · have hmonth : monthOf n ≤ monthOf n' := by
      rw [monthOf, monthOf, heq]
      exact Nat.findGreatest_mono_left (fun m hm ↦ hm.trans h) 12
    rw [heq]
    exact Nat.add_le_add_left hmonth _
  · have hmonth := monthOf_le n
    omega

/-! ## Years that start in March -/

/-- The day of a cycle, less the leap days that are before it. -/
def marchEstimate (doe : ℕ) : ℕ := doe - doe / 1460 + doe / 36524 - doe / 146096

/-- Days of a cycle before its year `y`; the first year is zero. -/
def daysBeforeMarchYear (y : ℕ) : ℕ := 365 * y + y / 4 - y / 100 + y / 400

theorem daysBeforeMarchYear_succ_le (y : ℕ) :
    daysBeforeMarchYear (y + 1) ≤ daysBeforeMarchYear y + 366 := by
  unfold daysBeforeMarchYear
  omega

theorem daysBeforeMarchYear_of_lt {y : ℕ} (h : y < 400) :
    daysBeforeMarchYear y = 365 * y + y / 4 - y / 100 := by
  rw [daysBeforeMarchYear, Nat.div_eq_of_lt h, Nat.add_zero]

theorem marchEstimate_mono : Monotone marchEstimate := by
  refine monotone_nat_of_le_succ fun doe ↦ ?_
  have hfour (n : ℕ) : n / 146096 = n / 36524 / 4 := by rw [Nat.div_div_eq_div_mul]
  have hcentury : doe / 36524 ≤ (doe + 1) / 36524 := Nat.div_le_div_right doe.le_succ
  have hleap : (doe + 1) / 1460 ≤ doe / 1460 + 1 := by omega
  have hle : doe / 1460 ≤ doe := Nat.div_le_self ..
  unfold marchEstimate
  rw [hfour, hfour]
  -- from here on only the order of the quotients matters
  generalize doe / 36524 = c at *
  generalize (doe + 1) / 36524 = c' at *
  generalize doe / 1460 = l at *
  generalize (doe + 1) / 1460 = l' at *
  clear hfour
  omega

theorem le_marchEstimate :
    ∀ y ≤ 400, 365 * y ≤ marchEstimate (daysBeforeMarchYear y) := by
  decide +kernel

theorem marchEstimate_lt :
    ∀ y < 400, marchEstimate (daysBeforeMarchYear (y + 1) - 1) < 365 * (y + 1) := by
  decide +kernel

theorem marchYear_lt {doe : ℕ} (h : doe < 146097) : marchEstimate doe / 365 < 400 := by
  unfold marchEstimate
  omega

theorem marchYear_spec {doe : ℕ} (h : doe < 146097) :
    daysBeforeMarchYear (marchEstimate doe / 365) ≤ doe
      ∧ doe < daysBeforeMarchYear (marchEstimate doe / 365 + 1) := by
  have hlast := marchYear_lt h
  constructor
  · -- a later year would put the last day before it past its end
    by_contra hlt
    have hpos : 0 < marchEstimate doe / 365 := by
      rcases Nat.eq_zero_or_pos (marchEstimate doe / 365) with hzero | hpos
      · rw [hzero] at hlt
        exact absurd (Nat.zero_le doe) hlt
      · exact hpos
    obtain ⟨y, hy⟩ := Nat.exists_eq_add_of_lt hpos
    rw [Nat.zero_add] at hy
    rw [hy] at hlt hlast
    have hbefore := marchEstimate_mono (Nat.le_sub_one_of_lt (not_le.mp hlt))
    have hend := marchEstimate_lt y (by omega)
    omega
  · by_contra hge
    have hafter := marchEstimate_mono (not_lt.mp hge)
    have hstart : 365 * (marchEstimate doe / 365 + 1)
        ≤ marchEstimate (daysBeforeMarchYear (marchEstimate doe / 365 + 1)) :=
      le_marchEstimate _ hlast
    omega

theorem daysBeforeYear_march (era y : ℕ) :
    daysBeforeYear (400 * era + y + 1) = 146097 * era + daysBeforeMarchYear y := by
  unfold daysBeforeYear daysBeforeMarchYear
  omega

theorem marchMonth_spec (doy : ℕ) :
    (153 * ((5 * doy + 2) / 153) + 2) / 5 ≤ doy
      ∧ doy < (153 * ((5 * doy + 2) / 153 + 1) + 2) / 5 := by
  omega

section March

variable {n era y doy mp : ℕ} (hn : n + 306 = 146097 * era + daysBeforeMarchYear y + doy)
  (hmonth : (153 * mp + 2) / 5 ≤ doy) (hmonth' : doy < (153 * (mp + 1) + 2) / 5)

include hn hmonth hmonth'

theorem of_march (hmp : mp < 10) :
    yearOf n = 400 * era + y ∧ monthOf n = mp + 3 := by
  have hyear := daysBeforeYear_march era y
  have hpos : 0 < 400 * era + y := by
    by_contra hzero
    obtain ⟨rfl, rfl⟩ : era = 0 ∧ y = 0 := by omega
    have hfirst : daysBeforeMarchYear 0 = 0 := rfl
    omega
  have hsucc := daysBeforeYear_succ hpos
  have hbefore := daysBeforeMonth_of_march (400 * era + y) hmp.le
  have hnext := daysBeforeMonth_of_march (400 * era + y) (Nat.succ_le_of_lt hmp)
  have hyearOf : yearOf n = 400 * era + y := by
    refine yearOf_eq hpos ?_ ?_
    · split_ifs at hsucc <;> omega
    · omega
  refine ⟨hyearOf, monthOf_eq hyearOf (by omega) ?_ ?_⟩
  · rw [hbefore]
    split_ifs at hsucc ⊢ <;> omega
  · rw [show mp + 3 + 1 = mp + 1 + 3 from rfl, hnext]
    split_ifs at hsucc ⊢ <;> omega

theorem of_march_next (hlast : n + 306 < 146097 * era + daysBeforeMarchYear (y + 1))
    (hmp : 10 ≤ mp) (hmp' : mp < 12) :
    yearOf n = 400 * era + y + 1 ∧ monthOf n = mp - 9 := by
  have hyear := daysBeforeYear_march era y
  have hsucc : daysBeforeYear (400 * era + y + 1 + 1) = daysBeforeYear (400 * era + y + 1)
      + (if IsLeap (400 * era + y + 1) then 366 else 365) := daysBeforeYear_succ (Nat.succ_pos _)
  have hnext : daysBeforeYear (400 * era + y + 1 + 1)
      = 146097 * era + daysBeforeMarchYear (y + 1) := daysBeforeYear_march era (y + 1)
  have hyearOf : yearOf n = 400 * era + y + 1 := by
    refine yearOf_eq (Nat.succ_pos _) ?_ ?_
    · omega
    · omega
  refine ⟨hyearOf, monthOf_eq hyearOf (by omega) ?_ ?_⟩
  · interval_cases mp
    · change daysBeforeYear (400 * era + y + 1) + 0 ≤ n
      omega
    · change daysBeforeYear (400 * era + y + 1) + 31 ≤ n
      omega
  · interval_cases mp
    · change n < daysBeforeYear (400 * era + y + 1) + 31
      omega
    · have hmarch := daysBeforeMonth_of_march (400 * era + y + 1) (Nat.zero_le 10)
      change n < daysBeforeYear (400 * era + y + 1)
        + daysBeforeMonth (400 * era + y + 1) (0 + 3)
      rw [hmarch]
      split_ifs at hsucc ⊢ <;> omega

end March

/-! ## Dates -/

/-- A date of the calendar. -/
@[ext]
structure Date where
  year : ℕ
  month : ℕ
  day : ℕ
  year_pos : 0 < year
  month_pos : 0 < month
  month_le : month ≤ 12
  day_pos : 0 < day
  day_le : day ≤ daysInMonth year month
deriving DecidableEq

/-- Days before a date. -/
def Date.daysBefore (d : Date) : ℕ :=
  daysBeforeYear d.year + daysBeforeMonth d.year d.month + (d.day - 1)

theorem daysBeforeMonth_succ (y : ℕ) {m : ℕ} (hm : 0 < m) :
    daysBeforeMonth y (m + 1) = daysBeforeMonth y m + daysInMonth y m := by
  obtain ⟨m, rfl⟩ := Nat.exists_eq_add_of_lt hm
  rw [Nat.zero_add]
  rfl

theorem daysBeforeYear_add_daysBeforeMonth {y : ℕ} (hy : 0 < y) :
    daysBeforeYear y + daysBeforeMonth y 13 = daysBeforeYear (y + 1) := by
  rw [daysBeforeYear_succ hy, daysBeforeMonth_of_march y le_rfl]
  split_ifs <;> rfl

theorem daysBeforeYear_yearOf_le (n : ℕ) : daysBeforeYear (yearOf n) ≤ n :=
  Nat.findGreatest_spec (P := fun y ↦ daysBeforeYear y ≤ n) (Nat.zero_le _) (Nat.zero_le n)

theorem lt_daysBeforeYear_yearOf_succ (n : ℕ) : n < daysBeforeYear (yearOf n + 1) := by
  by_contra hle
  rw [not_lt] at hle
  have hbound : yearOf n + 1 ≤ n / 365 + 1 := by
    have hdays : 365 * yearOf n ≤ daysBeforeYear (yearOf n + 1) := by
      unfold daysBeforeYear
      omega
    omega
  exact Nat.not_succ_le_self _ (Nat.le_findGreatest hbound hle)

theorem yearOf_pos (n : ℕ) : 0 < yearOf n :=
  Nat.le_findGreatest (Nat.le_add_left 1 _) (Nat.zero_le n)

theorem yearOf_le_iff {n y : ℕ} : yearOf n ≤ y ↔ n < daysBeforeYear (y + 1) := by
  constructor
  · intro hle
    exact (lt_daysBeforeYear_yearOf_succ n).trans_le (daysBeforeYear_mono (Nat.succ_le_succ hle))
  · intro hlt
    by_contra hgt
    have hmono := daysBeforeYear_mono (not_le.mp hgt)
    exact absurd (hmono.trans (daysBeforeYear_yearOf_le n)) hlt.not_ge

theorem monthOf_pos (n : ℕ) : 0 < monthOf n :=
  Nat.le_findGreatest (by decide) (daysBeforeYear_yearOf_le n)

theorem daysBeforeMonth_monthOf_le (n : ℕ) :
    daysBeforeYear (yearOf n) + daysBeforeMonth (yearOf n) (monthOf n) ≤ n :=
  Nat.findGreatest_spec
    (P := fun m ↦ daysBeforeYear (yearOf n) + daysBeforeMonth (yearOf n) m ≤ n)
    (Nat.zero_le _) (daysBeforeYear_yearOf_le n)

theorem lt_daysBeforeMonth_monthOf_succ (n : ℕ) :
    n < daysBeforeYear (yearOf n) + daysBeforeMonth (yearOf n) (monthOf n + 1) := by
  rcases (monthOf_le n).eq_or_lt with hlast | hlt
  · rw [hlast, daysBeforeYear_add_daysBeforeMonth (yearOf_pos n)]
    exact lt_daysBeforeYear_yearOf_succ n
  · by_contra hle
    exact Nat.not_succ_le_self _ (Nat.le_findGreatest hlt (not_lt.mp hle))

/-- The date that has `n` days before it. -/
def dateOf (n : ℕ) : Date where
  year := yearOf n
  month := monthOf n
  day := n - (daysBeforeYear (yearOf n) + daysBeforeMonth (yearOf n) (monthOf n)) + 1
  year_pos := yearOf_pos n
  month_pos := monthOf_pos n
  month_le := monthOf_le n
  day_pos := Nat.succ_pos _
  day_le := by
    have hle := daysBeforeMonth_monthOf_le n
    have hlt := lt_daysBeforeMonth_monthOf_succ n
    rw [daysBeforeMonth_succ _ (monthOf_pos n)] at hlt
    omega

theorem daysBefore_dateOf (n : ℕ) : (dateOf n).daysBefore = n := by
  have hle := daysBeforeMonth_monthOf_le n
  simp only [Date.daysBefore, dateOf]
  omega

namespace Date

variable (d : Date)

theorem daysBefore_lt :
    d.daysBefore < daysBeforeYear d.year + daysBeforeMonth d.year (d.month + 1) := by
  have hpos := d.day_pos
  have hle := d.day_le
  rw [daysBeforeMonth_succ _ d.month_pos, daysBefore]
  omega

theorem yearOf_daysBefore : yearOf d.daysBefore = d.year := by
  refine yearOf_eq d.year_pos ?_ ?_
  · rw [daysBefore, Nat.add_assoc]
    exact Nat.le_add_right ..
  · rw [← daysBeforeYear_add_daysBeforeMonth d.year_pos]
    exact d.daysBefore_lt.trans_le
      (Nat.add_le_add_left (daysBeforeMonth_mono _ (Nat.succ_le_succ d.month_le)) _)

theorem monthOf_daysBefore : monthOf d.daysBefore = d.month :=
  monthOf_eq d.yearOf_daysBefore d.month_le (Nat.le_add_right ..) d.daysBefore_lt

end Date

theorem dateOf_daysBefore (d : Date) : dateOf d.daysBefore = d := by
  have hpos := d.day_pos
  have hday : (dateOf d.daysBefore).day = d.day := by
    simp only [dateOf, d.yearOf_daysBefore, d.monthOf_daysBefore]
    rw [Date.daysBefore]
    omega
  exact Date.ext d.yearOf_daysBefore d.monthOf_daysBefore hday

end Calendar

end Coinext
