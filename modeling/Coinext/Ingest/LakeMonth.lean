import Coinext.Ingest.BarStore
import Coinext.Support.MachineInt

/-!
# The month of a bar

Both writers of the lake name a file after the month of its bars. The sinks compute the month in
machine arithmetic, without a calendar; the Python side asks the standard library for the date.
`Sinks.yyyymmOf` is the first computation with every operation of the source, on the widths that it
has there, and `DataLake.yyyymm` is the second.

No operation of the sinks overflows and no conversion truncates, since a time in a `u64` is before
the year 2555: the machine arithmetic computes what the natural numbers compute
(`Sinks.returns_yyyymmOf`), which is the month of the calendar.
-/

namespace Coinext

open Calendar (Date)
open MachineInt (Fits toInt)

/-! ## The sinks -/

namespace Sinks

open MachineInt (add sub mul div divEuclid returns_add returns_sub returns_mul returns_div
  returns_divEuclid returns_fit toInt_cast toInt_lit lt_lit_iff le_lit_iff fits_int64 fits_uint32)

variable (o : OnOverflow)

/-- The year of a cycle that a day of the cycle is in. -/
def yoeOf (doe : Int64) : Option Int64 := do
  div (← sub o (← add o (← sub o doe (← div doe 1460)) (← div doe 36524)) (← div doe 146096)) 365

/-- The day of its year, which starts in March. -/
def doyOf (doe yoe : Int64) : Option Int64 := do
  sub o doe (← sub o (← add o (← mul o 365 yoe) (← div yoe 4)) (← div yoe 100))

/-- The month of a day; days are counted from the Unix epoch. -/
def yyyymmOfDays (days : Int64) : Option UInt32 := do
  let z ← add o days 719468
  let era ← divEuclid z 146097
  let doe ← sub o z (← mul o era 146097)
  let yoe ← yoeOf o doe
  let y ← add o yoe (← mul o era 400)
  let doy ← doyOf o doe yoe
  let mp ← div (← add o (← mul o 5 doy) 2) 153
  let m ← add o mp (if mp < 10 then 3 else -9)
  let y ← add o y (if m ≤ 2 then 1 else 0)
  add o (← mul o (MachineInt.cast y) 100) (MachineInt.cast m)

/-- The month of a time. -/
def yyyymmOf (ts : UInt64) : Option UInt32 := do
  let secs : Int64 := MachineInt.cast (← div ts 1000000000)
  yyyymmOfDays o (← divEuclid secs 86400)

variable {o} {doe yoe : Int64} {n y : ℕ}

theorem returns_yoeOf (hdoe : toInt doe = n) (hn : n < 146097) :
    Returns (yoeOf o doe) (toInt · = ((n - n / 1460 + n / 36524 - n / 146096) / 365 : ℕ)) := by
  unfold yoeOf
  refine .bind (returns_div hdoe (toInt_lit 1460 (by decide)) (by decide)) fun leaps hleaps ↦ ?_
  refine .bind (returns_sub hdoe hleaps (by omega)) fun days₁ hdays₁ ↦ ?_
  refine .bind (returns_div hdoe (toInt_lit 36524 (by decide)) (by decide))
    fun centuries hcenturies ↦ ?_
  refine .bind (returns_add hdays₁ hcenturies (fits_int64 (by omega))) fun days₂ hdays₂ ↦ ?_
  refine .bind (returns_div hdoe (toInt_lit 146096 (by decide)) (by decide)) fun last hlast ↦ ?_
  refine .bind (returns_sub hdays₂ hlast (by omega)) fun days₃ hdays₃ ↦ ?_
  exact returns_div hdays₃ (toInt_lit 365 (by decide)) (by decide)

theorem returns_doyOf (hdoe : toInt doe = n) (hyoe : toInt yoe = y) (hy : y < 400)
    (hle : 365 * y + y / 4 - y / 100 ≤ n) :
    Returns (doyOf o doe yoe) (toInt · = (n - (365 * y + y / 4 - y / 100) : ℕ)) := by
  unfold doyOf
  refine .bind (returns_mul (toInt_lit 365 (by decide)) hyoe (fits_int64 (by omega)))
    fun years hyears ↦ ?_
  refine .bind (returns_div hyoe (toInt_lit 4 (by decide)) (by decide)) fun leaps hleaps ↦ ?_
  refine .bind (returns_add hyears hleaps (fits_int64 (by omega))) fun days₁ hdays₁ ↦ ?_
  refine .bind (returns_div hyoe (toInt_lit 100 (by decide)) (by decide))
    fun centuries hcenturies ↦ ?_
  refine .bind (returns_sub hdays₁ hcenturies (by omega)) fun days₂ hdays₂ ↦ ?_
  exact returns_sub hdoe hdays₂ hle

theorem returns_month {mp : Int64} (hmp : toInt mp = n) (hn : n < 2 ^ 32) :
    Returns (add o mp (if mp < 10 then 3 else -9))
      (toInt · = (if n < 10 then n + 3 else n - 9 : ℕ)) := by
  have hiff : mp < 10 ↔ n < 10 := lt_lit_iff hmp (by decide)
  by_cases hlt : n < 10
  · rw [if_pos (hiff.mpr hlt), if_pos hlt]
    exact returns_add hmp (toInt_lit 3 (by decide)) (fits_int64 (by omega))
  · rw [if_neg (mt hiff.mp hlt), if_neg hlt]
    have hnine : toInt mp + toInt (-9 : Int64) = (n - 9 : ℕ) := by
      rw [hmp, show toInt (-9 : Int64) = -9 from rfl]
      omega
    rw [add, hnine]
    exact returns_fit (fits_int64 (by omega))

theorem returns_year {yr m : Int64} (hyr : toInt yr = y) (hm : toInt m = n) (hy : y < 2 ^ 32) :
    Returns (add o yr (if m ≤ 2 then 1 else 0)) (toInt · = (if n ≤ 2 then y + 1 else y : ℕ)) := by
  have hiff : m ≤ 2 ↔ n ≤ 2 := le_lit_iff hm (by decide)
  by_cases hle : n ≤ 2
  · rw [if_pos (hiff.mpr hle), if_pos hle]
    exact returns_add hyr (toInt_lit 1 (by decide)) (fits_int64 (by omega))
  · rw [if_neg (mt hiff.mp hle), if_neg hle]
    exact returns_add hyr (toInt_lit 0 (by decide)) (fits_int64 (by omega))

/-- The year and the month as one number, in the narrower type. -/
theorem returns_yyyymm {yr m : Int64} (hyr : toInt yr = y) (hm : toInt m = n) (hy : y < 10000)
    (hn : n < 10000) :
    Returns (mul o (MachineInt.cast yr) 100 >>= fun c ↦ add o c (MachineInt.cast m) : Option UInt32)
      (toInt · = (y * 100 + n : ℕ)) := by
  have hyr32 : toInt (MachineInt.cast yr : UInt32) = y :=
    (toInt_cast (hyr ▸ fits_uint32 (by omega))).trans hyr
  have hm32 : toInt (MachineInt.cast m : UInt32) = n :=
    (toInt_cast (hm ▸ fits_uint32 (by omega))).trans hm
  have hhundred : toInt (100 : UInt32) = (100 : ℕ) := rfl
  refine .bind (returns_mul hyr32 hhundred (fits_uint32 (by omega))) fun c hc ↦ ?_
  exact returns_add hc hm32 (fits_uint32 (by omega))

theorem returns_yyyymmOfDays {days : Int64} {d : ℕ} (hdays : toInt days = d) (hd : d < 300000) :
    Returns (yyyymmOfDays o days) (toInt · = (Coinext.yyyymmOfDays d : ℕ)) := by
  unfold yyyymmOfDays Coinext.yyyymmOfDays
  simp only
  -- the cycle of four hundred years, and the day of it
  refine .bind (returns_add hdays (toInt_lit 719468 (by decide)) (fits_int64 (by omega)))
    fun z hz ↦ ?_
  refine .bind (returns_divEuclid hz (toInt_lit 146097 (by decide)) (by decide))
    fun era hera ↦ ?_
  refine .bind (returns_mul hera (toInt_lit 146097 (by decide)) (fits_int64 (by omega)))
    fun start hstart ↦ ?_
  refine .bind (returns_sub hz hstart (by omega)) fun doe hdoe ↦ ?_
  have hcycle : d + 719468 - (d + 719468) / 146097 * 146097 < 146097 := by omega
  have heraMax : (d + 719468) / 146097 < 10 := by omega
  generalize (d + 719468) / 146097 = eraN at *
  generalize d + 719468 - eraN * 146097 = doeN at *
  -- the year of the cycle is within it, and has begun
  have hyear := Calendar.marchYear_lt hcycle
  have hbegun := (Calendar.marchYear_spec hcycle).1
  rw [Calendar.daysBeforeMarchYear_of_lt hyear] at hbegun
  unfold Calendar.marchEstimate at hyear hbegun
  refine .bind (returns_yoeOf hdoe hcycle) fun yoe hyoe ↦ ?_
  generalize (doeN - doeN / 1460 + doeN / 36524 - doeN / 146096) / 365 = yoeN at *
  refine .bind (returns_mul hera (toInt_lit 400 (by decide)) (fits_int64 (by omega)))
    fun first hfirst ↦ ?_
  refine .bind (returns_add hyoe hfirst (fits_int64 (by omega))) fun y hy ↦ ?_
  have hyMax : yoeN + eraN * 400 < 5000 := by omega
  refine .bind (returns_doyOf hdoe hyoe hyear hbegun) fun doy hdoy ↦ ?_
  have hdoyMax : doeN - (365 * yoeN + yoeN / 4 - yoeN / 100) < 146097 := by omega
  generalize doeN - (365 * yoeN + yoeN / 4 - yoeN / 100) = doyN at *
  generalize yoeN + eraN * 400 = yN at *
  -- the month, counted from March
  refine .bind (returns_mul (toInt_lit 5 (by decide)) hdoy (fits_int64 (by omega)))
    fun fives hfives ↦ ?_
  refine .bind (returns_add hfives (toInt_lit 2 (by decide)) (fits_int64 (by omega)))
    fun t ht ↦ ?_
  refine .bind (returns_div ht (toInt_lit 153 (by decide)) (by decide)) fun mp hmp ↦ ?_
  have hmpMax : (5 * doyN + 2) / 153 < 5000 := by omega
  generalize (5 * doyN + 2) / 153 = mpN at *
  -- the month and the year of the calendar
  refine .bind (returns_month hmp (by omega)) fun m hm ↦ ?_
  have hmMax : (if mpN < 10 then mpN + 3 else mpN - 9) < 10000 := by split_ifs <;> omega
  generalize (if mpN < 10 then mpN + 3 else mpN - 9) = mN at *
  refine .bind (returns_year hy hm (by omega)) fun year hyearN ↦ ?_
  have hyearMax : (if mN ≤ 2 then yN + 1 else yN) < 10000 := by split_ifs <;> omega
  generalize (if mN ≤ 2 then yN + 1 else yN) = yearN at *
  exact returns_yyyymm hyearN hm hyearMax hmMax

/-- **The machine arithmetic is exact:** in either profile the sinks compute what the natural
numbers compute. -/
theorem returns_yyyymmOf (o : OnOverflow) (ts : UInt64) :
    Returns (yyyymmOf o ts) (toInt · = (Coinext.yyyymmOf ts.toNat : ℕ)) := by
  have hts := ts.toNat_lt
  have hns : toInt (1000000000 : UInt64) = (1000000000 : ℕ) := rfl
  refine .bind (returns_div rfl hns (by decide)) fun q hq ↦ ?_
  have hsecs : toInt (MachineInt.cast q : Int64) = (ts.toNat / 1000000000 : ℕ) :=
    (toInt_cast (hq ▸ fits_int64 (by omega))).trans hq
  refine .bind (returns_divEuclid hsecs (toInt_lit 86400 (by decide)) (by decide))
    fun days hdays ↦ ?_
  exact returns_yyyymmOfDays hdays (by omega)

/-- Every time has a month, which does not depend on the profile. -/
theorem exists_month (ts : UInt64) :
    ∃ ym : UInt32, (∀ o, yyyymmOf o ts = some ym) ∧ ym.toNat = utcMonth ts.toNat := by
  have hmonth (o : OnOverflow) : ∃ ym : UInt32, yyyymmOf o ts = some ym ∧
      ym.toNat = utcMonth ts.toNat := by
    obtain ⟨ym, hret, hval⟩ := returns_yyyymmOf o ts
    exact ⟨ym, hret, (Int.ofNat_inj.mp hval).trans (yyyymmOf_eq ts.toNat)⟩
  obtain ⟨ym, -, hym⟩ := hmonth .panics
  refine ⟨ym, fun o ↦ ?_, hym⟩
  obtain ⟨ym', hret, hym'⟩ := hmonth o
  rw [hret, UInt32.toNat_inj.mp (hym'.trans hym.symm)]

end Sinks

/-! ## The Python side -/

/-- The day that times are counted from. -/
def epoch : Date where
  year := 1970
  month := 1
  day := 1
  year_pos := by decide
  month_pos := by decide
  month_le := by decide
  day_pos := by decide
  day_le := by decide

theorem daysBefore_epoch : epoch.daysBefore = 719162 := rfl

/-- Whether a time is on a date in UTC. -/
def Calendar.Date.IsUtcAt (d : Date) (ts : ℕ) : Prop :=
  d.daysBefore = epoch.daysBefore + ts / 1000000000 / 86400

namespace DataLake

/-- The date of a time in UTC, by the standard library; its years are those from 1 to 9999. -/
def fromtimestamp (secs : ℤ) : Option Date :=
  let days := secs / 86400 + 719162
  if 0 ≤ days ∧ days ≤ 3652058 then some (Calendar.dateOf days.toNat) else none

/-- The month of a time. -/
def yyyymm (tsNs : ℤ) : Option ℕ := do
  let secs := tsNs / 1000000000
  let dt ← fromtimestamp secs
  return dt.year * 100 + dt.month

theorem fromtimestamp_eq_some_iff {secs : ℤ} {d : Date} :
    fromtimestamp secs = some d
      ↔ (d.daysBefore : ℤ) = epoch.daysBefore + secs / 86400 ∧ d.year ≤ 9999 := by
  have hyear : d.year ≤ 9999 ↔ d.daysBefore < 3652059 := by
    rw [← d.yearOf_daysBefore, Calendar.yearOf_le_iff]
    rfl
  rw [hyear, daysBefore_epoch, fromtimestamp]
  constructor
  · intro h
    split_ifs at h with hrange
    obtain rfl : Calendar.dateOf _ = d := Option.some.inj h
    rw [Calendar.daysBefore_dateOf]
    omega
  · rintro ⟨hdays, hlast⟩
    have hsum : secs / 86400 + 719162 = d.daysBefore := by omega
    rw [hsum, if_pos (by omega), Int.toNat_natCast, Calendar.dateOf_daysBefore]

theorem yyyymm_eq (ts : ℤ) : yyyymm ts = if Datable ts then some (utcMonth ts) else none := by
  by_cases h : Datable ts
  · have hdate : fromtimestamp (ts / 1000000000) = some (Calendar.dateOf _) := if_pos h
    rw [if_pos h, yyyymm, hdate]
    rfl
  · have hdate : fromtimestamp (ts / 1000000000) = none := if_neg h
    rw [if_neg h, yyyymm, hdate]
    rfl

theorem exists_date_of_yyyymm {ts ym : ℕ} (h : yyyymm ts = some ym) :
    ∃ d : Date, d.IsUtcAt ts ∧ ym = d.year * 100 + d.month := by
  obtain ⟨d, hd, hym⟩ : ∃ d, fromtimestamp (ts / 1000000000) = some d ∧
      some (d.year * 100 + d.month) = some ym := Option.bind_eq_some_iff.mp h
  refine ⟨d, ?_, (Option.some.inj hym).symm⟩
  have hdays := (fromtimestamp_eq_some_iff.mp hd).1
  rw [Date.IsUtcAt]
  omega

end DataLake

/-! ## The month -/

theorem datable_of_lt {ts : ℕ} (h : ts < 2 ^ 64) : Datable ts := by
  unfold Datable
  omega

/-- **The writers of the lake agree on the month:** every time has a month, that of its date, which
both computations give, and later times have later months. -/
theorem lakeMonth_agrees : ∃ month : UInt64 → UInt32,
    (∀ ts, (∀ o, Sinks.yyyymmOf o ts = some (month ts)) ∧
      DataLake.yyyymm ts.toNat = some (month ts).toNat ∧
      ∃ d : Date, d.IsUtcAt ts.toNat ∧ (month ts).toNat = d.year * 100 + d.month) ∧
    ∀ ts ts', ts ≤ ts' → month ts ≤ month ts' := by
  choose month hret hmonth using Sinks.exists_month
  have hreader (ts : UInt64) : DataLake.yyyymm ts.toNat = some (month ts).toNat := by
    rw [hmonth, DataLake.yyyymm_eq, if_pos (datable_of_lt ts.toNat_lt)]
  refine ⟨month, fun ts ↦ ⟨hret ts, hreader ts, DataLake.exists_date_of_yyyymm (hreader ts)⟩,
    fun ts ts' h ↦ ?_⟩
  rw [UInt32.le_iff_toNat_le, hmonth, hmonth]
  exact utcMonth_mono (Int.ofNat_le.mpr (UInt64.le_iff_toNat_le.mp h))

-- the leap day of a century, and the end of February in a century without one
example : [951868799999999999, 4107542399999999999].map (Sinks.yyyymmOf .panics)
    = [some 200002, some 210002] := by
  decide

end Coinext
