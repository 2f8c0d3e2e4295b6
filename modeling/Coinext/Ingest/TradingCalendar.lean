import Coinext.Core.Value
import Coinext.Ingest.Tickers
import Coinext.Support.Calendar
import Coinext.Support.Sift

/-!
# Trading calendars

A calendar has the holidays of an exchange and the hours of its regular session, in its own time;
exchanges without a table have no holidays and are open the whole day. `filterTradingBars` drops the
bars of weekends and holidays, by the date in UTC. `inSession` is about the date and the time at the
venue, and `filterSessionBars` asks it about the bars that are left.

Dates are numbers of days, from the first of January of the year one, a Monday; a date and time is
the number of its seconds. The years from 1 to 9999 have dates; times outside them raise. The
database of time zones is a parameter: the seconds by which the clock of a zone is ahead of UTC.
-/

namespace Coinext

namespace Venues

/-- The time zone of every venue. -/
def venueTimezones : List (String × String) :=
  [("BINANCE", "UTC"), ("COINBASE", "America/New_York"), ("OKX", "UTC"),
   ("NYSE", "America/New_York"), ("NASDAQ", "America/New_York"), ("AMEX", "America/New_York"),
   ("TSX", "America/Toronto"), ("B3", "America/Sao_Paulo"), ("LSE", "Europe/London"),
   ("XETRA", "Europe/Berlin"), ("EURONEXT", "Europe/Paris"), ("SIX", "Europe/Zurich"),
   ("HKEX", "Asia/Hong_Kong"), ("SSE", "Asia/Shanghai"), ("SZSE", "Asia/Shanghai"),
   ("TSE", "Asia/Tokyo"), ("KRX", "Asia/Seoul"), ("TWSE", "Asia/Taipei"),
   ("SGX", "Asia/Singapore"), ("ASX", "Australia/Sydney"), ("NSE", "Asia/Kolkata"),
   ("INDEX", "UTC"), ("FX", "UTC")]

def VenueInfo.timezone (info : VenueInfo) : String := (venueTimezones.lookup info.code).getD "UTC"

theorem venueTimezones_codes : venueTimezones.map Prod.fst = venues.map VenueInfo.code := by
  decide

/-- The venues of a code or of a market group. -/
def expandVenues (code : String) : List String :=
  match resolveMarketGroup code with
  | some group => (marketGroups.lookup group).getD []
  | none => match getVenue code with
    | some info => [info.code]
    | none => [PyText.upper (PyText.strip code)]

end Venues

namespace TradingCalendar

open Venues

/-! ## Dates -/

/-- The number of a date. -/
def date (year month day : ℕ) : ℤ :=
  (Calendar.daysBeforeYear year + Calendar.daysBeforeMonth year month + day : ℕ) - 1

/-- Monday is zero. -/
def weekday (day : ℤ) : ℤ := day % 7

def isWeekend (day : ℤ) : Bool := 5 ≤ weekday day

/-- The day of a date and time. -/
def dateOf (time : ℤ) : ℤ := time / 86400

/-- The minutes since midnight. -/
def minutesOf (time : ℤ) : ℤ := time % 86400 / 60

/-- A date and time of the years from 1 to 9999. -/
def inRange (time : ℤ) : Option ℤ :=
  if 0 ≤ dateOf time ∧ dateOf time ≤ 3652058 then some time else none

/-- The seconds of a time since the epoch, as a date and time in UTC. -/
def utcOf (tsNs : ℤ) : ℤ := tsNs / 1000000000 + 719162 * 86400

/-! ## Holidays -/

/-- Closed days on the mainland, by year: months and days. -/
def cnHolidays : List (ℕ × List (ℕ × ℕ)) :=
  [(2018, [(1, 1), (2, 15), (2, 16), (2, 17), (2, 18), (2, 19), (2, 20), (2, 21), (4, 5), (4, 6),
     (4, 7), (4, 30), (5, 1), (6, 18), (9, 24), (10, 1), (10, 2), (10, 3), (10, 4), (10, 5)]),
   (2019, [(1, 1), (2, 4), (2, 5), (2, 6), (2, 7), (2, 8), (4, 5), (5, 1), (5, 2), (5, 3), (6, 7),
     (9, 13), (10, 1), (10, 2), (10, 3), (10, 4), (10, 7)]),
   (2020, [(1, 1), (1, 24), (1, 25), (1, 26), (1, 27), (1, 28), (1, 29), (1, 30), (4, 6), (5, 1),
     (5, 4), (5, 5), (6, 25), (6, 26), (10, 1), (10, 2), (10, 5), (10, 6), (10, 7), (10, 8)]),
   (2021, [(1, 1), (2, 11), (2, 12), (2, 15), (2, 16), (2, 17), (4, 5), (5, 3), (5, 4), (5, 5),
     (6, 14), (9, 20), (9, 21), (10, 1), (10, 4), (10, 5), (10, 6), (10, 7)]),
   (2022, [(1, 3), (1, 31), (2, 1), (2, 2), (2, 3), (2, 4), (4, 4), (4, 5), (5, 2), (5, 3), (5, 4),
     (6, 3), (9, 12), (10, 3), (10, 4), (10, 5), (10, 6), (10, 7)]),
   (2023, [(1, 2), (1, 23), (1, 24), (1, 25), (1, 26), (1, 27), (4, 5), (5, 1), (5, 2), (5, 3),
     (6, 22), (6, 23), (9, 29), (10, 2), (10, 3), (10, 4), (10, 5), (10, 6)]),
   (2024, [(1, 1), (2, 9), (2, 12), (2, 13), (2, 14), (2, 15), (2, 16), (4, 4), (4, 5), (5, 1),
     (5, 2), (5, 3), (6, 10), (9, 16), (9, 17), (10, 1), (10, 2), (10, 3), (10, 4), (10, 7)]),
   (2025, [(1, 1), (1, 28), (1, 29), (1, 30), (1, 31), (2, 3), (2, 4), (4, 4), (5, 1), (5, 2),
     (5, 5), (5, 31), (10, 1), (10, 2), (10, 3), (10, 6), (10, 7), (10, 8)]),
   (2026, [(1, 1), (1, 2), (2, 16), (2, 17), (2, 18), (2, 19), (2, 20), (2, 23), (4, 6), (5, 1),
     (5, 4), (5, 5), (6, 19), (9, 25), (10, 1), (10, 2), (10, 5), (10, 6), (10, 7)]),
   (2027, [(1, 1), (2, 5), (2, 8), (2, 9), (2, 10), (2, 11), (2, 12), (4, 5), (5, 3), (5, 4),
     (5, 5), (6, 9), (9, 15), (10, 1), (10, 4), (10, 5), (10, 6), (10, 7)]),
   (2028, [(1, 3), (1, 25), (1, 26), (1, 27), (1, 28), (1, 31), (2, 1), (4, 4), (5, 1), (5, 2),
     (5, 3), (5, 29), (10, 2), (10, 3), (10, 4), (10, 5), (10, 6)])]

/-- Closed days in Hong Kong, by year: months and days. -/
def hkHolidays : List (ℕ × List (ℕ × ℕ)) :=
  [(2018, [(1, 1), (2, 16), (2, 19), (3, 30), (4, 2), (4, 5), (5, 1), (5, 22), (6, 18), (7, 2),
     (9, 25), (10, 1), (10, 17), (12, 25), (12, 26)]),
   (2019, [(1, 1), (2, 5), (2, 6), (2, 7), (4, 5), (4, 19), (4, 22), (5, 1), (5, 13), (6, 7),
     (7, 1), (10, 1), (10, 7), (12, 25), (12, 26)]),
   (2020, [(1, 1), (1, 27), (1, 28), (4, 10), (4, 13), (4, 30), (5, 1), (6, 25), (7, 1), (10, 1),
     (10, 2), (10, 26), (12, 25)]),
   (2021, [(1, 1), (2, 12), (2, 15), (4, 2), (4, 5), (4, 6), (5, 19), (6, 14), (7, 1), (9, 22),
     (10, 1), (10, 14), (12, 27)]),
   (2022, [(1, 31), (2, 1), (2, 2), (2, 3), (4, 5), (4, 15), (4, 18), (5, 2), (5, 9), (6, 3),
     (7, 1), (9, 12), (10, 4), (12, 26), (12, 27)]),
   (2023, [(1, 2), (1, 23), (1, 24), (1, 25), (4, 5), (4, 7), (4, 10), (5, 1), (5, 26), (6, 22),
     (7, 3), (9, 30), (10, 2), (10, 23), (12, 25), (12, 26)]),
   (2024, [(1, 1), (2, 12), (2, 13), (3, 29), (4, 1), (4, 4), (5, 1), (5, 15), (6, 10), (7, 1),
     (9, 18), (10, 1), (10, 11), (12, 25), (12, 26)]),
   (2025, [(1, 1), (1, 29), (1, 30), (1, 31), (4, 4), (4, 18), (4, 21), (5, 1), (5, 5), (5, 31),
     (7, 1), (10, 1), (10, 7), (12, 25), (12, 26)]),
   (2026, [(1, 1), (2, 17), (2, 18), (2, 19), (4, 3), (4, 6), (5, 1), (5, 25), (6, 19), (7, 1),
     (10, 1), (10, 19), (12, 25)]),
   (2027, [(1, 1), (2, 8), (2, 9), (3, 26), (3, 29), (4, 5), (5, 3), (6, 9), (7, 1), (10, 1),
     (12, 27)]),
   (2028, [(1, 3), (1, 26), (1, 27), (4, 14), (4, 17), (5, 1), (5, 24), (6, 28), (10, 2), (12, 25),
     (12, 26)])]

def datesOf (table : List (ℕ × List (ℕ × ℕ))) : List ℤ :=
  table.flatMap fun (year, days) ↦ days.map fun (month, day) ↦ date year month day

/-- Go on by `step` until the weekday is met, for at most as many days as given. -/
def seek (step target : ℤ) : ℕ → ℤ → ℤ
  | 0, d => d
  | n + 1, d => if weekday d = target then d else seek step target n (d + step)

/-- The `n`-th such weekday of a month, or the last one if `n` is not positive. -/
def nthWeekday (year month : ℕ) (target n : ℤ) : ℤ :=
  if 0 < n then seek 1 target 6 (date year month 1) + 7 * (n - 1)
  else
    let last := if month = 12 then date (year + 1) 1 1 - 1 else date year (month + 1) 1 - 1
    seek (-1) target 6 last

theorem weekday_seek_of_reach {step target : ℤ} {n k : ℕ} (hk : k ≤ n) {d : ℤ}
    (hreach : weekday (d + k * step) = target) : weekday (seek step target n d) = target := by
  induction n generalizing k d with
  | zero =>
    obtain rfl := Nat.le_zero.mp hk
    rw [seek]
    simpa using hreach
  | succ n ih =>
    rw [seek]
    by_cases hd : weekday d = target
    · rw [if_pos hd, hd]
    · rw [if_neg hd]
      cases k with
      | zero => simp [hd] at hreach
      | succ k =>
        refine ih (Nat.le_of_succ_le_succ hk) ?_
        rw [← hreach]
        push_cast
        ring_nf

theorem weekday_nthWeekday (year month : ℕ) {target : ℤ} (htarget : 0 ≤ target ∧ target < 7)
    (n : ℤ) : weekday (nthWeekday year month target n) = target := by
  have hforth (d : ℤ) : weekday (seek 1 target 6 d) = target := by
    refine weekday_seek_of_reach (k := ((target - d) % 7).toNat) ?_ ?_
    · omega
    · unfold weekday
      omega
  have hback (d : ℤ) : weekday (seek (-1) target 6 d) = target := by
    refine weekday_seek_of_reach (k := ((d - target) % 7).toNat) ?_ ?_
    · omega
    · unfold weekday
      omega
  unfold nthWeekday
  split_ifs
  · have h := hforth (date year month 1)
    unfold weekday at h ⊢
    omega
  · exact hback _
  · exact hback _

/-- A holiday on a weekend is observed on the nearest weekday. -/
def observed (d : ℤ) : ℤ :=
  if weekday d = 5 then d - 1 else if weekday d = 6 then d + 1 else d

theorem isWeekend_observed (d : ℤ) : isWeekend (observed d) = false := by
  unfold observed isWeekend weekday
  split_ifs <;> simp only [decide_eq_false_iff_not] <;> omega

/-- Easter Sunday, by the Gregorian rule. -/
def easter (year : ℕ) : ℤ :=
  let a : ℤ := year % 19
  let b : ℤ := year / 100
  let c : ℤ := year % 100
  let d := b / 4
  let e := b % 4
  let f := (b + 8) / 25
  let g := (b - f + 1) / 3
  let h := (19 * a + b - d - g + 15) % 30
  let i := c / 4
  let k := c % 4
  let l := (32 + 2 * e + 2 * i - h - k) % 7
  let m := (a + 11 * h + 22 * l) / 451
  let month := (h + l - 7 * m + 114) / 31
  let day := (h + l - 7 * m + 114) % 31 + 1
  date year month.toNat day.toNat

/-- The holidays of a year in New York. -/
def usHolidays (year : ℕ) : List ℤ :=
  [observed (date year 1 1), nthWeekday year 1 0 3, nthWeekday year 2 0 3, easter year - 2,
   nthWeekday year 5 0 (-1)]
  ++ (if year ≥ 2021 then [observed (date year 6 19)] else [])
  ++ [observed (date year 7 4), nthWeekday year 9 0 1, nthWeekday year 11 3 4,
   observed (date year 12 25)]

def usHolidaySet (yearFrom yearTo : ℕ) : List ℤ :=
  (List.range' yearFrom (yearTo + 1 - yearFrom)).flatMap usHolidays

/-! ## Calendars -/

/-- Regular hours of an exchange, as hours and minutes in its time zone. -/
structure SessionHours where
  openHm : ℕ × ℕ
  closeHm : ℕ × ℕ
  timezone : String
  lunchBreak : Option ((ℕ × ℕ) × (ℕ × ℕ)) := none
deriving DecidableEq

/-- Regular sessions. -/
def sessions : List (String × SessionHours) :=
  [("SSE", ⟨(9, 30), (15, 0), "Asia/Shanghai", some ((11, 30), (13, 0))⟩),
   ("SZSE", ⟨(9, 30), (15, 0), "Asia/Shanghai", some ((11, 30), (13, 0))⟩),
   ("HKEX", ⟨(9, 30), (16, 0), "Asia/Hong_Kong", some ((12, 0), (13, 0))⟩),
   ("NYSE", ⟨(9, 30), (16, 0), "America/New_York", none⟩),
   ("NASDAQ", ⟨(9, 30), (16, 0), "America/New_York", none⟩),
   ("AMEX", ⟨(9, 30), (16, 0), "America/New_York", none⟩)]

end TradingCalendar

open TradingCalendar Venues

/-- The calendar of one exchange. -/
structure TradingCalendar where
  code : String
  holidays : List ℤ
  session : Option SessionHours := none

namespace TradingCalendar

def isHoliday (cal : TradingCalendar) (day : ℤ) : Bool := day ∈ cal.holidays

def isTradingDay (cal : TradingCalendar) (day : ℤ) : Bool := !isWeekend day && !cal.isHoliday day

/-- The code of the exchange whose calendar a venue or a market group has. -/
def calendarCode (venue : String) : String :=
  match resolveMarketGroup venue with
  | some "ASHARE" => "SSE"
  | some "US" => "NYSE"
  | some "HK" => "HKEX"
  | some "ETF" => "NYSE"
  | _ =>
    let code := match getVenue venue with
      | some info => info.code
      | none => PyText.upper (PyText.strip venue)
    if code ∈ expandVenues venue then (expandVenues venue).headD code else code

/-- The hours of an exchange without a table: the whole day, where the exchange is known. -/
def wholeDay (code : String) : Option SessionHours :=
  (getVenue code).map fun info ↦ ⟨(0, 0), (23, 59), info.timezone, none⟩

/-- The calendar of an exchange. -/
def ofCode (code : String) : TradingCalendar :=
  if code = "SSE" ∨ code = "SZSE" then ⟨code, datesOf cnHolidays, sessions.lookup code⟩
  else if code = "HKEX" then ⟨code, datesOf hkHolidays, sessions.lookup code⟩
  else if code = "NYSE" ∨ code = "NASDAQ" ∨ code = "AMEX" then
    ⟨code, usHolidaySet 2018 2028, sessions.lookup code⟩
  else ⟨code, [], (sessions.lookup code).or (wholeDay code)⟩

end TradingCalendar

/-- The calendar of a venue or of a market group. -/
def calendarFor (venue : String) : TradingCalendar := TradingCalendar.ofCode (calendarCode venue)

/-! ## Filters -/

/-- A row that is not empty: the time of its close, and the values after it. -/
structure BarTuple where
  tsNs : ℤ
  values : List F64
deriving DecidableEq

/-- A row, which may be empty. -/
abbrev BarLike := Option BarTuple

/-- The reasons for which a filter drops a row. -/
inductive DropReason where
  | weekend | holiday | halt | zeroVolume | session
deriving DecidableEq

/-- How many rows a filter removed. -/
structure FilterStats where
  inputRows : ℕ
  outputRows : ℕ
  droppedWeekend : ℕ := 0
  droppedHoliday : ℕ := 0
  droppedHalt : ℕ := 0
  droppedZeroVolume : ℕ := 0
deriving DecidableEq

def FilterStats.dropped (stats : FilterStats) : ℕ := stats.inputRows - stats.outputRows

structure FilterFlags where
  dropHolidays : Bool := true
  dropWeekends : Bool := true
  dropFlatHalts : Bool := true
  dropZeroVolume : Bool := false

def barDateUtc (tsNs : ℤ) : Option ℤ := (inRange (utcOf tsNs)).map dateOf

/-- The row looks untraded: no volume, and all four prices equal. -/
def isFlatHalt (row : BarTuple) : Bool :=
  match row.values with
  | o :: h :: lo :: c :: v :: _ => !v.isPositive && (o.eq h && h.eq lo && lo.eq c)
  | _ => false

def isZeroVolume (row : BarTuple) : Bool :=
  match row.values with
  | _ :: _ :: _ :: _ :: v :: _ => v.eq (.finite 0)
  | _ => false

/-- What the filter says of a row. -/
def tradingVerdict (cal : TradingCalendar) (flags : FilterFlags) (row : BarTuple) :
    Option (Verdict DropReason) :=
  (barDateUtc row.tsNs).map fun day ↦
    if flags.dropWeekends ∧ isWeekend day then .drop .weekend
    else if flags.dropHolidays ∧ cal.isHoliday day then .drop .holiday
    else if flags.dropFlatHalts ∧ isFlatHalt row then .drop .halt
    else if flags.dropZeroVolume ∧ isZeroVolume row then .drop .zeroVolume
    else .keep

/-- Drop the rows of weekends and holidays, and untraded ones. -/
def filterTradingBars (bars : List BarLike) (venue : String) (flags : FilterFlags) :
    Option (List BarTuple × FilterStats) :=
  let cal := calendarFor venue
  (sift (tradingVerdict cal flags) bars.reduceOption).map fun (out, reasons) ↦
    (out,
      { inputRows := bars.length
        outputRows := out.length
        droppedWeekend := reasons.count .weekend
        droppedHoliday := reasons.count .holiday
        droppedHalt := reasons.count .halt
        droppedZeroVolume := reasons.count .zeroVolume })

section Zones

variable (utcOffset : String → ℤ → ℤ)

/-- The date and time of a zone. -/
def barLocalTime (tsNs : ℤ) (timezone : String) : Option ℤ :=
  (inRange (utcOf tsNs)).bind fun utc ↦ inRange (utc + utcOffset timezone utc)

def hmToMinutes (hm : ℕ × ℕ) : ℤ := hm.1 * 60 + hm.2

/-- Whether a date and time is in the regular session of a trading day. -/
def TradingCalendar.inHours (cal : TradingCalendar) (sess : SessionHours)
    (includeLunchBreak : Bool) (time : ℤ) : Bool :=
  let mins := minutesOf time
  if !cal.isTradingDay (dateOf time) then false
  else if mins < hmToMinutes sess.openHm ∨ mins > hmToMinutes sess.closeHm then false
  else match sess.lunchBreak with
    | some (lb0, lb1) =>
      if !includeLunchBreak ∧ hmToMinutes lb0 ≤ mins ∧ mins < hmToMinutes lb1 then false else true
    | none => true

/-- Whether a time is in the regular session of a venue; a venue without hours is always open. -/
def inSession (tsNs : ℤ) (venue : String) (includeLunchBreak : Bool) : Option Bool :=
  let cal := calendarFor venue
  match cal.session with
  | none => some true
  | some sess => (barLocalTime utcOffset tsNs sess.timezone).map (cal.inHours sess includeLunchBreak)

/-- What the session filter says of a row. -/
def sessionVerdict (venue : String) (includeLunchBreak : Bool) (row : BarTuple) :
    Option (Verdict DropReason) :=
  (inSession utcOffset row.tsNs venue includeLunchBreak).map fun
    | true => .keep
    | false => .drop .session

/-- Keep only the rows in the regular session. The rows out of it are counted with those of zero
volume. -/
def filterSessionBars (bars : List BarLike) (venue : String) (includeLunchBreak : Bool) :
    Option (List BarTuple × FilterStats) :=
  (filterTradingBars bars venue { dropFlatHalts := false, dropZeroVolume := false }).bind
    fun (dayOk, dayStats) ↦
      (sift (sessionVerdict utcOffset venue includeLunchBreak) dayOk).map fun (out, reasons) ↦
        (out,
          { inputRows := dayStats.inputRows
            outputRows := out.length
            droppedWeekend := dayStats.droppedWeekend
            droppedHoliday := dayStats.droppedHoliday
            droppedHalt := dayStats.droppedHalt
            droppedZeroVolume := dayStats.droppedZeroVolume + reasons.length })

end Zones

end Coinext
