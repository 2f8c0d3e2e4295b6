import Coinext.Ingest.TradingCalendar
import Mathlib.Data.List.ReduceOption

/-!
# The session filter and the date in UTC

`filterSessionBars` first drops the rows of weekends and holidays of the date in UTC, and then asks
`inSession` about the date at the venue. Of the exchanges with hours of their own the regular session
is within one date in UTC (`dateOf_eq_of_inHours`), so there the first filter drops nothing that is
in session. Of the others, which are open the whole day, it drops what is on a weekday at the venue
and on a weekend in UTC, such as the first hours of a Monday in Sydney; and nothing else that is in
session (`filterSessionBars_iff`).

What is assumed of the time zones is how far their clocks are from UTC (`ZoneBounds`).
-/

namespace Coinext

open TradingCalendar Venues

/-! ## The calendar of a venue -/

theorem resolveVenue_of_getVenue {venue : String} {info : VenueInfo}
    (h : getVenue venue = some info) : resolveVenue venue = .ok info := by
  rw [getVenue] at h
  cases hresolve : resolveVenue venue with
  | error e =>
    rw [hresolve] at h
    cases h
  | ok info' =>
    rw [hresolve] at h
    cases h
    rfl

theorem calendarCode_of_getVenue {venue : String} {info : VenueInfo}
    (h : getVenue venue = some info) : calendarCode venue = info.code := by
  rcases resolveMarketGroup_cases (resolveVenue_of_getVenue h) with hnone | ⟨hhk, hcode⟩
  · have hexpand : expandVenues venue = [info.code] := by
      simp only [expandVenues, hnone, h]
    simp only [calendarCode, hnone, h, hexpand, List.headD_cons, ite_self]
  · simp only [calendarCode, hhk, hcode]

/-- The exchanges with hours of their own. -/
def sessionCodes : List String := sessions.map Prod.fst

theorem session_ofCode {code : String} (h : code ∈ sessionCodes) :
    ∃ sess, (ofCode code).session = some sess ∧ (code, sess) ∈ sessions := by
  have htable : ∀ code ∈ sessionCodes, ∃ sess ∈ sessions.lookup code,
      (code = "SSE" ∨ code = "SZSE" ∨ code = "HKEX" ∨ code = "NYSE" ∨ code = "NASDAQ"
        ∨ code = "AMEX") := by decide
  obtain ⟨sess, hsess, hcode⟩ := htable code h
  refine ⟨sess, ?_, mem_of_lookup hsess⟩
  rw [Option.mem_def] at hsess
  unfold ofCode
  split_ifs <;> first | exact hsess | simp_all

theorem ofCode_whole {info : VenueInfo} (h : info ∈ venues) (hcode : info.code ∉ sessionCodes) :
    ofCode info.code = ⟨info.code, [], some ⟨(0, 0), (23, 59), info.timezone, none⟩⟩ := by
  have hget : getVenue info.code = some info := by
    rw [getVenue, resolveVenue_code info h]
    rfl
  have hnone : sessions.lookup info.code = none := by
    cases hlookup : sessions.lookup info.code with
    | none => rfl
    | some sess => exact absurd (List.mem_map_of_mem (mem_of_lookup hlookup)) hcode
  have hcodes : info.code ≠ "SSE" ∧ info.code ≠ "SZSE" ∧ info.code ≠ "HKEX" ∧ info.code ≠ "NYSE"
      ∧ info.code ≠ "NASDAQ" ∧ info.code ≠ "AMEX" := by
    simpa [sessionCodes, sessions, not_or] using hcode
  obtain ⟨hsse, hszse, hhkex, hnyse, hnasdaq, hamex⟩ := hcodes
  simp only [ofCode, hsse, hszse, hhkex, hnyse, hnasdaq, hamex, or_self, if_false, hnone, wholeDay,
    hget, Option.map_some, Option.none_or]

theorem holidays_bounds {code : String} {day : ℤ} (h : day ∈ (ofCode code).holidays) :
    date 2017 12 31 ≤ day ∧ day ≤ date 2028 12 31 := by
  have hcn : ∀ day ∈ datesOf cnHolidays, date 2017 12 31 ≤ day ∧ day ≤ date 2028 12 31 := by
    decide +kernel
  have hhk : ∀ day ∈ datesOf hkHolidays, date 2017 12 31 ≤ day ∧ day ≤ date 2028 12 31 := by
    decide +kernel
  have hus : ∀ day ∈ usHolidaySet 2018 2028,
      date 2017 12 31 ≤ day ∧ day ≤ date 2028 12 31 := by decide +kernel
  unfold ofCode at h
  split_ifs at h
  · exact hcn day h
  · exact hhk day h
  · exact hus day h
  · cases h

/-! ## Clocks -/

/-- How far the clocks are from UTC: less than a day, and in the zones with hours of their own by
what they have ever been. -/
structure ZoneBounds (utcOffset : String → ℤ → ℤ) : Prop where
  lt_day : ∀ zone t, |utcOffset zone t| < 86400
  shanghai : ∀ t, 8 * 3600 ≤ utcOffset "Asia/Shanghai" t ∧ utcOffset "Asia/Shanghai" t ≤ 9 * 3600
  hongKong : ∀ t, 7 * 3600 ≤ utcOffset "Asia/Hong_Kong" t ∧
    utcOffset "Asia/Hong_Kong" t ≤ 9 * 3600
  newYork : ∀ t, -5 * 3600 ≤ utcOffset "America/New_York" t ∧
    utcOffset "America/New_York" t ≤ -4 * 3600

variable {utcOffset : String → ℤ → ℤ}

/-- Sessions begin after the date does in UTC, and end before it does. -/
theorem ZoneBounds.session_fits (hzone : ZoneBounds utcOffset) {code : String}
    {sess : SessionHours} (h : (code, sess) ∈ sessions) (t : ℤ) :
    utcOffset sess.timezone t ≤ 60 * hmToMinutes sess.openHm ∧
      60 * hmToMinutes sess.closeHm + 60 - utcOffset sess.timezone t ≤ 86400 := by
  have hsh := hzone.shanghai t
  have hhk := hzone.hongKong t
  have hny := hzone.newYork t
  simp only [sessions, List.mem_cons, Prod.mk.injEq, List.not_mem_nil, or_false] at h
  rcases h with ⟨-, rfl⟩ | ⟨-, rfl⟩ | ⟨-, rfl⟩ | ⟨-, rfl⟩ | ⟨-, rfl⟩ | ⟨-, rfl⟩ <;>
    simp only [hmToMinutes] <;> constructor <;> push_cast <;> omega

theorem dateOf_eq_of_minutesOf {utc off opens closes : ℤ}
    (hmin : opens ≤ minutesOf (utc + off)) (hmax : minutesOf (utc + off) ≤ closes)
    (hopen : off ≤ 60 * opens) (hclose : 60 * closes + 60 - off ≤ 86400) :
    dateOf (utc + off) = dateOf utc := by
  unfold minutesOf at hmin hmax
  unfold dateOf
  omega

theorem minutesOf_bounds (time : ℤ) : 0 ≤ minutesOf time ∧ minutesOf time ≤ 1439 := by
  unfold minutesOf
  omega

theorem inHours_whole (cal : TradingCalendar) (zone : String) (lunch : Bool) (time : ℤ) :
    cal.inHours ⟨(0, 0), (23, 59), zone, none⟩ lunch time = cal.isTradingDay (dateOf time) := by
  have hbounds := minutesOf_bounds time
  have hin : ¬ (minutesOf time < hmToMinutes (0, 0) ∨ minutesOf time > hmToMinutes (23, 59)) := by
    simp only [hmToMinutes]
    push_cast
    omega
  simp only [inHours, if_neg hin]
  cases cal.isTradingDay (dateOf time) <;> rfl

theorem of_inHours {cal : TradingCalendar} {sess : SessionHours} {lunch : Bool} {time : ℤ}
    (h : cal.inHours sess lunch time = true) :
    cal.isTradingDay (dateOf time) = true ∧ hmToMinutes sess.openHm ≤ minutesOf time ∧
      minutesOf time ≤ hmToMinutes sess.closeHm := by
  unfold inHours at h
  simp only at h
  split_ifs at h with hday hmins
  push Not at hmins
  exact ⟨by simpa using hday, hmins.1, hmins.2⟩

/-- Of the exchanges with hours of their own, what is in session is on a trading day in UTC too. -/
theorem dateOf_eq_of_inHours (hzone : ZoneBounds utcOffset) {code : String} {sess : SessionHours}
    (h : (code, sess) ∈ sessions) {cal : TradingCalendar} {lunch : Bool} {utc : ℤ}
    (hin : cal.inHours sess lunch (utc + utcOffset sess.timezone utc) = true) :
    dateOf (utc + utcOffset sess.timezone utc) = dateOf utc := by
  obtain ⟨-, hmin, hmax⟩ := of_inHours hin
  obtain ⟨hopen, hclose⟩ := hzone.session_fits h utc
  exact dateOf_eq_of_minutesOf hmin hmax hopen hclose

/-- A time of which the date at the venue is out of range is on a trading day in UTC: the first day
of the calendar is a Monday and the last one is a Friday. -/
theorem isTradingDay_of_inRange_none (hzone : ZoneBounds utcOffset) {code zone : String} {utc : ℤ}
    (hutc : (inRange utc).isSome) (hlocal : inRange (utc + utcOffset zone utc) = none) :
    (ofCode code).isTradingDay (dateOf utc) = true := by
  have hoffset := abs_lt.mp (hzone.lt_day zone utc)
  have hrange : 0 ≤ dateOf utc ∧ dateOf utc ≤ 3652058 := by
    by_contra hout
    rw [inRange, if_neg hout] at hutc
    cases hutc
  have hout : ¬ (0 ≤ dateOf (utc + utcOffset zone utc)
      ∧ dateOf (utc + utcOffset zone utc) ≤ 3652058) := by
    intro hin
    rw [inRange, if_pos hin] at hlocal
    cases hlocal
  have hend : dateOf utc = 0 ∨ dateOf utc = 3652058 := by
    unfold dateOf at hrange hout ⊢
    omega
  have hdates : 0 < date 2017 12 31 ∧ date 2028 12 31 < 3652058 := by decide
  have hholiday : dateOf utc ∉ (ofCode code).holidays := by
    intro hmem
    have hbounds := holidays_bounds hmem
    omega
  have hweekend : isWeekend (dateOf utc) = false := by
    rcases hend with heq | heq <;> rw [heq] <;> decide
  simp [isTradingDay, hweekend, isHoliday, hholiday]

/-! ## The filters -/

/-- What the first filter keeps, as the session filter calls it. -/
def onTradingDay (venue : String) (row : BarTuple) : Option Bool :=
  (barDateUtc row.tsNs).map (calendarFor venue).isTradingDay

theorem keeps_tradingVerdict (venue : String) (row : BarTuple) :
    (tradingVerdict (calendarFor venue) ⟨true, true, false, false⟩ row).map Verdict.keeps
      = onTradingDay venue row := by
  rw [tradingVerdict, onTradingDay, Option.map_map]
  congr 1
  funext day
  simp only [Function.comp_apply, isTradingDay]
  cases isWeekend day <;> cases (calendarFor venue).isHoliday day <;> rfl

theorem keeps_sessionVerdict (venue : String) (lunch : Bool) (row : BarTuple) :
    (sessionVerdict utcOffset venue lunch row).map Verdict.keeps
      = inSession utcOffset row.tsNs venue lunch := by
  rw [sessionVerdict]
  cases inSession utcOffset row.tsNs venue lunch with
  | none => rfl
  | some b => cases b <;> rfl

theorem reduceOption_map_some (bars : List BarTuple) : (bars.map some).reduceOption = bars := by
  simp [List.reduceOption, List.filterMap_map]

theorem filterTradingBars_fst (bars : List BarLike) (venue : String) (flags : FilterFlags) :
    (filterTradingBars bars venue flags).map Prod.fst
      = keptBy (fun row ↦ (tradingVerdict (calendarFor venue) flags row).map Verdict.keeps)
          bars.reduceOption := by
  rw [← sift_map_fst, filterTradingBars, Option.map_map]
  rfl

/-- The session filter keeps what is on a trading day in UTC and in session at the venue. -/
theorem filterSessionBars_fst (bars : List BarLike) (venue : String) (lunch : Bool) :
    (filterSessionBars utcOffset bars venue lunch).map Prod.fst
      = keptBy (andThen (onTradingDay venue)
          fun row ↦ inSession utcOffset row.tsNs venue lunch) bars.reduceOption := by
  have hfirst := filterTradingBars_fst bars venue ⟨true, true, false, false⟩
  simp only [keeps_tradingVerdict] at hfirst
  have hsecond (dayOk : List BarTuple) :
      (sift (sessionVerdict utcOffset venue lunch) dayOk).map Prod.fst
        = keptBy (fun row ↦ inSession utcOffset row.tsNs venue lunch) dayOk := by
    rw [sift_map_fst]
    simp only [keeps_sessionVerdict]
  rw [← keptBy_bind, ← hfirst, filterSessionBars, Option.map_bind, Option.bind_map]
  congr 1
  funext day
  rw [Function.comp_apply, Function.comp_apply, Option.map_map, ← hsecond]
  rfl

theorem length_reasons (reasons : List DropReason) :
    reasons.length = reasons.count .weekend + reasons.count .holiday + reasons.count .halt
      + reasons.count .zeroVolume + reasons.count .session := by
  induction reasons with
  | nil => rfl
  | cons reason reasons ih =>
    rw [List.length_cons, ih]
    cases reason <;> simp <;> omega

/-- The statistics account for every row that is dropped. -/
theorem dropped_filterTradingBars {bars : List BarTuple} {venue : String} {flags : FilterFlags}
    {out : List BarTuple} {stats : FilterStats}
    (h : filterTradingBars (bars.map some) venue flags = some (out, stats)) :
    stats.dropped = stats.droppedWeekend + stats.droppedHoliday + stats.droppedHalt
      + stats.droppedZeroVolume := by
  obtain ⟨⟨kept, reasons⟩, hsift, heq⟩ := Option.map_eq_some_iff.mp h
  have hnosession : reasons.count .session = 0 := by
    refine List.count_eq_zero.mpr fun hmem ↦ ?_
    obtain ⟨row, -, hrow⟩ := exists_of_mem_reasons hsift hmem
    obtain ⟨day, -, hday⟩ := Option.map_eq_some_iff.mp hrow
    split_ifs at hday <;> cases hday
  have hlength := length_sift hsift
  have hreasons := length_reasons reasons
  rw [reduceOption_map_some] at hlength
  cases heq
  simp only [FilterStats.dropped, List.length_map]
  simp only at hlength
  omega

/-- So do those of the session filter, which counts the rows out of the session with those of zero
volume. -/
theorem dropped_filterSessionBars {bars : List BarTuple} {venue : String} {lunch : Bool}
    {out : List BarTuple} {stats : FilterStats}
    (h : filterSessionBars utcOffset (bars.map some) venue lunch = some (out, stats)) :
    stats.dropped = stats.droppedWeekend + stats.droppedHoliday + stats.droppedHalt
      + stats.droppedZeroVolume := by
  obtain ⟨⟨dayOk, dayStats⟩, hday, hmap⟩ := Option.bind_eq_some_iff.mp h
  obtain ⟨⟨kept, reasons⟩, hsift, heq⟩ := Option.map_eq_some_iff.mp hmap
  have hdropped := dropped_filterTradingBars hday
  have hlength := length_sift hsift
  have houtput : dayStats.outputRows = dayOk.length := by
    obtain ⟨parts, -, hparts⟩ := Option.map_eq_some_iff.mp hday
    cases hparts
    rfl
  have hinput : dayStats.outputRows ≤ dayStats.inputRows := by
    obtain ⟨parts, hparts, hstats⟩ := Option.map_eq_some_iff.mp hday
    have hrows := length_sift hparts
    rw [reduceOption_map_some] at hrows
    cases hstats
    simp only [List.length_map]
    omega
  cases heq
  simp only [FilterStats.dropped] at hdropped ⊢
  simp only at hlength
  omega

/-! ## When the session filter keeps what is in session -/

/-- A time is on a weekend in UTC, and on a weekday at the venue. -/
def WeekendInUtc (utcOffset : String → ℤ → ℤ) (info : VenueInfo) (tsNs : ℤ) : Prop :=
  isWeekend (dateOf (utcOf tsNs)) = true ∧
    isWeekend (dateOf (utcOf tsNs + utcOffset info.timezone (utcOf tsNs))) = false

instance (info : VenueInfo) (tsNs : ℤ) : Decidable (WeekendInUtc utcOffset info tsNs) :=
  inferInstanceAs (Decidable (_ ∧ _))

theorem eq_of_inRange {time time' : ℤ} (h : inRange time = some time') : time' = time := by
  unfold inRange at h
  split_ifs at h
  exact (Option.some_inj.mp h).symm

section Row

variable {info : VenueInfo} {venue : String} (hvenue : getVenue venue = some info) {lunch : Bool}
  {row : BarTuple}

include hvenue

/-- The calendar of a venue has hours: its own, or the whole day without holidays. -/
theorem calendarFor_cases :
    (info.code ∈ sessionCodes ∧ ∃ sess, (calendarFor venue).session = some sess ∧
      (info.code, sess) ∈ sessions) ∨
    (info.code ∉ sessionCodes ∧ calendarFor venue
      = ⟨info.code, [], some ⟨(0, 0), (23, 59), info.timezone, none⟩⟩) := by
  rw [calendarFor, calendarCode_of_getVenue hvenue]
  by_cases hcode : info.code ∈ sessionCodes
  · exact Or.inl ⟨hcode, session_ofCode hcode⟩
  · exact Or.inr ⟨hcode,
      ofCode_whole (mem_of_resolveVenue (resolveVenue_of_getVenue hvenue)) hcode⟩

theorem exists_session : ∃ sess, (calendarFor venue).session = some sess := by
  rcases calendarFor_cases hvenue with ⟨-, sess, hsess, -⟩ | ⟨-, hwhole⟩
  · exact ⟨sess, hsess⟩
  · exact ⟨_, by rw [hwhole]⟩

theorem andThen_eq_none_iff (hzone : ZoneBounds utcOffset) :
    andThen (onTradingDay venue) (fun row ↦ inSession utcOffset row.tsNs venue lunch) row = none ↔
      inSession utcOffset row.tsNs venue lunch = none := by
  obtain ⟨sess, hsess⟩ := exists_session hvenue
  have hin : inSession utcOffset row.tsNs venue lunch
      = (barLocalTime utcOffset row.tsNs sess.timezone).map
          ((calendarFor venue).inHours sess lunch) := by
    simp only [inSession, hsess]
  simp only [andThen, onTradingDay, barDateUtc, hin, barLocalTime]
  cases hutc : inRange (utcOf row.tsNs) with
  | none => simp
  | some utc =>
    rw [Option.map_some, Option.map_some, Option.bind_some, Option.bind_some]
    cases hday : (calendarFor venue).isTradingDay (dateOf utc) with
    | true => rw [if_pos rfl]
    | false =>
      rw [if_neg (by simp), Option.map_eq_none_iff]
      refine iff_of_false (by simp) fun hnone ↦ ?_
      rw [eq_of_inRange hutc] at hday hnone hutc
      rw [calendarFor, isTradingDay_of_inRange_none hzone (by rw [hutc]; rfl) hnone] at hday
      cases hday

/-- Where asking for the session does not raise, the first filter drops what is in session exactly on
the weekends in UTC that are weekdays at a venue without hours of its own. -/
theorem andThen_eq_iff (hzone : ZoneBounds utcOffset)
    (hsome : inSession utcOffset row.tsNs venue lunch ≠ none) :
    andThen (onTradingDay venue) (fun row ↦ inSession utcOffset row.tsNs venue lunch) row
      = inSession utcOffset row.tsNs venue lunch ↔
    info.code ∈ sessionCodes ∨ ¬ WeekendInUtc utcOffset info row.tsNs := by
  obtain ⟨sess, hsess⟩ := exists_session hvenue
  have hin : inSession utcOffset row.tsNs venue lunch
      = (barLocalTime utcOffset row.tsNs sess.timezone).map
          ((calendarFor venue).inHours sess lunch) := by
    simp only [inSession, hsess]
  rw [hin, barLocalTime] at hsome
  obtain ⟨utc, hutc⟩ : ∃ utc, inRange (utcOf row.tsNs) = some utc := by
    cases hrange : inRange (utcOf row.tsNs) with
    | none =>
      rw [hrange] at hsome
      exact absurd rfl hsome
    | some utc => exact ⟨utc, rfl⟩
  obtain ⟨time, htime⟩ : ∃ time, inRange (utc + utcOffset sess.timezone utc) = some time := by
    cases hrange : inRange (utc + utcOffset sess.timezone utc) with
    | none =>
      rw [hutc, Option.bind_some, hrange] at hsome
      exact absurd rfl hsome
    | some time => exact ⟨time, rfl⟩
  have hanswer : inSession utcOffset row.tsNs venue lunch
      = some ((calendarFor venue).inHours sess lunch time) := by
    rw [hin, barLocalTime, hutc, Option.bind_some, htime, Option.map_some]
  have hboth : andThen (onTradingDay venue)
      (fun row ↦ inSession utcOffset row.tsNs venue lunch) row
      = some ((calendarFor venue).isTradingDay (dateOf utc)
          && (calendarFor venue).inHours sess lunch time) := by
    simp only [andThen, onTradingDay, barDateUtc, hutc, Option.map_some, Option.bind_some, hanswer]
    cases (calendarFor venue).isTradingDay (dateOf utc) <;> rfl
  rw [hboth, hanswer, Option.some_inj]
  have hutc' := eq_of_inRange hutc
  have htime' := eq_of_inRange htime
  rcases calendarFor_cases hvenue with ⟨hcode, own, hown, hentry⟩ | ⟨hcode, hwhole⟩
  · refine iff_of_true ?_ (Or.inl hcode)
    obtain rfl : own = sess := Option.some_inj.mp (hown.symm.trans hsess)
    cases hhours : (calendarFor venue).inHours own lunch time with
    | false => exact Bool.and_false _
    | true =>
      rw [htime'] at hhours
      have htrading := (of_inHours hhours).1
      rw [dateOf_eq_of_inHours hzone hentry hhours] at htrading
      rw [htrading, Bool.and_true]
  · rw [or_iff_right hcode, WeekendInUtc]
    rw [hwhole] at hsess ⊢
    obtain rfl : _ = sess := Option.some_inj.mp hsess
    rw [inHours_whole, htime', hutc']
    simp only [isTradingDay, isHoliday, List.not_mem_nil, decide_false, Bool.not_false,
      Bool.and_true]
    cases isWeekend (dateOf (utcOf row.tsNs)) <;>
      cases isWeekend (dateOf (utcOf row.tsNs + utcOffset info.timezone (utcOf row.tsNs))) <;> simp

end Row

/-- **The session filter keeps exactly what is in session, or it does not.** At an exchange with
hours of its own it always does; at another one it does unless a row is on a weekend in UTC that is a
weekday at the exchange. Where asking for the session of a row raises, so does the filter. -/
theorem filterSessionBars_iff (hzone : ZoneBounds utcOffset) {venue : String} {info : VenueInfo}
    (hvenue : getVenue venue = some info) (bars : List BarTuple) (lunch : Bool) :
    (filterSessionBars utcOffset (bars.map some) venue lunch).map Prod.fst
        = keptBy (fun row ↦ inSession utcOffset row.tsNs venue lunch) bars ↔
      info.code ∈ sessionCodes ∨
        (∃ row ∈ bars, inSession utcOffset row.tsNs venue lunch = none) ∨
        ∀ row ∈ bars, ¬ WeekendInUtc utcOffset info row.tsNs := by
  rw [filterSessionBars_fst, reduceOption_map_some,
    keptBy_eq_iff fun row _ ↦ andThen_eq_none_iff hvenue hzone]
  by_cases hraise : ∃ row ∈ bars, inSession utcOffset row.tsNs venue lunch = none
  · exact iff_of_true (Or.inl hraise) (Or.inr (Or.inl hraise))
  rw [or_iff_right hraise, or_iff_right hraise]
  have hrow : ∀ row ∈ bars, (andThen (onTradingDay venue)
        (fun row ↦ inSession utcOffset row.tsNs venue lunch) row
      = inSession utcOffset row.tsNs venue lunch ↔
        info.code ∈ sessionCodes ∨ ¬ WeekendInUtc utcOffset info row.tsNs) :=
    fun row hmem ↦ andThen_eq_iff hvenue hzone fun hnone ↦ hraise ⟨row, hmem, hnone⟩
  constructor
  · intro h
    by_cases hcode : info.code ∈ sessionCodes
    · exact Or.inl hcode
    · exact Or.inr fun row hmem ↦ ((hrow row hmem).mp (h row hmem)).resolve_left hcode
  · rintro (hcode | hnone) row hmem
    · exact (hrow row hmem).mpr (Or.inl hcode)
    · exact (hrow row hmem).mpr (Or.inr (hnone row hmem))

/-- The clocks of the first week of 2024, at every time. -/
def winterOffset (zone : String) (_ : ℤ) : ℤ :=
  match zone with
  | "America/New_York" | "America/Toronto" => -5 * 3600
  | "America/Sao_Paulo" => -3 * 3600
  | "Europe/Berlin" | "Europe/Paris" | "Europe/Zurich" => 3600
  | "Asia/Kolkata" => 19800
  | "Asia/Hong_Kong" | "Asia/Shanghai" | "Asia/Taipei" | "Asia/Singapore" => 8 * 3600
  | "Asia/Tokyo" | "Asia/Seoul" => 9 * 3600
  | "Australia/Sydney" => 11 * 3600
  | _ => 0

theorem zoneBounds_winterOffset : ZoneBounds winterOffset where
  lt_day := by
    intro zone t
    unfold winterOffset
    split <;> decide
  shanghai := fun _ ↦ by norm_num [winterOffset]
  hongKong := fun _ ↦ by norm_num [winterOffset]
  newYork := fun _ ↦ by norm_num [winterOffset]

/-- A row of half past ten on Monday, the eighth of January 2024, in Sydney is in session there, and
the filter drops it. -/
theorem filterSessionBars_drops_monday :
    ¬ (filterSessionBars winterOffset [some ⟨1704670200000000000, [.finite 43]⟩] "ASX" false).map
        Prod.fst
      = keptBy (fun row ↦ inSession winterOffset row.tsNs "ASX" false)
          [⟨1704670200000000000, [.finite 43]⟩] := by
  decide

/-- A row of ten o'clock on the next day is kept. -/
theorem filterSessionBars_keeps_tuesday :
    (filterSessionBars winterOffset ([⟨1704754800000000000, [.finite 43]⟩].map some) "XASX"
        false).map Prod.fst
      = keptBy (fun row ↦ inSession winterOffset row.tsNs "XASX" false)
          [⟨1704754800000000000, [.finite 43]⟩] :=
  (filterSessionBars_iff zoneBounds_winterOffset
    (show getVenue "XASX" = some ⟨"ASX", ".AX", ["XASX"]⟩ by decide) _ false).mpr
    (Or.inr (Or.inr (by decide)))

end Coinext
