import Coinext.Model.MarketData
import Coinext.Support.Calendar
import Coinext.Support.StableSort

/-!
# The bar lake

The ingest sinks keep the bars of a series in one directory, a file for each calendar month, named
after it. `flushBarBatch` merges a batch of bars into the file of a month, together with the parts
that an earlier version has left for the month; `SeriesDir.read` is the Python reader, which opens
the files of the months asked for only.

A file has its rows, and may fail to be read nevertheless. What the file system does in one flush is
its `FlushWorld`: the order in which it lists the directory and what it leaves out, the parts it
does not remove, and how the last write ends.
-/

namespace Coinext

/-! ## Files -/

/-- A row of a file: the close time of a bar, as a signed number, and its prices and volume. -/
structure OhlcvRow where
  ts : ℤ
  open_ : F64
  high : F64
  low : F64
  close : F64
  volume : F64
deriving DecidableEq

/-- The files of a directory: that of a month, and a part of one. -/
inductive LakeFile where
  /-- `YYYYMM.parquet` -/
  | monthly (ym : ℕ)
  /-- `YYYYMM-tag.parquet` -/
  | part (ym : ℕ) (tag : String)
deriving DecidableEq

namespace LakeFile

def name : LakeFile → String
  | monthly ym => toString ym ++ ".parquet"
  | part ym tag => toString ym ++ "-" ++ tag ++ ".parquet"

/-- The month that the reader takes from the name. -/
def month : LakeFile → ℕ
  | monthly ym => ym
  | part ym _ => ym

/-- Whether a flush takes a file for a part of a month. -/
def isPart (ym : ℕ) (f : LakeFile) : Bool :=
  (toString ym ++ "-").toList.isPrefixOf f.name.toList
    && ".parquet".toList.isSuffixOf f.name.toList

end LakeFile

structure StoredFile where
  rows : List OhlcvRow
  /-- Whether it can be read. -/
  readable : Bool

/-- The files of a series. -/
abbrev SeriesDir := Map LakeFile StoredFile

/-- Venue, symbol and interval. -/
abbrev SeriesPath := String × String × String

/-- The directories of all series. -/
abbrev Lake := SeriesPath → SeriesDir

/-! ## The month of a time -/

/-- The month of a day, as the sinks compute it; days are counted from the Unix epoch. -/
def yyyymmOfDays (days : ℕ) : ℕ :=
  let z := days + 719468
  let era := z / 146097
  let doe := z - era * 146097
  let yoe := (doe - doe / 1460 + doe / 36524 - doe / 146096) / 365
  let y := yoe + era * 400
  let doy := doe - (365 * yoe + yoe / 4 - yoe / 100)
  let mp := (5 * doy + 2) / 153
  let m := if mp < 10 then mp + 3 else mp - 9
  let y := if m ≤ 2 then y + 1 else y
  y * 100 + m

/-- The month of a time, as the sinks compute it. -/
def yyyymmOf (ts : UnixNanos) : ℕ :=
  let secs := ts / 1000000000
  yyyymmOfDays (secs / 86400)

/-- The calendar month of a time in UTC, as the reader has it from the standard library. The first
of January 1970 is day 719162 of the calendar. -/
def utcMonth (ts : ℤ) : ℕ := Calendar.yyyymm (ts / 1000000000 / 86400 + 719162).toNat

theorem yyyymmOfDays_eq (days : ℕ) : yyyymmOfDays days = Calendar.yyyymm (days + 719162) := by
  rw [Calendar.yyyymm]
  simp only [yyyymmOfDays]
  -- the variables of the computation, from the cycle down to the month
  generalize hera : (days + 719468) / 146097 = era
  generalize hdoe : days + 719468 - era * 146097 = doe
  have hcycle : doe < 146097 := by omega
  have hyear := Calendar.marchYear_lt hcycle
  obtain ⟨hstart, hend⟩ := Calendar.marchYear_spec hcycle
  unfold Calendar.marchEstimate at hyear hstart hend
  generalize (doe - doe / 1460 + doe / 36524 - doe / 146096) / 365 = yoe at *
  rw [← Calendar.daysBeforeMarchYear_of_lt hyear]
  generalize hdoy : doe - Calendar.daysBeforeMarchYear yoe = doy
  have hn : days + 719162 + 306 = 146097 * era + Calendar.daysBeforeMarchYear yoe + doy := by
    omega
  have hlast : days + 719162 + 306 < 146097 * era + Calendar.daysBeforeMarchYear (yoe + 1) := by
    omega
  have hlong := Calendar.daysBeforeMarchYear_succ_le yoe
  obtain ⟨hmonth, hmonth'⟩ := Calendar.marchMonth_spec doy
  generalize hmp : (5 * doy + 2) / 153 = mp at *
  by_cases hearly : mp < 10
  · obtain ⟨hy, hm⟩ := Calendar.of_march hn hmonth hmonth' hearly
    rw [hy, hm, if_pos hearly, if_neg (by omega)]
    ring
  · obtain ⟨hy, hm⟩ :=
      Calendar.of_march_next hn hmonth hmonth' hlast (not_lt.mp hearly) (by omega)
    rw [hy, hm, if_neg hearly, if_pos (by omega)]
    ring

theorem yyyymmOf_eq (ts : UnixNanos) : yyyymmOf ts = utcMonth ts := by
  have hday : (ts : ℤ) / 1000000000 / 86400 + 719162
      = ((ts / 1000000000 / 86400 + 719162 : ℕ) : ℤ) := by
    push_cast
    rfl
  rw [utcMonth, hday, Int.toNat_natCast]
  exact yyyymmOfDays_eq _

/-! ## Flushing a batch -/

/-- How the last write ends. -/
inductive WriteOutcome where
  | ok
  /-- The file cannot be created; what was there stays. -/
  | notCreated (error : String)
  /-- The file is created, and so emptied, and not completed. -/
  | broken (error : String)
deriving DecidableEq

/-- What the file system does in a flush. -/
structure FlushWorld where
  /-- Why the directory cannot be made. -/
  createDir : Option String
  /-- The files that are listed, in the order of the listing. -/
  listing : List LakeFile
  nodup : listing.Nodup
  /-- The files that are removed when this is asked for. -/
  removes : LakeFile → Bool
  write : WriteOutcome

/-- A missing file is read as an empty one. -/
def SeriesDir.readOhlcv (d : SeriesDir) (f : LakeFile) : Option (List OhlcvRow) :=
  match d.lookup f with
  | none => some []
  | some file => if file.readable then some file.rows else none

/-- Sort by time, and keep the last row of each. -/
def dedupByTs (rows : List OhlcvRow) : List OhlcvRow :=
  keepLast OhlcvRow.ts (rows.insertionSort fun r r' ↦ r.ts ≤ r'.ts)

namespace FlushWorld

variable (w : FlushWorld) (ym : ℕ)

/-- The parts of the month that are listed. -/
def parts : List LakeFile := w.listing.filter (LakeFile.isPart ym)

/-- The rows that are read before those of the batch. What cannot be read counts as empty. -/
def rowsRead (d : SeriesDir) : List OhlcvRow :=
  (d.readOhlcv (.monthly ym)).getD [] ++ (w.parts ym).flatMap fun f ↦ (d.readOhlcv f).getD []

/-- The parts are removed as they are read. -/
def removeParts (d : SeriesDir) : SeriesDir :=
  ((w.parts ym).filter w.removes).foldl (fun d f ↦ d.erase f) d

/-- Merge rows into the file of a month. -/
def mergeMonth (rows : List OhlcvRow) (d : SeriesDir) : Except String Unit × SeriesDir :=
  match w.write with
  | .ok => (.ok (),
    (w.removeParts ym d).insert (.monthly ym) ⟨dedupByTs (w.rowsRead ym d ++ rows), true⟩)
  | .notCreated error => (.error error, w.removeParts ym d)
  | .broken error => (.error error, (w.removeParts ym d).insert (.monthly ym) ⟨[], false⟩)

end FlushWorld

/-- The part of the sinks that a flush uses. -/
structure IngestSinks where
  lakeRoot : Option Lake
  flushedBars : ℕ

/-- A series key is `venue/symbol/interval`. -/
def splitSeriesKey (seriesKey : String) : Option SeriesPath :=
  match seriesKey.toList.splitOn '/' with
  | [venue, symbol, interval] =>
    some (String.ofList venue, String.ofList symbol, String.ofList interval)
  | _ => none

section Flush

variable (toF64 : Decimal → Option F64)

/-- The row of a bar. Its time is stored as a signed number of the same bits. -/
def Bar.row (b : Bar) : OhlcvRow where
  ts := (b.tsEvent : ℤ).bmod (2 ^ 64)
  open_ := (toF64 b.open_.asDecimal).getD .nan
  high := (toF64 b.high.asDecimal).getD .nan
  low := (toF64 b.low.asDecimal).getD .nan
  close := (toF64 b.close.asDecimal).getD .nan
  volume := (toF64 b.volume.asDecimal).getD .nan

/-- Flush the bars of a series. The month is that of the first bar. -/
def IngestSinks.flushBarBatch (s : IngestSinks) (w : FlushWorld) (seriesKey : String)
    (bars : List Bar) : Except String Unit × IngestSinks :=
  match bars, s.lakeRoot with
  | [], _ => (.ok (), s)
  | _ :: _, none => (.ok (), s)
  | first :: _, some lake => match splitSeriesKey seriesKey with
    | none => (.error ("bad series key " ++ seriesKey), s)
    | some path => match w.createDir with
      | some error => (.error error, s)
      | none =>
        let out := w.mergeMonth (yyyymmOf first.tsEvent) (bars.map (Bar.row toF64)) (lake path)
        (out.1, {
          lakeRoot := some (Function.update lake path out.2)
          flushedBars := match out.1 with
            | .ok () => s.flushedBars + bars.length
            | .error _ => s.flushedBars })

end Flush

/-! ## Reading a range -/

/-- Whether a time lies between two bounds, each of which may be missing. -/
def inRange (start stop : Option ℤ) (ts : ℤ) : Bool :=
  (start.all fun s ↦ s ≤ ts) && stop.all fun s ↦ ts ≤ s

namespace SeriesDir

/-- The files by name. -/
def sortedFiles (d : SeriesDir) : List (Sigma fun _ : LakeFile ↦ StoredFile) :=
  d.entries.insertionSort fun f g ↦ f.1.name ≤ g.1.name

/-- Whether a file is opened for a range of times. -/
def opens (start stop : Option ℤ) (f : LakeFile) : Bool :=
  (start.all fun s ↦ utcMonth s ≤ f.month) && stop.all fun s ↦ f.month ≤ utcMonth s

/-- The rows of a range, sorted by time; an opened file that cannot be read is an error. -/
def read (d : SeriesDir) (start stop : Option ℤ) : Except LakeFile (List OhlcvRow) := do
  let rows ← (d.sortedFiles.filter fun e ↦ opens start stop e.1).mapM fun e ↦
    if e.2.readable then .ok (e.2.rows.filter fun r ↦ inRange start stop r.ts) else .error e.1
  pure (rows.flatten.insertionSort fun r r' ↦ r.ts ≤ r'.ts)

end SeriesDir

end Coinext
