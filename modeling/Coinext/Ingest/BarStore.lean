import Coinext.Ingest.Reader
import Coinext.Support.Gather
import Coinext.Support.Grouping

/-!
# The bar lake as a keyed store

The Python side writes bars into the lake as well. `writeBars` groups a batch by month, merges each
group with the file of its month and writes the file anew; `DataLake.read` is the reader.

What the files hold is decided by the rows written so far, all batches in one list: the file of a
month has, sorted, the last row of every time of the month (`fileOf`). Merging a batch is appending
it to that list (`lookup_writeMonths`), and a read gives the part of it that lies in the range, so
the lake is a map from times to rows (`lake_keyed`).
-/

namespace Coinext

/-! ## Writing -/

/-- The rows of a dictionary, in the order of their times. -/
def orderedRows (merged : Map ℤ OhlcvRow) : List OhlcvRow :=
  (merged.keys.insertionSort (· ≤ ·)).filterMap merged.lookup

/-- Rows merged into one dictionary by time; a later row replaces an earlier one. -/
def mergeRows (rows : List OhlcvRow) : Map ℤ OhlcvRow :=
  rows.foldl (fun merged r ↦ merged.insert r.ts r) ∅

/-- Write the groups of a batch one after the other. The directory, if it is missing, is made before
the first file is written. -/
def writeMonths : List (ℕ × List OhlcvRow) → ℕ → Option SeriesDir →
    Except LakeError ℕ × Option SeriesDir
  | [], written, dir => (.ok written, dir)
  | (ym, monthRows) :: rest, written, dir =>
    match (dir.getD ∅).readOhlcv (.monthly ym) with
    | none => (.error (.unreadable (.monthly ym)), dir)
    | some stored =>
      let ordered := orderedRows (mergeRows (stored ++ monthRows))
      match ordered.find? fun r ↦ ¬ InColumn r.ts with
      | some r => (.error (.column r.ts), some (dir.getD ∅))
      | none => writeMonths rest (written + ordered.length)
          (some ((dir.getD ∅).insert (.monthly ym) ⟨ordered, true⟩))

/-- Write a batch; the result is the number of rows in the files of its months. -/
def writeBars (dir : Option SeriesDir) (rows : List OhlcvRow) :
    Except LakeError ℕ × Option SeriesDir :=
  if rows = [] then (.ok 0, dir)
  else match rows.find? fun r ↦ ¬ Datable r.ts with
    | some r => (.error (.timestamp r.ts), dir)
    | none => writeMonths (groups (fun r ↦ utcMonth r.ts) id rows) 0 dir

/-- Write batches one after the other, up to the first that fails. -/
def writeAll (dir : Option SeriesDir) : List (List OhlcvRow) →
    Except LakeError (Option SeriesDir)
  | [] => .ok dir
  | rows :: batches => match writeBars dir rows with
    | (.ok _, dir) => writeAll dir batches
    | (.error e, _) => .error e

/-! ## Dictionaries -/

theorem lookup_mergeRows (rows : List OhlcvRow) (ts : ℤ) :
    (mergeRows rows).lookup ts = lastAt OhlcvRow.ts rows ts := by
  induction rows using List.reverseRecOn with
  | nil => rfl
  | append_singleton rows r ih =>
    have hstep : mergeRows (rows ++ [r]) = (mergeRows rows).insert r.ts r := by
      rw [mergeRows, List.foldl_append]
      rfl
    have hone : lastAt OhlcvRow.ts [r] ts = if r.ts = ts then some r else none := by
      unfold lastAt
      by_cases h : r.ts = ts <;> simp [h]
    rw [hstep, lastAt_append, hone, ← ih]
    by_cases h : r.ts = ts
    · rw [if_pos h, ← h, AList.lookup_insert, Option.some_or]
    · rw [if_neg h, AList.lookup_insert_ne (Ne.symm h), Option.none_or]

theorem orderedRows_mergeRows (rows : List OhlcvRow) :
    orderedRows (mergeRows rows) = keepLast OhlcvRow.ts rows := by
  have hts : ∀ {ts r}, (mergeRows rows).lookup ts = some r → r.ts = ts := by
    intro ts r h
    rw [lookup_mergeRows] at h
    exact key_of_lastAt h
  refine eq_of_pairwise_key_lt ?_ (pairwise_keepLast rows) fun r ↦ ?_
  · have hkeys : ((mergeRows rows).keys.insertionSort (· ≤ ·)).Pairwise (· < ·) := by
      have hle := List.pairwise_insertionSort (· ≤ ·) (mergeRows rows).keys
      have hnodup := (List.perm_insertionSort (· ≤ ·) (mergeRows rows).keys).nodup_iff.mpr
        (AList.keys_nodup _)
      exact (hle.and hnodup).imp fun h ↦ lt_of_le_of_ne h.1 h.2
    refine hkeys.filterMap _ fun ts ts' hlt r hr r' hr' ↦ ?_
    rw [hts hr, hts hr']
    exact hlt
  · rw [orderedRows, List.mem_filterMap, mem_keepLast, ← lookup_mergeRows]
    constructor
    · rintro ⟨ts, -, h⟩
      rwa [hts h]
    · intro h
      refine ⟨r.ts, (List.mem_insertionSort _).mpr ?_, h⟩
      exact AList.mem_keys.mp (AList.lookup_isSome.mp (by rw [h]; rfl))

/-! ## What the files hold -/

/-- The rows written in a month. -/
def monthRows (written : List OhlcvRow) (ym : ℕ) : List OhlcvRow :=
  written.filter fun r ↦ utcMonth r.ts = ym

/-- The file that the rows written so far leave under a name. -/
def fileOf (written : List OhlcvRow) : LakeFile → Option StoredFile
  | .part _ _ => none
  | .monthly ym =>
    if monthRows written ym = [] then none
    else some ⟨keepLast OhlcvRow.ts (monthRows written ym), true⟩

/-- A directory holds what has been written. -/
def Holds (dir : Option SeriesDir) (written : List OhlcvRow) : Prop :=
  ∀ f, (dir.getD ∅).lookup f = fileOf written f

variable {dir : Option SeriesDir} {written : List OhlcvRow}

theorem Holds.readOhlcv (h : Holds dir written) (ym : ℕ) :
    (dir.getD ∅).readOhlcv (.monthly ym)
      = some (keepLast OhlcvRow.ts (monthRows written ym)) := by
  rw [SeriesDir.readOhlcv, h, fileOf]
  by_cases hnil : monthRows written ym = []
  · rw [if_pos hnil, hnil]
    rfl
  · rw [if_neg hnil]
    rfl

theorem find?_eq_none_of_inColumn {rows : List OhlcvRow} (h : ∀ r ∈ rows, InColumn r.ts) :
    (rows.find? fun r ↦ ¬ InColumn r.ts) = none := by
  rw [List.find?_eq_none]
  intro r hr
  simpa using h r hr

theorem monthRows_append (written rows : List OhlcvRow) (ym : ℕ) :
    monthRows (written ++ rows) ym = monthRows written ym ++ monthRows rows ym :=
  List.filter_append ..

/-- Rows of one month change the file of that month only. -/
theorem fileOf_append {rows : List OhlcvRow} {ym : ℕ} (hne : rows ≠ [])
    (hrows : ∀ r ∈ rows, utcMonth r.ts = ym) (f : LakeFile) :
    fileOf (written ++ rows) f = if f = .monthly ym then
      some ⟨keepLast OhlcvRow.ts (monthRows written ym ++ rows), true⟩ else fileOf written f := by
  cases f with
  | part ym' tag => rfl
  | monthly ym' =>
    simp only [LakeFile.monthly.injEq, fileOf, monthRows_append]
    by_cases hym : ym' = ym
    · subst hym
      have hall : monthRows rows ym' = rows :=
        List.filter_eq_self.mpr fun r hr ↦ decide_eq_true (hrows r hr)
      rw [hall, if_pos rfl, if_neg fun h ↦ hne (List.append_eq_nil_iff.mp h).2]
    · have hnone : monthRows rows ym' = [] := by
        refine List.filter_eq_nil_iff.mpr fun r hr h ↦ hym ?_
        rw [← hrows r hr, of_decide_eq_true h]
      rw [hnone, List.append_nil, if_neg hym]

/-- Writing groups, each of rows of one month, appends them to what is written. -/
theorem writeMonths_of_holds {gs : List (ℕ × List OhlcvRow)}
    (hgs : ∀ g ∈ gs, g.2 ≠ [] ∧ ∀ r ∈ g.2, utcMonth r.ts = g.1 ∧ InColumn r.ts)
    (hwritten : ∀ r ∈ written, InColumn r.ts) (h : Holds dir written) (n : ℕ) :
    ∃ n' dir', writeMonths gs n dir = (.ok n', dir') ∧
      Holds dir' (written ++ gs.flatMap Prod.snd) := by
  induction gs generalizing written dir n with
  | nil => exact ⟨n, dir, rfl, by simpa using h⟩
  | cons g gs ih =>
    obtain ⟨ym, rows⟩ := g
    obtain ⟨hne, hrows⟩ := hgs _ List.mem_cons_self
    have hordered : orderedRows (mergeRows (keepLast OhlcvRow.ts (monthRows written ym) ++ rows))
        = keepLast OhlcvRow.ts (monthRows written ym ++ rows) := by
      rw [orderedRows_mergeRows, keepLast_keepLast_append]
    have hcolumn : ∀ r ∈ keepLast OhlcvRow.ts (monthRows written ym ++ rows), InColumn r.ts := by
      intro r hr
      rcases List.mem_append.mp (mem_of_lastAt (mem_keepLast.mp hr)) with hmem | hmem
      · exact hwritten r (List.mem_filter.mp hmem).1
      · exact (hrows r hmem).2
    have hwritten' : ∀ r ∈ written ++ rows, InColumn r.ts := by
      intro r hr
      exact (List.mem_append.mp hr).elim (hwritten r) fun hmem ↦ (hrows r hmem).2
    have hnext : Holds (some ((dir.getD ∅).insert (.monthly ym)
        ⟨keepLast OhlcvRow.ts (monthRows written ym ++ rows), true⟩)) (written ++ rows) := by
      intro f
      rw [fileOf_append hne fun r hr ↦ (hrows r hr).1, Option.getD_some]
      split_ifs with hf
      · rw [hf, AList.lookup_insert]
      · rw [AList.lookup_insert_ne hf, h f]
    obtain ⟨n', dir', heq, hholds⟩ :=
      ih (fun g hg ↦ hgs g (List.mem_cons_of_mem _ hg)) hwritten' hnext _
    refine ⟨n', dir', ?_, ?_⟩
    · simp only [writeMonths, h.readOhlcv, hordered, find?_eq_none_of_inColumn hcolumn]
      exact heq
    · rw [List.flatMap_cons, ← List.append_assoc]
      exact hholds

/-! ## Batches -/

/-- **A batch is written**, and appended to what has been. -/
theorem writeBars_of_holds {rows : List OhlcvRow} (hrows : ∀ r ∈ rows, InColumn r.ts)
    (hwritten : ∀ r ∈ written, InColumn r.ts) (h : Holds dir written) :
    ∃ n dir', writeBars dir rows = (.ok n, dir') ∧ Holds dir' (written ++ rows) := by
  by_cases hnil : rows = []
  · refine ⟨0, dir, if_pos hnil, ?_⟩
    rw [hnil, List.append_nil]
    exact h
  have hdatable : (rows.find? fun r ↦ ¬ Datable r.ts) = none := by
    rw [List.find?_eq_none]
    intro r hr
    simpa using datable_of_inColumn (hrows r hr)
  have hgs : ∀ g ∈ groups (fun r ↦ utcMonth r.ts) id rows,
      g.2 ≠ [] ∧ ∀ r ∈ g.2, utcMonth r.ts = g.1 ∧ InColumn r.ts := by
    intro g hg
    rw [groups_eq_map] at hg
    obtain ⟨ym, hym, rfl⟩ := List.mem_map.mp hg
    obtain ⟨r, hr, hmonth⟩ := List.mem_map.mp (mem_groupKeys.mp hym)
    simp only [List.map_id]
    refine ⟨List.ne_nil_of_mem (List.mem_filter.mpr ⟨hr, decide_eq_true hmonth⟩), ?_⟩
    intro r hr
    obtain ⟨hr, hmonth⟩ := List.mem_filter.mp hr
    exact ⟨of_decide_eq_true hmonth, hrows r hr⟩
  obtain ⟨n, dir', heq, hholds⟩ := writeMonths_of_holds hgs hwritten h 0
  refine ⟨n, dir', ?_, fun f ↦ ?_⟩
  · rw [writeBars, if_neg hnil, hdatable]
    exact heq
  · -- the groups of a batch have the rows of each month in the order of the batch
    have hmonths : ∀ ym, monthRows (written ++ (groups (fun r ↦ utcMonth r.ts) id rows).flatMap
        Prod.snd) ym = monthRows (written ++ rows) ym := by
      intro ym
      rw [monthRows_append, monthRows_append, monthRows, monthRows, monthRows,
        filter_groups fun _ _ hr ↦ of_decide_eq_true hr]
    rw [hholds f]
    cases f with
    | part ym tag => rfl
    | monthly ym => rw [fileOf, fileOf, hmonths]

/-! ## Reading -/

theorem lastAt_monthRows (written : List OhlcvRow) (ts : ℤ) :
    lastAt OhlcvRow.ts (monthRows written (utcMonth ts)) ts = lastAt OhlcvRow.ts written ts := by
  rw [lastAt, lastAt, monthRows, List.filter_filter]
  refine congrArg List.getLast? (List.filter_congr fun r _ ↦ ?_)
  by_cases h : r.ts = ts <;> simp [h]

theorem of_fileOf {f : LakeFile} {file : StoredFile} (h : fileOf written f = some file) :
    file.Sound f ∧ f = .monthly f.month ∧
      file.rows = keepLast OhlcvRow.ts (monthRows written f.month) := by
  cases f with
  | part ym tag => cases h
  | monthly ym =>
    rw [fileOf] at h
    split_ifs at h
    cases h
    refine ⟨⟨rfl, fun r hr ↦ ?_⟩, rfl, rfl⟩
    have hmem := mem_of_lastAt (mem_keepLast.mp hr)
    exact of_decide_eq_true (List.mem_filter.mp hmem).2

theorem exists_fileOf_iff {r : OhlcvRow} :
    (∃ f file, fileOf written f = some file ∧ r ∈ file.rows)
      ↔ lastAt OhlcvRow.ts written r.ts = some r := by
  rw [← lastAt_monthRows, ← mem_keepLast]
  constructor
  · rintro ⟨f, file, hfile, hr⟩
    obtain ⟨hsound, -, hrows⟩ := of_fileOf hfile
    rwa [hsound.2 r hr, ← hrows]
  · intro hr
    have hne : monthRows written (utcMonth r.ts) ≠ [] :=
      List.ne_nil_of_mem (mem_of_lastAt (mem_keepLast.mp hr))
    exact ⟨.monthly (utcMonth r.ts), _, if_neg hne, hr⟩

theorem nodup_rowsIn {d : SeriesDir} (h : ∀ f, d.lookup f = fileOf written f)
    (start stop : Option ℤ) :
    ((SeriesDir.rowsIn start stop d.sortedFiles).map OhlcvRow.ts).Nodup := by
  have hfile : ∀ e ∈ d.sortedFiles, fileOf written e.1 = some e.2 :=
    fun e he ↦ (h e.1).symm.trans (SeriesDir.mem_sortedFiles.mp he)
  have hnames : d.sortedFiles.Pairwise fun e e' ↦ e.1 ≠ e'.1 := by
    have hperm := List.perm_insertionSort (fun e e' ↦ e.1.name ≤ e'.1.name) d.entries
    exact List.pairwise_map.mp ((hperm.map Sigma.fst).nodup_iff.mpr d.keys_nodup)
  rw [SeriesDir.rowsIn, List.map_flatMap, List.nodup_flatMap]
  refine ⟨fun e he ↦ ?_, hnames.imp_of_mem fun {e e'} he he' hne ↦ ?_⟩
  · rw [(of_fileOf (hfile e he)).2.2]
    exact List.pairwise_map.mpr (((pairwise_keepLast _).filter _).imp fun hlt ↦ hlt.ne)
  · -- files with a time in common are of one month
    intro ts hts hts'
    obtain ⟨r, hr, rfl⟩ := List.mem_map.mp hts
    obtain ⟨r', hr', hsame⟩ := List.mem_map.mp hts'
    obtain ⟨hsound, hname, -⟩ := of_fileOf (hfile e he)
    obtain ⟨hsound', hname', -⟩ := of_fileOf (hfile e' he')
    have hmonth := hsound.2 r (List.mem_filter.mp hr).1
    have hmonth' := hsound'.2 r' (List.mem_filter.mp hr').1
    rw [hsame, hmonth] at hmonth'
    exact hne (hname.trans ((congrArg LakeFile.monthly hmonth').trans hname'.symm))

/-- A directory that holds rows is read as the last of each time, in the range. -/
theorem read_of_lookup {d : SeriesDir} (h : ∀ f, d.lookup f = fileOf written f)
    (start stop : Option ℤ) :
    d.read start stop
      = .ok ((keepLast OhlcvRow.ts written).filter fun r ↦ inRange start stop r.ts) := by
  have hsound : d.Sound := fun f file hfile ↦ (of_fileOf (h f ▸ hfile)).1
  have hreadable : ∀ e ∈ d.sortedFiles, e.2.readable = true :=
    fun e he ↦ (hsound e.1 e.2 (SeriesDir.mem_sortedFiles.mp he)).1
  rw [hsound.read_eq start stop, SeriesDir.filter_read start stop hreadable]
  have hmem : ∀ r, r ∈ SeriesDir.rowsIn start stop d.sortedFiles ↔
      lastAt OhlcvRow.ts written r.ts = some r ∧ inRange start stop r.ts = true := by
    intro r
    rw [SeriesDir.rowsIn, List.mem_flatMap, ← exists_fileOf_iff]
    constructor
    · rintro ⟨e, he, hr⟩
      obtain ⟨hr, hin⟩ := List.mem_filter.mp hr
      exact ⟨⟨e.1, e.2, h e.1 ▸ SeriesDir.mem_sortedFiles.mp he, hr⟩, hin⟩
    · rintro ⟨⟨f, file, hfile, hr⟩, hin⟩
      exact ⟨⟨f, file⟩, SeriesDir.mem_sortedFiles.mpr ((h f).trans hfile),
        List.mem_filter.mpr ⟨hr, hin⟩⟩
  have hsorted : ((SeriesDir.rowsIn start stop d.sortedFiles).insertionSort
      fun r r' ↦ r.ts ≤ r'.ts).Pairwise fun r r' ↦ r.ts < r'.ts := by
    have : Std.Total fun r r' : OhlcvRow ↦ r.ts ≤ r'.ts := ⟨fun r r' ↦ le_total r.ts r'.ts⟩
    have : IsTrans OhlcvRow fun r r' ↦ r.ts ≤ r'.ts := ⟨fun r r' r'' h h' ↦ h.trans h'⟩
    have hle := List.pairwise_insertionSort (fun r r' : OhlcvRow ↦ r.ts ≤ r'.ts)
      (SeriesDir.rowsIn start stop d.sortedFiles)
    have hperm := List.perm_insertionSort (fun r r' : OhlcvRow ↦ r.ts ≤ r'.ts)
      (SeriesDir.rowsIn start stop d.sortedFiles)
    have hne := List.pairwise_map.mp
      ((hperm.map OhlcvRow.ts).nodup_iff.mpr (nodup_rowsIn h start stop))
    exact (hle.and hne).imp fun h ↦ lt_of_le_of_ne h.1 h.2
  refine congrArg Except.ok (eq_of_pairwise_key_lt hsorted
    ((pairwise_keepLast written).filter _) fun r ↦ ?_)
  rw [List.mem_insertionSort, hmem, List.mem_filter, mem_keepLast]

theorem Holds.eq_nil (h : Holds none written) : written = [] := by
  rcases List.eq_nil_or_concat written with hnil | ⟨rows, r, hrows⟩
  · exact hnil
  · have hmem : r ∈ monthRows written (utcMonth r.ts) := by
      refine List.mem_filter.mpr ⟨?_, decide_eq_true rfl⟩
      rw [hrows, List.concat_eq_append]
      exact List.mem_append_right _ List.mem_cons_self
    have hnone := h (.monthly (utcMonth r.ts))
    rw [fileOf, if_neg (List.ne_nil_of_mem hmem)] at hnone
    cases hnone

/-- A directory is read, unless the calendar does not have one of the bounds. -/
theorem DataLake.read_some {d : SeriesDir} (h : Holds (some d) written) (start stop : Option ℤ) :
    DataLake.read (some d) start stop
      = match (start.toList ++ stop.toList).find? fun ts ↦ ¬ Datable ts with
        | some ts => .error (.timestamp ts)
        | none =>
          .ok ((keepLast OhlcvRow.ts written).filter fun r ↦ inRange start stop r.ts) := by
  have hread : d.read start stop = _ := read_of_lookup (fun f ↦ h f) start stop
  cases hfind : (start.toList ++ stop.toList).find? fun ts ↦ ¬ Datable ts with
  | some ts => simp only [DataLake.read, hfind]
  | none =>
    simp only [DataLake.read, hfind, hread]
    rfl

theorem DataLake.read_of_holds (h : Holds dir written) {start stop : Option ℤ}
    (hstart : ∀ ts ∈ start, Datable ts) (hstop : ∀ ts ∈ stop, Datable ts) :
    DataLake.read dir start stop
      = .ok ((keepLast OhlcvRow.ts written).filter fun r ↦ inRange start stop r.ts) := by
  cases dir with
  | none =>
    rw [h.eq_nil]
    rfl
  | some d =>
    simp only [DataLake.read_some h, find?_eq_none_of_datable hstart hstop]

/-! ## The keyed store -/

/-- The rows of a range are those of a map from times to rows: sorted, one for every time that was
written, and that the one written last. -/
structure KeyedRows (written : List OhlcvRow) (start stop : Option ℤ) (rows : List OhlcvRow) :
    Prop where
  sorted : rows.Pairwise fun r r' ↦ r.ts < r'.ts
  mem_iff : ∀ r, r ∈ rows ↔
    inRange start stop r.ts = true ∧ (written.filter fun r' ↦ r'.ts = r.ts).getLast? = some r

theorem keyedRows_filter (written : List OhlcvRow) (start stop : Option ℤ) :
    KeyedRows written start stop
      ((keepLast OhlcvRow.ts written).filter fun r ↦ inRange start stop r.ts) where
  sorted := (pairwise_keepLast written).filter _
  mem_iff r := by rw [List.mem_filter, mem_keepLast, and_comm, lastAt]

theorem writeAll_of_holds {batches : List (List OhlcvRow)}
    (hbatches : ∀ rows ∈ batches, ∀ r ∈ rows, InColumn r.ts)
    (hwritten : ∀ r ∈ written, InColumn r.ts) (h : Holds dir written) :
    ∃ dir', writeAll dir batches = .ok dir' ∧ Holds dir' (written ++ batches.flatten) := by
  induction batches generalizing dir written with
  | nil => exact ⟨dir, rfl, by simpa using h⟩
  | cons rows batches ih =>
    have hrows := hbatches rows List.mem_cons_self
    obtain ⟨n, dir₁, heq, hholds⟩ := writeBars_of_holds hrows hwritten h
    have hwritten' : ∀ r ∈ written ++ rows, InColumn r.ts :=
      fun r hr ↦ (List.mem_append.mp hr).elim (hwritten r) (hrows r)
    obtain ⟨dir', hall, hholds'⟩ :=
      ih (fun rows hrows ↦ hbatches rows (List.mem_cons_of_mem _ hrows)) hwritten' hholds
    refine ⟨dir', ?_, ?_⟩
    · rw [writeAll, heq]
      exact hall
    · rw [List.flatten_cons, ← List.append_assoc]
      exact hholds'

/-- Writing a batch again changes no read. -/
theorem read_writeBars_again {rows : List OhlcvRow} {dir' : Option SeriesDir}
    (h : Holds dir (written ++ rows)) (h' : Holds dir' (written ++ rows ++ rows))
    (hnil : rows = [] → dir' = dir) (start stop : Option ℤ) :
    DataLake.read dir' start stop = DataLake.read dir start stop := by
  by_cases hrows : rows = []
  · rw [hnil hrows]
  have hkeep : keepLast OhlcvRow.ts (written ++ rows ++ rows)
      = keepLast OhlcvRow.ts (written ++ rows) := by
    refine eq_of_pairwise_key_lt (pairwise_keepLast _) (pairwise_keepLast _) fun r ↦ ?_
    rw [mem_keepLast, mem_keepLast, lastAt_append, lastAt_append, ← Option.or_assoc,
      Option.or_self]
  -- rows have been written, so both directories exist
  cases dir with
  | none => exact absurd (List.append_eq_nil_iff.mp h.eq_nil).2 hrows
  | some d =>
    cases dir' with
    | none => exact absurd (List.append_eq_nil_iff.mp h'.eq_nil).2 hrows
    | some d' => rw [DataLake.read_some h, DataLake.read_some h', hkeep]

/-- **The lake is a keyed store.** Whatever batches are written into a directory without files, a
read gives of every time in its range the row written last, sorted and each time once; and writing
the last batch again changes no read. -/
theorem lake_keyed (hempty : dir.getD ∅ = ∅) {batches : List (List OhlcvRow)}
    (hbatches : ∀ rows ∈ batches, ∀ r ∈ rows, InColumn r.ts) :
    ∃ dir', writeAll dir batches = .ok dir' ∧
      (∀ start stop, (∀ ts ∈ start, Datable ts) → (∀ ts ∈ stop, Datable ts) →
        ∃ rows, DataLake.read dir' start stop = .ok rows ∧
          KeyedRows batches.flatten start stop rows) ∧
      ∀ rows ∈ batches.getLast?, ∃ n dir'', writeBars dir' rows = (.ok n, dir'') ∧
        ∀ start stop, DataLake.read dir'' start stop = DataLake.read dir' start stop := by
  have hinit : Holds dir [] := by
    intro f
    rw [hempty]
    cases f <;> rfl
  obtain ⟨dir', hall, hholds⟩ :=
    writeAll_of_holds hbatches (fun _ hr ↦ absurd hr List.not_mem_nil) hinit
  rw [List.nil_append] at hholds
  refine ⟨dir', hall, fun start stop hstart hstop ↦ ?_, fun rows hlast ↦ ?_⟩
  · exact ⟨_, DataLake.read_of_holds hholds hstart hstop, keyedRows_filter _ _ _⟩
  · have hwritten : ∀ r ∈ batches.flatten, InColumn r.ts := by
      intro r hr
      obtain ⟨rows, hrows, hr⟩ := List.mem_flatten.mp hr
      exact hbatches rows hrows r hr
    obtain ⟨n, dir'', heq, hagain⟩ :=
      writeBars_of_holds (hbatches rows (List.mem_of_getLast? hlast)) hwritten hholds
    refine ⟨n, dir'', heq, ?_⟩
    obtain ⟨front, rfl⟩ := List.getLast?_eq_some_iff.mp hlast
    rw [List.flatten_append, List.flatten_singleton] at hholds hagain
    refine read_writeBars_again hholds hagain fun hnil ↦ ?_
    rw [writeBars, if_pos hnil] at heq
    exact (congrArg Prod.snd heq).symm

section Instances

/-- Two batches about the end of January of 1970, the first over two months, with the time zero
written in both. -/
def januaryBatches : List (List OhlcvRow) :=
  [[⟨2678400000000000, .finite 1, .finite 2, .finite 1, .finite 2, .finite 5⟩,
      ⟨0, .finite 1, .finite 1, .finite 1, .finite 1, .finite 1⟩],
    [⟨0, .finite 3, .finite 3, .finite 3, .finite 3, .finite 3⟩]]

theorem lake_keyed_january :
    ∃ dir', writeAll (some ∅) januaryBatches = .ok dir' ∧
      (∃ rows, DataLake.read dir' none (some 1) = .ok rows ∧
        KeyedRows januaryBatches.flatten none (some 1) rows) ∧
      ∃ n dir'', writeBars dir' [⟨0, .finite 3, .finite 3, .finite 3, .finite 3, .finite 3⟩]
        = (.ok n, dir'') ∧ DataLake.read dir'' none none = DataLake.read dir' none none := by
  have hcolumn : ∀ rows ∈ januaryBatches, ∀ r ∈ rows, InColumn r.ts := by decide
  have hempty : (some ∅ : Option SeriesDir).getD ∅ = ∅ := rfl
  obtain ⟨dir', hall, hread, hagain⟩ := lake_keyed hempty hcolumn
  obtain ⟨n, dir'', heq, hsame⟩ := hagain _ rfl
  refine ⟨dir', hall, hread none (some 1) (by simp) (by simp; decide), n, dir'', heq, ?_⟩
  exact hsame none none

/-- The row of the second batch is read, from the file of the first month. -/
example : (writeAll none januaryBatches).map (fun dir ↦ DataLake.read dir none (some 1))
    = .ok (.ok [⟨0, .finite 3, .finite 3, .finite 3, .finite 3, .finite 3⟩]) := by
  decide

end Instances

end Coinext
