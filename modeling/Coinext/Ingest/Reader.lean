import Coinext.Ingest.Lake

/-!
# Reading a range of the lake

The reader opens the files of the months of a range only. What it leaves out are the rows that are
stored in the file of another month: every range is read as the part of a full read exactly when
every file can be read and has the rows of its own month only (`SeriesDir.readsRanges_iff`).
-/

namespace Coinext

theorem utcMonth_mono : Monotone utcMonth := by
  intro ts ts' h
  refine Calendar.yyyymm_mono (Int.toNat_le_toNat ?_)
  have hsecs : ts / 1000000000 ≤ ts' / 1000000000 := Int.ediv_le_ediv (by decide) h
  have hdays : ts / 1000000000 / 86400 ≤ ts' / 1000000000 / 86400 :=
    Int.ediv_le_ediv (by decide) hsecs
  exact Int.add_le_add_right hdays _

/-- Why a call of the lake fails. -/
inductive LakeError where
  /-- The calendar of the standard library ends before this time, or begins after it. -/
  | timestamp (ts : ℤ)
  /-- The column of times does not hold this one. -/
  | column (ts : ℤ)
  | unreadable (f : LakeFile)
deriving DecidableEq

/-- Whether a time is in one of the years from 1 to 9999. -/
def Datable (ts : ℤ) : Prop :=
  0 ≤ ts / 1000000000 / 86400 + 719162 ∧ ts / 1000000000 / 86400 + 719162 ≤ 3652058

instance (ts : ℤ) : Decidable (Datable ts) := inferInstanceAs (Decidable (_ ∧ _))

/-- Whether the column of times holds a time. -/
def InColumn (ts : ℤ) : Prop := i64Min ≤ ts ∧ ts ≤ i64Max

instance (ts : ℤ) : Decidable (InColumn ts) := inferInstanceAs (Decidable (_ ∧ _))

theorem datable_of_inColumn {ts : ℤ} (h : InColumn ts) : Datable ts := by
  unfold InColumn i64Min i64Max at h
  unfold Datable
  omega

/-- Read a range. -/
def DataLake.read (dir : Option SeriesDir) (start stop : Option ℤ) :
    Except LakeError (List OhlcvRow) :=
  match dir with
  | none => .ok []
  | some d => match (start.toList ++ stop.toList).find? fun ts ↦ ¬ Datable ts with
    | some ts => .error (.timestamp ts)
    | none => (d.read start stop).mapError .unreadable

theorem find?_eq_none_of_datable {start stop : Option ℤ} (hstart : ∀ ts ∈ start, Datable ts)
    (hstop : ∀ ts ∈ stop, Datable ts) :
    ((start.toList ++ stop.toList).find? fun ts ↦ ¬ Datable ts) = none := by
  rw [List.find?_eq_none]
  intro ts hts
  rcases List.mem_append.mp hts with hmem | hmem
  · simpa using hstart ts (Option.mem_toList.mp hmem)
  · simpa using hstop ts (Option.mem_toList.mp hmem)

/-- A file that can be read and has the rows of its month only. -/
def StoredFile.Sound (f : LakeFile) (file : StoredFile) : Prop :=
  file.readable = true ∧ ∀ r ∈ file.rows, utcMonth r.ts = f.month

namespace SeriesDir

def Sound (d : SeriesDir) : Prop := ∀ f file, d.lookup f = some file → file.Sound f

/-- Some file has the row. -/
def Stores (d : SeriesDir) (r : OhlcvRow) : Prop := ∃ f file, d.lookup f = some file ∧ r ∈ file.rows

/-- Every range with bounds that the calendar has is read as the part of a full read. -/
def ReadsRanges (d : SeriesDir) : Prop :=
  ∀ start stop, (∀ ts ∈ start, Datable ts) → (∀ ts ∈ stop, Datable ts) →
    DataLake.read (some d) start stop = (DataLake.read (some d) none none).map fun rows ↦
      rows.filter fun r ↦ inRange start stop r.ts

variable {d : SeriesDir}

theorem read_some_of_datable {start stop : Option ℤ} (hstart : ∀ ts ∈ start, Datable ts)
    (hstop : ∀ ts ∈ stop, Datable ts) :
    DataLake.read (some d) start stop = (d.read start stop).mapError .unreadable := by
  simp only [DataLake.read, find?_eq_none_of_datable hstart hstop]

theorem mem_sortedFiles {f : LakeFile} {file : StoredFile} :
    ⟨f, file⟩ ∈ d.sortedFiles ↔ d.lookup f = some file := by
  rw [sortedFiles, List.mem_insertionSort]
  exact AList.mem_lookup_iff.symm

/-- The rows of a range in the files, unsorted. -/
def rowsIn (start stop : Option ℤ) (files : List (Sigma fun _ : LakeFile ↦ StoredFile)) :
    List OhlcvRow :=
  files.flatMap fun e ↦ e.2.rows.filter fun r ↦ inRange start stop r.ts

/-- Where every opened file can be read, the read succeeds. -/
theorem read_eq_ok {start stop : Option ℤ}
    (h : ∀ e ∈ d.sortedFiles, opens start stop e.1 = true → e.2.readable = true) :
    d.read start stop = .ok ((rowsIn start stop
      (d.sortedFiles.filter fun e ↦ opens start stop e.1)).insertionSort
        fun r r' ↦ r.ts ≤ r'.ts) := by
  have hrows : (d.sortedFiles.filter fun e ↦ opens start stop e.1).mapM (fun e ↦
      if e.2.readable then (.ok (e.2.rows.filter fun r ↦ inRange start stop r.ts) :
        Except LakeFile (List OhlcvRow)) else .error e.1)
      = .ok ((d.sortedFiles.filter fun e ↦ opens start stop e.1).map fun e ↦
        e.2.rows.filter fun r ↦ inRange start stop r.ts) := by
    rw [Except.mapM_eq_ok_iff, List.forall₂_map_right_iff, List.forall₂_same]
    intro e he
    obtain ⟨he, hopens⟩ := List.mem_filter.mp he
    rw [if_pos (h e he hopens)]
  rw [read, hrows]
  rfl

/-- A file that is opened and cannot be read makes the read fail. -/
theorem read_ne_ok {start stop : Option ℤ} {f : LakeFile} {file : StoredFile}
    (hfile : d.lookup f = some file) (hopens : opens start stop f = true)
    (hreadable : file.readable = false) (rows : List OhlcvRow) :
    d.read start stop ≠ .ok rows := by
  intro hread
  rw [read, Except.bind_eq_ok_iff] at hread
  obtain ⟨parts, hparts, -⟩ := hread
  obtain ⟨part, hpart⟩ := Except.exists_of_mem_of_mapM hparts
    (List.mem_filter.mpr ⟨mem_sortedFiles.mpr hfile, hopens⟩)
  rw [if_neg (by simp [hreadable])] at hpart
  cases hpart

theorem opens_eq_false {start stop : ℤ} (h : utcMonth stop < utcMonth start) (f : LakeFile) :
    opens (some start) (some stop) f = false := by
  by_contra hopens
  rw [Bool.not_eq_false, opens, Option.all_some, Option.all_some, Bool.and_eq_true,
    decide_eq_true_eq, decide_eq_true_eq] at hopens
  omega

theorem filter_eq_nil_of_sound {f : LakeFile} {file : StoredFile} (h : file.Sound f)
    {start stop : Option ℤ} (hopens : opens start stop f = false) :
    (file.rows.filter fun r ↦ inRange start stop r.ts) = [] := by
  rw [List.filter_eq_nil_iff]
  intro r hr hin
  refine Bool.eq_false_iff.mp hopens ?_
  rw [SeriesDir.opens, ← h.2 r hr]
  rw [inRange, Bool.and_eq_true] at hin
  rw [Bool.and_eq_true]
  refine ⟨?_, ?_⟩
  · cases start with
    | none => rfl
    | some s => exact decide_eq_true (utcMonth_mono (of_decide_eq_true hin.1))
  · cases stop with
    | none => rfl
    | some s => exact decide_eq_true (utcMonth_mono (of_decide_eq_true hin.2))

theorem filter_read (start stop : Option ℤ) (h : ∀ e ∈ d.sortedFiles, e.2.readable = true) :
    (d.read none none).map (fun rows ↦ rows.filter fun r ↦ inRange start stop r.ts)
      = .ok ((rowsIn start stop d.sortedFiles).insertionSort fun r r' ↦ r.ts ≤ r'.ts) := by
  have : Std.Total fun r r' : OhlcvRow ↦ r.ts ≤ r'.ts := ⟨fun r r' ↦ le_total r.ts r'.ts⟩
  have : IsTrans OhlcvRow fun r r' ↦ r.ts ≤ r'.ts := ⟨fun r r' r'' h h' ↦ h.trans h'⟩
  rw [read_eq_ok fun e he _ ↦ h e he]
  have hall : (d.sortedFiles.filter fun e ↦ opens none none e.1) = d.sortedFiles :=
    List.filter_eq_self.mpr fun _ _ ↦ rfl
  have hrows : rowsIn none none d.sortedFiles = d.sortedFiles.flatMap fun e ↦ e.2.rows :=
    List.flatMap_congr fun e _ ↦ List.filter_eq_self.mpr fun _ _ ↦ rfl
  rw [hall, hrows, Except.map, filter_insertionSort, List.filter_flatMap]
  rfl

theorem Sound.read_eq (h : d.Sound) (start stop : Option ℤ) : d.read start stop
    = (d.read none none).map fun rows ↦ rows.filter fun r ↦ inRange start stop r.ts := by
  have hall : ∀ e ∈ d.sortedFiles, e.2.readable = true :=
    fun e he ↦ (h e.1 e.2 (mem_sortedFiles.mp he)).1
  rw [read_eq_ok fun e he _ ↦ hall e he, filter_read _ _ hall, rowsIn, flatMap_filter_eq]
  · rfl
  · exact fun e he hopens ↦ filter_eq_nil_of_sound (h e.1 e.2 (mem_sortedFiles.mp he)) hopens

theorem Sound.readsRanges (h : d.Sound) : d.ReadsRanges := by
  intro start stop hstart hstop
  rw [read_some_of_datable hstart hstop, h.read_eq start stop,
    read_some_of_datable (by simp) (by simp)]
  cases d.read none none <;> rfl

/-- **Reading ranges.** Of rows whose times the column holds, every range is read as the part of a
full read if and only if every file can be read and has the rows of its own month only. -/
theorem readsRanges_iff (hcolumn : ∀ r, d.Stores r → InColumn r.ts) : d.ReadsRanges ↔ d.Sound := by
  refine ⟨fun h ↦ ?_, Sound.readsRanges⟩
  have hreadable : ∀ f file, d.lookup f = some file → file.readable = true := by
    intro f file hfile
    by_contra hunreadable
    rw [Bool.not_eq_true] at hunreadable
    -- from February back to January of 1970
    have hempty := h (some (31 * 86400 * 1000000000)) (some 0) (by decide) (by decide)
    have hnone : ∀ e ∈ d.sortedFiles,
        opens (some (31 * 86400 * 1000000000)) (some 0) e.1 = false :=
      fun e _ ↦ opens_eq_false (by decide) e.1
    rw [read_some_of_datable (by decide) (by decide), read_some_of_datable (by simp) (by simp),
      read_eq_ok fun e he hopens ↦ absurd ((hnone e he).symm.trans hopens) (by decide)] at hempty
    cases hfull : d.read none none with
    | error e =>
      rw [hfull] at hempty
      cases hempty
    | ok rows => exact read_ne_ok hfile rfl hunreadable rows hfull
  have hall : ∀ e ∈ d.sortedFiles, e.2.readable = true :=
    fun e he ↦ hreadable e.1 e.2 (mem_sortedFiles.mp he)
  refine fun f file hfile ↦ ⟨hreadable f file hfile, fun r hr ↦ ?_⟩
  by_contra hmonth
  have hdatable : ∀ ts ∈ some r.ts, Datable ts := by
    rintro _ ⟨⟩
    exact datable_of_inColumn (hcolumn r ⟨f, file, hfile, hr⟩)
  have hread := h (some r.ts) (some r.ts) hdatable hdatable
  have hfull := filter_read (d := d) (some r.ts) (some r.ts) hall
  rw [read_some_of_datable hdatable hdatable, read_some_of_datable (by simp) (by simp),
    read_eq_ok fun e he _ ↦ hall e he] at hread
  cases hrows : d.read none none with
  | error e =>
    rw [hrows] at hfull
    cases hfull
  | ok rows =>
    rw [hrows] at hread hfull
    have hlength := congrArg List.length
      ((Except.ok.inj hread).trans (Except.ok.inj hfull))
    rw [List.length_insertionSort, List.length_insertionSort, rowsIn, rowsIn,
      flatMap_filter_length_eq_iff] at hlength
    have hclosed : opens (some r.ts) (some r.ts) f = false := by
      by_contra hopens
      rw [Bool.not_eq_false, opens, Option.all_some, Option.all_some, Bool.and_eq_true,
        decide_eq_true_eq, decide_eq_true_eq] at hopens
      exact hmonth (le_antisymm hopens.1 hopens.2)
    have hnil := hlength ⟨f, file⟩ (mem_sortedFiles.mpr hfile) hclosed
    refine List.filter_eq_nil_iff.mp hnil r hr ?_
    simp [inRange]

end SeriesDir

end Coinext
