import Coinext.Ingest.Reader

/-!
# What a flush keeps

A flush takes the month of the first bar for the month of all. It reads the file of the month and
its parts, removes the parts, and writes the file anew; what cannot be read counts as empty, and is
overwritten or removed all the same. So it keeps what is stored, puts every bar where the reader
looks for it and leaves a lake that reads well exactly under the conditions of `SafeFlush`
(`losesNothing_iff`): the bars are of one month, the rows that are rewritten have been read, each is
the last of its time, and the write succeeds, or nothing is written and no row is only in a part.
-/

namespace Coinext

/-! ## File names -/

namespace LakeFile

theorem hyphen_notMem_toString (n : ℕ) : '-' ∉ (toString n).toList := by
  intro hmem
  rw [Nat.toString_eq_repr, Nat.toList_repr] at hmem
  exact absurd (Nat.isDigit_of_mem_toDigits (by decide) (by decide) hmem) (by decide)

theorem isPart_monthly (ym ym' : ℕ) : isPart ym (monthly ym') = false := by
  rw [Bool.eq_false_iff]
  intro h
  rw [isPart, Bool.and_eq_true, List.isPrefixOf_iff_prefix, String.toList_append] at h
  have hmem : '-' ∈ (monthly ym').name.toList :=
    h.1.subset (List.mem_append_right _ (by decide))
  rw [name, String.toList_append, List.mem_append] at hmem
  rcases hmem with hmem | hmem
  · exact hyphen_notMem_toString ym' hmem
  · exact absurd hmem (by decide)

theorem isPart_part {ym ym' : ℕ} {tag : String} : isPart ym (part ym' tag) = true ↔ ym' = ym := by
  rw [isPart, Bool.and_eq_true, List.isPrefixOf_iff_prefix, List.isSuffixOf_iff_suffix, name]
  simp only [String.toList_append]
  constructor
  · rintro ⟨⟨rest, hprefix⟩, -⟩
    have hdigits : ∀ (n : ℕ) (l : List Char),
        ((toString n).toList ++ ('-' :: l)).takeWhile (· ≠ '-') = (toString n).toList := by
      intro n l
      rw [List.takeWhile_append_of_pos]
      · simp
      · intro c hc
        have hne : c ≠ '-' := fun h ↦ hyphen_notMem_toString n (h ▸ hc)
        simpa using hne
    have htake := congrArg (List.takeWhile (· ≠ '-')) hprefix
    simp only [show "-".toList = ['-'] from rfl, List.append_assoc, List.cons_append, hdigits]
      at htake
    rw [Nat.toString_eq_repr, Nat.toString_eq_repr, Nat.toList_repr, Nat.toList_repr] at htake
    have hvalue : ∀ n, Nat.ofDigitChars 10 (Nat.toDigits 10 n) 0 = n :=
      fun n ↦ Nat.ofDigitChars_toDigits (by decide) (by decide)
    rw [← hvalue ym', ← htake, hvalue]
  · rintro rfl
    refine ⟨⟨tag.toList ++ ".parquet".toList, ?_⟩, ?_⟩
    · simp
    · exact List.suffix_append _ _

end LakeFile

/-! ## What is left -/

section Flush

variable (w : FlushWorld) (ym : ℕ)

/-- The files that a flush for a month leaves as they are. -/
def FlushWorld.Leaves (f : LakeFile) : Prop :=
  (f = .monthly ym → ∃ error, w.write = .notCreated error)
    ∧ ¬ (f ∈ w.parts ym ∧ w.removes f = true)

theorem lookup_foldl_erase (fs : List LakeFile) (d : SeriesDir) (f : LakeFile) :
    (fs.foldl (fun d f ↦ d.erase f) d : SeriesDir).lookup f
      = if f ∈ fs then none else d.lookup f := by
  induction fs generalizing d with
  | nil => rfl
  | cons g fs ih =>
    rw [List.foldl_cons, ih]
    by_cases hfs : f ∈ fs
    · rw [if_pos hfs, if_pos (List.mem_cons_of_mem g hfs)]
    · rw [if_neg hfs]
      by_cases hfg : f = g
      · rw [if_pos (hfg ▸ List.mem_cons_self), hfg, AList.lookup_erase]
      · rw [if_neg (by simp [hfg, hfs]), AList.lookup_erase_ne hfg]

namespace FlushWorld

variable {w ym} {d : SeriesDir} {f : LakeFile} {rows : List OhlcvRow}

theorem lookup_removeParts :
    (w.removeParts ym d).lookup f
      = if f ∈ w.parts ym ∧ w.removes f = true then none else d.lookup f := by
  rw [removeParts, lookup_foldl_erase]
  exact if_congr List.mem_filter rfl rfl

theorem monthly_notMem_parts (ym' : ℕ) : LakeFile.monthly ym' ∉ w.parts ym := by
  intro hmem
  exact Bool.false_ne_true ((LakeFile.isPart_monthly ym ym').symm.trans (List.mem_filter.mp hmem).2)

theorem lookup_of_removed (hpart : f ∈ w.parts ym) (hremoves : w.removes f = true) :
    (w.mergeMonth ym rows d).2.lookup f = none := by
  have hne : f ≠ .monthly ym := fun h ↦ monthly_notMem_parts ym (h ▸ hpart)
  rw [mergeMonth]
  cases w.write with
  | ok =>
    exact (AList.lookup_insert_ne hne).trans
      (lookup_removeParts.trans (if_pos ⟨hpart, hremoves⟩))
  | notCreated error => exact lookup_removeParts.trans (if_pos ⟨hpart, hremoves⟩)
  | broken error =>
    exact (AList.lookup_insert_ne hne).trans
      (lookup_removeParts.trans (if_pos ⟨hpart, hremoves⟩))

theorem lookup_of_leaves (h : w.Leaves ym f) :
    (w.mergeMonth ym rows d).2.lookup f = d.lookup f := by
  obtain ⟨hmonthly, hpart⟩ := h
  have hkept : (w.removeParts ym d).lookup f = d.lookup f := lookup_removeParts.trans (if_neg hpart)
  have hne : (¬ ∃ error, w.write = .notCreated error) → f ≠ .monthly ym :=
    fun hwrite h ↦ hwrite (hmonthly h)
  rw [mergeMonth]
  cases hwrite : w.write with
  | ok => exact (AList.lookup_insert_ne (hne (by simp [hwrite]))).trans hkept
  | notCreated error => exact hkept
  | broken error => exact (AList.lookup_insert_ne (hne (by simp [hwrite]))).trans hkept

/-- The files afterwards are those that are left and, after a write, that of the month. -/
theorem lookup_mergeMonth_iff {file : StoredFile} :
    (w.mergeMonth ym rows d).2.lookup f = some file
      ↔ w.Leaves ym f ∧ d.lookup f = some file
        ∨ f = .monthly ym ∧ (w.write = .ok ∧ file = ⟨dedupByTs (w.rowsRead ym d ++ rows), true⟩
          ∨ (∃ error, w.write = .broken error) ∧ file = ⟨[], false⟩) := by
  by_cases hleaves : w.Leaves ym f
  · rw [lookup_of_leaves hleaves]
    refine ⟨fun h ↦ .inl ⟨hleaves, h⟩, ?_⟩
    rintro (⟨-, h⟩ | ⟨hf, h⟩)
    · exact h
    · obtain ⟨error, hwrite⟩ := hleaves.1 hf
      simp [hwrite] at h
  · by_cases hpart : f ∈ w.parts ym ∧ w.removes f = true
    · have hne : f ≠ .monthly ym := fun h ↦ monthly_notMem_parts ym (h ▸ hpart.1)
      rw [lookup_of_removed hpart.1 hpart.2]
      simp [hleaves, hne]
    · have hmonthly : f = .monthly ym ∧ ¬ ∃ error, w.write = .notCreated error :=
        Classical.not_imp.mp fun h ↦ hleaves ⟨h, hpart⟩
      obtain ⟨rfl, hwrite⟩ := hmonthly
      simp only [hleaves, false_and, false_or, true_and]
      rw [mergeMonth]
      cases hout : w.write with
      | ok =>
        simp only [AList.lookup_insert, Option.some.injEq]
        constructor
        · exact fun h ↦ .inl ⟨trivial, h.symm⟩
        · rintro (⟨-, h⟩ | ⟨⟨error, h⟩, -⟩)
          · exact h.symm
          · cases h
      | notCreated error => exact absurd ⟨error, hout⟩ hwrite
      | broken error =>
        simp only [AList.lookup_insert, Option.some.injEq]
        constructor
        · exact fun h ↦ .inr ⟨⟨error, rfl⟩, h.symm⟩
        · rintro (⟨h, -⟩ | ⟨-, h⟩)
          · cases h
          · exact h.symm

end FlushWorld

theorem mem_dedupByTs {rows : List OhlcvRow} {r : OhlcvRow} :
    r ∈ dedupByTs rows ↔ lastAt OhlcvRow.ts rows r.ts = some r := by
  rw [dedupByTs, mem_keepLast, lastAt, lastAt, filter_key_insertionSort]

end Flush

/-! ## What a flush keeps -/

/-- The directory of a series. -/
def IngestSinks.dir (s : IngestSinks) (path : SeriesPath) : SeriesDir :=
  match s.lakeRoot with
  | none => ∅
  | some lake => lake path

namespace SeriesDir

/-- Some file that a flush leaves has the row. -/
def StoresAside (w : FlushWorld) (ym : ℕ) (d : SeriesDir) (r : OhlcvRow) : Prop :=
  ∃ f file, w.Leaves ym f ∧ d.lookup f = some file ∧ r ∈ file.rows

end SeriesDir

section Keeps

variable (toF64 : Decimal → Option F64)

/-- Nothing is lost or misplaced. -/
structure LosesNothing (bars : List Bar) (before after : SeriesDir) (result : Except String Unit) :
    Prop where
  /-- A row that was stored is stored, or a bar has replaced it. -/
  stored : ∀ r, before.Stores r → after.Stores r
    ∨ result = .ok () ∧ ∃ b ∈ bars, (b.row toF64).ts = r.ts
  /-- A bar is in the file of its month. -/
  placed : result = .ok () → ∀ b ∈ bars, ∃ file,
    after.lookup (.monthly (utcMonth b.tsEvent)) = some file ∧ b.row toF64 ∈ file.rows
  reads : after.ReadsRanges

variable (w : FlushWorld) (ym : ℕ) (bars : List Bar) (d : SeriesDir)

/-- The files that are left are sound. -/
def LeavesSound : Prop := ∀ f file, w.Leaves ym f → d.lookup f = some file → file.Sound f

/-- Every row that a file which is not left has, is in a file that is left or satisfies a
condition. -/
def KeepsOr (P : OhlcvRow → Prop) : Prop :=
  ∀ f file, ¬ w.Leaves ym f → d.lookup f = some file → ∀ r ∈ file.rows, d.StoresAside w ym r ∨ P r

/-- The conditions for a merge that is written. -/
structure SafeMerge : Prop where
  sound : LeavesSound w ym d
  /-- The bars are of the month, -/
  bars_month : ∀ b ∈ bars, utcMonth b.tsEvent = ym
  /-- as are all the rows that are written, -/
  rows_month : ∀ r ∈ w.rowsRead ym d ++ bars.map (Bar.row toF64), utcMonth r.ts = ym
  /-- and no two of them differ at one time. -/
  bars_agree : ∀ b ∈ bars, ∀ b' ∈ bars, (b.row toF64).ts = (b'.row toF64).ts →
    b.row toF64 = b'.row toF64
  /-- A row that is not left has been read, as the last of its time. -/
  rows_read : KeepsOr w ym d fun r ↦ (∃ b ∈ bars, (b.row toF64).ts = r.ts)
    ∨ lastAt OhlcvRow.ts (w.rowsRead ym d) r.ts = some r

/-- When a merge loses nothing. -/
def FlushWorld.SafeWrite : Prop :=
  match w.write with
  | .ok => SafeMerge toF64 w ym bars d
  | .notCreated _ => LeavesSound w ym d ∧ KeepsOr w ym d fun _ ↦ False
  | .broken _ => False

/-- When a flush loses nothing. -/
def SafeFlush : Prop :=
  match bars, w.createDir with
  | [], _ => d.Sound
  | _ :: _, some _ => d.Sound
  | first :: _, none => w.SafeWrite toF64 (utcMonth first.tsEvent) bars d

variable {toF64 w ym bars d}

/-- Where rows of one time agree, each of them is the last of its time. -/
theorem lastAt_bars_iff :
    (∀ b ∈ bars, lastAt OhlcvRow.ts (bars.map (Bar.row toF64)) (b.row toF64).ts
        = some (b.row toF64))
      ↔ ∀ b ∈ bars, ∀ b' ∈ bars, (b.row toF64).ts = (b'.row toF64).ts →
        b.row toF64 = b'.row toF64 := by
  constructor
  · intro h b hb b' hb' hts
    have hlast := h b hb
    rw [hts, h b' hb'] at hlast
    exact (Option.some.inj hlast).symm
  · intro h b hb
    obtain ⟨r, hr⟩ := exists_lastAt OhlcvRow.ts (List.mem_map_of_mem hb)
    obtain ⟨b', hb', rfl⟩ := List.mem_map.mp (mem_of_lastAt hr)
    rw [hr, h b hb b' hb' (key_of_lastAt hr).symm]

theorem lastAt_bars_eq_none {ts : ℤ} (h : ¬ ∃ b ∈ bars, (b.row toF64).ts = ts) :
    lastAt OhlcvRow.ts (bars.map (Bar.row toF64)) ts = none := by
  rw [lastAt_eq_none]
  intro r hr hts
  obtain ⟨b, hb, rfl⟩ := List.mem_map.mp hr
  exact h ⟨b, hb, hts⟩

theorem row_mem_merge_iff {b : Bar} (hb : b ∈ bars) (rows : List OhlcvRow) :
    b.row toF64 ∈ dedupByTs (rows ++ bars.map (Bar.row toF64))
      ↔ lastAt OhlcvRow.ts (bars.map (Bar.row toF64)) (b.row toF64).ts = some (b.row toF64) := by
  obtain ⟨r, hr⟩ := exists_lastAt OhlcvRow.ts (List.mem_map_of_mem hb)
  rw [mem_dedupByTs, lastAt_append, hr, Option.some_or]

theorem mem_merge_iff {r : OhlcvRow} (h : ¬ ∃ b ∈ bars, (b.row toF64).ts = r.ts)
    (rows : List OhlcvRow) :
    r ∈ dedupByTs (rows ++ bars.map (Bar.row toF64)) ↔ lastAt OhlcvRow.ts rows r.ts = some r := by
  rw [mem_dedupByTs, lastAt_append, lastAt_bars_eq_none h, Option.none_or]

theorem forall_mem_dedupByTs {rows : List OhlcvRow} {P : ℤ → Prop} :
    (∀ r ∈ dedupByTs rows, P r.ts) ↔ ∀ r ∈ rows, P r.ts := by
  constructor
  · intro h r hr
    obtain ⟨r', hr'⟩ := exists_lastAt OhlcvRow.ts hr
    have hts := key_of_lastAt hr'
    rw [← hts]
    refine h r' (mem_dedupByTs.mpr ?_)
    rw [hts]
    exact hr'
  · exact fun h r hr ↦ h r (mem_of_lastAt (mem_dedupByTs.mp hr))

/-- After a write. -/
theorem lookup_written_iff (hwrite : w.write = .ok) {rows : List OhlcvRow} {f : LakeFile}
    {file : StoredFile} :
    (w.mergeMonth ym rows d).2.lookup f = some file
      ↔ w.Leaves ym f ∧ d.lookup f = some file
        ∨ f = .monthly ym ∧ file = ⟨dedupByTs (w.rowsRead ym d ++ rows), true⟩ := by
  rw [FlushWorld.lookup_mergeMonth_iff]
  simp [hwrite]

/-- Where the file is not created, what is left is what there is. -/
theorem lookup_notCreated_iff {error : String} (hwrite : w.write = .notCreated error)
    {rows : List OhlcvRow} {f : LakeFile} {file : StoredFile} :
    (w.mergeMonth ym rows d).2.lookup f = some file
      ↔ w.Leaves ym f ∧ d.lookup f = some file := by
  rw [FlushWorld.lookup_mergeMonth_iff]
  simp [hwrite]

theorem not_leaves_monthly (hwrite : w.write = .ok) : ¬ w.Leaves ym (.monthly ym) := by
  intro h
  obtain ⟨error, hnot⟩ := h.1 rfl
  rw [hwrite] at hnot
  cases hnot

theorem inColumn_bmod (ts : ℤ) : InColumn (ts.bmod (2 ^ 64)) := by
  have hlow := Int.le_bmod (x := ts) (m := 2 ^ 64) (by decide)
  have hhigh := Int.bmod_lt (x := ts) (m := 2 ^ 64) (by decide)
  generalize ts.bmod (2 ^ 64) = stored at *
  unfold InColumn i64Min i64Max
  omega

theorem ts_row (toF64 : Decimal → Option F64) (b : Bar) :
    (b.row toF64).ts = (b.tsEvent : ℤ).bmod (2 ^ 64) := by
  unfold Bar.row
  dsimp only

theorem inColumn_row (toF64 : Decimal → Option F64) (b : Bar) : InColumn (b.row toF64).ts := by
  rw [ts_row]
  exact inColumn_bmod _

theorem stores_of_mem_rowsRead {r : OhlcvRow} (hr : r ∈ w.rowsRead ym d) : d.Stores r := by
  have hread (f : LakeFile) (hmem : r ∈ (d.readOhlcv f).getD []) : d.Stores r := by
    unfold SeriesDir.readOhlcv at hmem
    cases hfile : d.lookup f with
    | none => simp [hfile] at hmem
    | some file =>
      rw [hfile] at hmem
      simp only at hmem
      split_ifs at hmem
      · exact ⟨f, file, hfile, hmem⟩
      · cases hmem
  rcases List.mem_append.mp hr with hmonthly | hpart
  · exact hread _ hmonthly
  · obtain ⟨f, -, hmem⟩ := List.mem_flatMap.mp hpart
    exact hread f hmem

theorem inColumn_mergeMonth (hcolumn : ∀ r, d.Stores r → InColumn r.ts) (r : OhlcvRow)
    (hr : (w.mergeMonth ym (bars.map (Bar.row toF64)) d).2.Stores r) : InColumn r.ts := by
  obtain ⟨f, file, hfile, hr⟩ := hr
  rcases FlushWorld.lookup_mergeMonth_iff.mp hfile with ⟨-, hfile⟩ | ⟨-, ⟨-, rfl⟩ | ⟨-, rfl⟩⟩
  · exact hcolumn r ⟨f, file, hfile, hr⟩
  · rcases List.mem_append.mp (mem_of_lastAt (mem_dedupByTs.mp hr)) with hread | hbar
    · exact hcolumn r (stores_of_mem_rowsRead hread)
    · obtain ⟨b, -, rfl⟩ := List.mem_map.mp hbar
      exact inColumn_row toF64 b
  · cases hr

theorem safeMerge_of_losesNothing (hcolumn : ∀ r, d.Stores r → InColumn r.ts)
    (hwrite : w.write = .ok)
    (h : LosesNothing toF64 bars d (w.mergeMonth ym (bars.map (Bar.row toF64)) d).2 (.ok ())) :
    SafeMerge toF64 w ym bars d := by
  obtain ⟨hstored, hplaced, hreads⟩ := h
  rw [SeriesDir.readsRanges_iff (inColumn_mergeMonth hcolumn)] at hreads
  have hmonthly : ∀ r ∈ dedupByTs (w.rowsRead ym d ++ bars.map (Bar.row toF64)),
      utcMonth r.ts = ym :=
    (hreads (.monthly ym) _ ((lookup_written_iff hwrite).mpr (.inr ⟨rfl, rfl⟩))).2
  have hrows := (forall_mem_dedupByTs (P := fun ts ↦ utcMonth ts = ym)).mp hmonthly
  have hrowMonth : ∀ b ∈ bars, utcMonth (b.row toF64).ts = ym :=
    fun b hb ↦ hrows _ (List.mem_append_right _ (List.mem_map_of_mem hb))
  have hbars : ∀ b ∈ bars, utcMonth b.tsEvent = ym := by
    intro b hb
    obtain ⟨file, hfile, hmem⟩ := hplaced rfl b hb
    -- the file of another month is sound, and has no row of this one
    have hmonth := (hreads _ _ hfile).2 _ hmem
    rw [LakeFile.month, hrowMonth b hb] at hmonth
    exact hmonth.symm
  refine ⟨fun f file hleaves hfile ↦ ?_, hbars, hrows, lastAt_bars_iff.mp fun b hb ↦ ?_, ?_⟩
  · exact hreads f file ((lookup_written_iff hwrite).mpr (.inl ⟨hleaves, hfile⟩))
  · obtain ⟨file, hfile, hmem⟩ := hplaced rfl b hb
    rw [hbars b hb] at hfile
    rcases (lookup_written_iff hwrite).mp hfile with ⟨hleaves, -⟩ | ⟨-, rfl⟩
    · exact absurd hleaves (not_leaves_monthly hwrite)
    · exact (row_mem_merge_iff hb _).mp hmem
  · intro f file _ hfile r hr
    by_cases hbar : ∃ b ∈ bars, (b.row toF64).ts = r.ts
    · exact .inr (.inl hbar)
    · rcases hstored r ⟨f, file, hfile, hr⟩ with ⟨g, file', hfile', hr'⟩ | ⟨-, h⟩
      · rcases (lookup_written_iff hwrite).mp hfile' with ⟨hleaves, hfile'⟩ | ⟨-, rfl⟩
        · exact .inl ⟨g, file', hleaves, hfile', hr'⟩
        · exact .inr (.inr ((mem_merge_iff hbar _).mp hr'))
      · exact absurd h hbar

theorem sound_mergeMonth (h : w.SafeWrite toF64 ym bars d) :
    (w.mergeMonth ym (bars.map (Bar.row toF64)) d).2.Sound := by
  intro f file hfile
  rw [FlushWorld.SafeWrite] at h
  cases hwrite : w.write with
  | ok =>
    rw [hwrite] at h
    rcases (lookup_written_iff hwrite).mp hfile with ⟨hleaves, hfile⟩ | ⟨rfl, rfl⟩
    · exact h.sound f file hleaves hfile
    · exact ⟨rfl, (forall_mem_dedupByTs (P := fun ts ↦ utcMonth ts = ym)).mpr h.rows_month⟩
  | notCreated error =>
    rw [hwrite] at h
    obtain ⟨hleaves, hfile⟩ := (lookup_notCreated_iff hwrite).mp hfile
    exact h.1 f file hleaves hfile
  | broken error =>
    rw [hwrite] at h
    exact h.elim

theorem losesNothing_of_safeMerge (hwrite : w.write = .ok) (h : SafeMerge toF64 w ym bars d) :
    LosesNothing toF64 bars d (w.mergeMonth ym (bars.map (Bar.row toF64)) d).2 (.ok ()) := by
  have hsafe : w.SafeWrite toF64 ym bars d := by rwa [FlushWorld.SafeWrite, hwrite]
  have hmerged : (w.mergeMonth ym (bars.map (Bar.row toF64)) d).2.lookup (.monthly ym)
      = some ⟨dedupByTs (w.rowsRead ym d ++ bars.map (Bar.row toF64)), true⟩ :=
    (lookup_written_iff hwrite).mpr (.inr ⟨rfl, rfl⟩)
  refine ⟨?_, fun _ b hb ↦ ?_, (sound_mergeMonth hsafe).readsRanges⟩
  · rintro r ⟨f, file, hfile, hr⟩
    by_cases hbar : ∃ b ∈ bars, (b.row toF64).ts = r.ts
    · exact .inr ⟨rfl, hbar⟩
    · refine .inl ?_
      by_cases hleaves : w.Leaves ym f
      · exact ⟨f, file, (lookup_written_iff hwrite).mpr (.inl ⟨hleaves, hfile⟩), hr⟩
      · rcases h.rows_read f file hleaves hfile r hr with ⟨g, file', hleaves', hfile', hr'⟩ | h | h
        · exact ⟨g, file', (lookup_written_iff hwrite).mpr (.inl ⟨hleaves', hfile'⟩), hr'⟩
        · exact absurd h hbar
        · exact ⟨_, _, hmerged, (mem_merge_iff hbar _).mpr h⟩
  · rw [h.bars_month b hb]
    exact ⟨_, hmerged, (row_mem_merge_iff hb _).mpr (lastAt_bars_iff.mpr h.bars_agree b hb)⟩

theorem losesNothing_of_notCreated {error : String} (hwrite : w.write = .notCreated error)
    (h : LeavesSound w ym d ∧ KeepsOr w ym d fun _ ↦ False) :
    LosesNothing toF64 bars d (w.mergeMonth ym (bars.map (Bar.row toF64)) d).2
      (.error error) := by
  have hsafe : w.SafeWrite toF64 ym bars d := by rwa [FlushWorld.SafeWrite, hwrite]
  refine ⟨?_, (by cases ·), (sound_mergeMonth hsafe).readsRanges⟩
  rintro r ⟨f, file, hfile, hr⟩
  refine .inl ?_
  by_cases hleaves : w.Leaves ym f
  · exact ⟨f, file, (lookup_notCreated_iff hwrite).mpr ⟨hleaves, hfile⟩, hr⟩
  · rcases h.2 f file hleaves hfile r hr with ⟨g, file', hleaves', hfile', hr'⟩ | h
    · exact ⟨g, file', (lookup_notCreated_iff hwrite).mpr ⟨hleaves', hfile'⟩, hr'⟩
    · exact h.elim

theorem result_mergeMonth (rows : List OhlcvRow) :
    (w.mergeMonth ym rows d).1 = match w.write with
      | .ok => .ok ()
      | .notCreated error => .error error
      | .broken error => .error error := by
  rw [FlushWorld.mergeMonth]
  cases w.write <;> rfl

theorem losesNothing_mergeMonth (h : w.SafeWrite toF64 ym bars d) :
    LosesNothing toF64 bars d (w.mergeMonth ym (bars.map (Bar.row toF64)) d).2
      (w.mergeMonth ym (bars.map (Bar.row toF64)) d).1 := by
  rw [FlushWorld.SafeWrite] at h
  rw [result_mergeMonth]
  cases hwrite : w.write with
  | ok => exact losesNothing_of_safeMerge hwrite (by rwa [hwrite] at h)
  | notCreated error => exact losesNothing_of_notCreated hwrite (by rwa [hwrite] at h)
  | broken error =>
    rw [hwrite] at h
    exact h.elim

/-- The merge of a month loses nothing exactly under its conditions. -/
theorem losesNothing_mergeMonth_iff (hcolumn : ∀ r, d.Stores r → InColumn r.ts) :
    LosesNothing toF64 bars d (w.mergeMonth ym (bars.map (Bar.row toF64)) d).2
        (w.mergeMonth ym (bars.map (Bar.row toF64)) d).1
      ↔ w.SafeWrite toF64 ym bars d := by
  refine ⟨fun h ↦ ?_, losesNothing_mergeMonth⟩
  have hsound := (SeriesDir.readsRanges_iff (inColumn_mergeMonth hcolumn)).mp h.reads
  rw [result_mergeMonth] at h
  rw [FlushWorld.SafeWrite]
  cases hwrite : w.write with
  | ok => exact safeMerge_of_losesNothing hcolumn hwrite (by rwa [hwrite] at h)
  | notCreated error =>
    refine ⟨fun f file hleaves hfile ↦ ?_, fun f file _ hfile r hr ↦ .inl ?_⟩
    · exact hsound f file ((lookup_notCreated_iff hwrite).mpr ⟨hleaves, hfile⟩)
    · rcases h.stored r ⟨f, file, hfile, hr⟩ with ⟨g, file', hfile', hr'⟩ | ⟨hok, -⟩
      · obtain ⟨hleaves, hfile'⟩ := (lookup_notCreated_iff hwrite).mp hfile'
        exact ⟨g, file', hleaves, hfile', hr'⟩
      · rw [hwrite] at hok
        cases hok
  | broken error =>
    -- the file of the month has been emptied, and cannot be read
    have hbroken := hsound (.monthly ym) ⟨[], false⟩
      (FlushWorld.lookup_mergeMonth_iff.mpr (.inr ⟨rfl, .inr ⟨⟨error, hwrite⟩, rfl⟩⟩))
    exact absurd hbroken.1 (by decide)

theorem losesNothing_self {result : Except String Unit} (hresult : result = .ok () → bars = [])
    (h : d.Sound) : LosesNothing toF64 bars d d result := by
  refine ⟨fun r hr ↦ .inl hr, fun hok b hb ↦ ?_, h.readsRanges⟩
  rw [hresult hok] at hb
  exact absurd hb List.not_mem_nil

/-- **What a flush keeps.** Flushing a batch loses nothing, puts every bar into the file of its
month and leaves a lake in which every range is read if and only if it is a safe one. -/
theorem losesNothing_iff (lake : Lake) (flushed : ℕ) {seriesKey : String} {path : SeriesPath}
    (hkey : splitSeriesKey seriesKey = some path)
    (hcolumn : ∀ r, (lake path).Stores r → InColumn r.ts) :
    LosesNothing toF64 bars (lake path)
        ((IngestSinks.flushBarBatch toF64 ⟨some lake, flushed⟩ w seriesKey bars).2.dir path)
        (IngestSinks.flushBarBatch toF64 ⟨some lake, flushed⟩ w seriesKey bars).1
      ↔ SafeFlush toF64 w bars (lake path) := by
  have hself {result : Except String Unit} (hresult : result = .ok () → bars = []) :
      LosesNothing toF64 bars (lake path) (lake path) result ↔ (lake path).Sound :=
    ⟨fun h ↦ (SeriesDir.readsRanges_iff hcolumn).mp h.reads, losesNothing_self hresult⟩
  cases bars with
  | nil => exact hself fun _ ↦ rfl
  | cons first rest =>
    simp only [SafeFlush, IngestSinks.flushBarBatch, hkey, IngestSinks.dir]
    cases w.createDir with
    | some error => exact hself (by cases ·)
    | none =>
      simp only [Function.update_self]
      rw [yyyymmOf_eq]
      exact losesNothing_mergeMonth_iff hcolumn

theorem dir_flushBarBatch_of_ne (s : IngestSinks) {seriesKey : String} {path : SeriesPath}
    (hkey : splitSeriesKey seriesKey ≠ some path) :
    (s.flushBarBatch toF64 w seriesKey bars).2.dir path = s.dir path := by
  cases bars with
  | nil => rfl
  | cons first rest =>
    obtain ⟨root, flushed⟩ := s
    cases root with
    | none => rfl
    | some lake =>
      simp only [IngestSinks.flushBarBatch, IngestSinks.dir]
      cases hsplit : splitSeriesKey seriesKey with
      | none => rfl
      | some other =>
        have hne : path ≠ other := fun h ↦ hkey (h ▸ hsplit)
        cases w.createDir with
        | some error => rfl
        | none => exact Function.update_of_ne hne _ _

end Keeps

/-! ## Two months -/

section Instances

/-- A bar of nothing, that closes at a time. -/
def emptyBar (ts : UnixNanos) : Bar where
  barType := ⟨⟨⟨"BTCUSDT"⟩, ⟨"BINANCE"⟩⟩, ⟨1, .minute, .last⟩, .external⟩
  open_ := ⟨0, 0⟩
  high := ⟨0, 0⟩
  low := ⟨0, 0⟩
  close := ⟨0, 0⟩
  volume := ⟨0, 0⟩
  tsEvent := ts
  tsInit := ts

/-- Flush empty bars into an empty lake; the file system lists nothing and fails at nothing. -/
def flushEmptyBars (times : List UnixNanos) : Except String Unit × IngestSinks :=
  IngestSinks.flushBarBatch (fun x ↦ some (.finite x)) ⟨some fun _ ↦ ∅, 0⟩
    ⟨none, [], List.nodup_nil, fun _ ↦ true, .ok⟩ "BINANCE/BTCUSDT/1m" (times.map emptyBar)

theorem losesNothing_one_bar :
    splitSeriesKey "BINANCE/BTCUSDT/1m" = some ("BINANCE", "BTCUSDT", "1m")
      ∧ LosesNothing (fun x ↦ some (.finite x)) [emptyBar 0] ∅
        ((flushEmptyBars [0]).2.dir ("BINANCE", "BTCUSDT", "1m")) (flushEmptyBars [0]).1 := by
  have hkey : splitSeriesKey "BINANCE/BTCUSDT/1m" = some ("BINANCE", "BTCUSDT", "1m") := by
    decide
  have hcolumn : ∀ r, (∅ : SeriesDir).Stores r → InColumn r.ts := by
    rintro r ⟨f, file, hfile, -⟩
    cases hfile
  refine ⟨hkey, (losesNothing_iff (fun _ ↦ ∅) 0 hkey hcolumn).mpr ⟨?_, ?_, ?_, ?_, ?_⟩⟩
  · exact fun f file _ hfile ↦ nomatch hfile
  · exact List.forall_mem_singleton.mpr rfl
  · exact List.forall_mem_singleton.mpr (by decide)
  · intro b hb b' hb' _
    rw [List.mem_singleton.mp hb, List.mem_singleton.mp hb']
  · exact fun f file _ hfile ↦ nomatch hfile

/-- The bar of February that follows one of January is not in the file of February. -/
theorem not_losesNothing_two_months :
    ¬ LosesNothing (fun x ↦ some (.finite x)) [emptyBar 0, emptyBar (31 * 86400 * 1000000000)] ∅
      ((flushEmptyBars [0, 31 * 86400 * 1000000000]).2.dir ("BINANCE", "BTCUSDT", "1m"))
      (flushEmptyBars [0, 31 * 86400 * 1000000000]).1 := by
  have hok : (flushEmptyBars [0, 31 * 86400 * 1000000000]).1 = .ok () := by decide
  have hmissing : ((flushEmptyBars [0, 31 * 86400 * 1000000000]).2.dir
      ("BINANCE", "BTCUSDT", "1m")).lookup (.monthly (utcMonth (31 * 86400 * 1000000000)))
        |>.isNone := by
    decide
  intro h
  obtain ⟨file, hfile, -⟩ := h.placed hok _ (List.mem_cons_of_mem _ List.mem_cons_self)
  exact Option.not_isSome_iff_eq_none.mpr (Option.isNone_iff_eq_none.mp hmissing)
    (Option.isSome_of_eq_some hfile)

end Instances

end Coinext
