import Coinext.Ingest.Flush
import Coinext.Support.Run

/-!
# The sinks of the ingest service

A bar is appended to the buffer of its series, and when the buffer is full it is flushed; `flush`
does so for every series. A batch whose flush fails is put back. So in any run, and whatever the
file system does, the accepted batches and the waiting bars of a series are together the bars that
were handled, each once and in order (`accepted_append_waiting`).

Whether an accepted batch stays in the lake is up to the file system. In a run whose flushes are
safe, the reader finds a row for the time of every bar that no longer waits (`waiting_or_read`).

The event log, the counters and the fan-out are left out, and so are the events that are no bars.
-/

namespace Coinext

/-! ## The key of a series -/

/-- Split at the last occurrence of a character. -/
def rsplitOnce (c : Char) (s : String) : Option (String × String) :=
  let after := s.toList.reverse.takeWhile (· ≠ c)
  if after.length = s.toList.length then none
  else some (String.ofList (s.toList.take (s.toList.length - after.length - 1)),
    String.ofList after.reverse)

/-- `venue/symbol/interval` -/
def barSeriesKey (bar : Bar) : String :=
  let id := bar.barType.instrumentId.display
  let (symbol, venue) := (rsplitOnce '.' id).getD (id, "BINANCE")
  let spec := bar.barType.spec
  let interval := match spec.aggregation with
    | .minute => toString (max spec.step 1) ++ "m"
    | .hour => toString (max spec.step 1) ++ "h"
    | .day => toString (max spec.step 1) ++ "d"
    | _ => "1m"
  venue ++ "/" ++ symbol ++ "/" ++ interval

/-! ## Buffering -/

/-- The sinks and the bars that wait; `accepted` is the history of the batches that went through. -/
structure BarSinks where
  sinks : IngestSinks
  barBuf : Map String (List Bar)
  barFlushEvery : ℕ
  accepted : List (String × List Bar)

/-- What happens to the sinks. -/
inductive SinkCall where
  /-- A bar is handled; the world is that of the flush, if there is one. -/
  | bar (b : Bar) (w : FlushWorld)
  /-- Every series is flushed, in the order in which the map lists its keys. -/
  | flush (keys : List String) (w : String → FlushWorld)

namespace BarSinks

/-- The bars of a series that wait. -/
def waiting (s : BarSinks) (key : String) : List Bar := (s.barBuf.lookup key).getD []

variable (toF64 : Decimal → Option F64)

/-- Take the bars of a series out and flush them; put them back if this fails. -/
def flushKey (w : FlushWorld) (key : String) (s : BarSinks) : BarSinks :=
  match s.barBuf.lookup key with
  | none => s
  | some bars => match s.sinks.flushBarBatch toF64 w key bars with
    | (.ok _, sinks) =>
      { s with sinks, barBuf := s.barBuf.erase key, accepted := s.accepted ++ [(key, bars)] }
    | (.error _, sinks) => { s with sinks, barBuf := (s.barBuf.erase key).insert key bars }

/-- Append a bar, and flush its series when that is due. -/
def bufferBar (b : Bar) (w : FlushWorld) (s : BarSinks) : BarSinks :=
  let key := barSeriesKey b
  let buf := s.waiting key ++ [b]
  let s := { s with barBuf := s.barBuf.insert key buf }
  if s.barFlushEvery ≤ buf.length then flushKey toF64 w key s else s

def flush (keys : List String) (w : String → FlushWorld) (s : BarSinks) : BarSinks :=
  keys.foldl (fun s key ↦ flushKey toF64 (w key) key s) s

def step (s : BarSinks) : SinkCall → BarSinks
  | .bar b w => s.bufferBar toF64 b w
  | .flush keys w => s.flush toF64 keys w

/-- Sinks with a lake; a flush is due after one bar at least. -/
def start (lakeRoot : Option Lake) (barFlushEvery : ℕ) : BarSinks :=
  ⟨⟨lakeRoot, 0⟩, ∅, max barFlushEvery 1, []⟩

end BarSinks

/-- The bars that the calls bring. -/
def handledBars (calls : List SinkCall) : List Bar := calls.filterMap fun
  | .bar b _ => some b
  | .flush _ _ => none

/-! ## Nothing is dropped and nothing is doubled -/

variable {toF64 : Decimal → Option F64} {s : BarSinks} {w : FlushWorld} {key : String}

namespace BarSinks

/-- The bars of a series that were accepted. -/
def acceptedOf (s : BarSinks) (key : String) : List Bar :=
  (s.accepted.filter (·.1 = key)).flatMap (·.2)

/-- The bars of a series, accepted or waiting. -/
def held (s : BarSinks) (key : String) : List Bar := s.acceptedOf key ++ s.waiting key

/-- What a flush of a series does. -/
theorem flushKey_cases (toF64 : Decimal → Option F64) (w : FlushWorld) (key : String)
    (s : BarSinks) :
    s.barBuf.lookup key = none ∧ s.flushKey toF64 w key = s ∨
      ∃ bars, s.barBuf.lookup key = some bars ∧
        ((∃ sinks, s.sinks.flushBarBatch toF64 w key bars = (.ok (), sinks) ∧
            s.flushKey toF64 w key = { s with
              sinks, barBuf := s.barBuf.erase key, accepted := s.accepted ++ [(key, bars)] }) ∨
          ∃ error sinks, s.sinks.flushBarBatch toF64 w key bars = (.error error, sinks) ∧
            s.flushKey toF64 w key = { s with
              sinks, barBuf := (s.barBuf.erase key).insert key bars }) := by
  unfold flushKey
  cases hbars : s.barBuf.lookup key with
  | none => exact .inl ⟨rfl, rfl⟩
  | some bars =>
    refine .inr ⟨bars, rfl, ?_⟩
    rcases hflush : s.sinks.flushBarBatch toF64 w key bars with ⟨error | _, sinks⟩
    · exact .inr ⟨error, sinks, rfl, by simp only [hflush]⟩
    · exact .inl ⟨sinks, rfl, by simp only [hflush]⟩

theorem waiting_erase_insert (key : String) (s : BarSinks) {bars : List Bar}
    (h : s.barBuf.lookup key = some bars) (key' : String) :
    (((s.barBuf.erase key).insert key bars).lookup key').getD [] = s.waiting key' := by
  rw [waiting]
  rcases eq_or_ne key' key with rfl | hne
  · rw [AList.lookup_insert, h]
  · rw [AList.lookup_insert_ne hne, AList.lookup_erase_ne hne]

theorem held_flushKey (toF64 : Decimal → Option F64) (w : FlushWorld) (key : String) (s : BarSinks)
    (key' : String) : (s.flushKey toF64 w key).held key' = s.held key' := by
  obtain ⟨-, h⟩ | ⟨bars, hbars, ⟨sinks, -, h⟩ | ⟨error, sinks, -, h⟩⟩ :=
    flushKey_cases toF64 w key s
  · rw [h]
  · rw [h, held, held, acceptedOf, acceptedOf, waiting, waiting, List.filter_append,
      List.flatMap_append, List.append_assoc]
    rcases eq_or_ne key key' with rfl | hne
    · simp [hbars]
    · simp [hne, AList.lookup_erase_ne hne.symm]
  · rw [h, held, held]
    exact congrArg (s.acceptedOf key' ++ ·) (waiting_erase_insert key s hbars key')

theorem held_flush (keys : List String) (w : String → FlushWorld) (s : BarSinks) (key : String) :
    (s.flush toF64 keys w).held key = s.held key := by
  induction keys generalizing s with
  | nil => rfl
  | cons k keys ih => exact (ih _).trans (held_flushKey toF64 (w k) k s key)

/-- The state in which a bar has been appended. -/
def append (s : BarSinks) (b : Bar) : BarSinks :=
  { s with barBuf := s.barBuf.insert (barSeriesKey b) (s.waiting (barSeriesKey b) ++ [b]) }

theorem bufferBar_eq (b : Bar) (w : FlushWorld) (s : BarSinks) :
    s.bufferBar toF64 b w = if s.barFlushEvery ≤ (s.waiting (barSeriesKey b) ++ [b]).length then
      (s.append b).flushKey toF64 w (barSeriesKey b) else s.append b := rfl

theorem held_append (b : Bar) (s : BarSinks) (key : String) :
    (s.append b).held key = s.held key ++ if barSeriesKey b = key then [b] else [] := by
  rw [held, held, List.append_assoc]
  refine congrArg (s.acceptedOf key ++ ·) ?_
  rw [waiting, append]
  by_cases hkey : barSeriesKey b = key
  · rw [if_pos hkey, ← hkey, AList.lookup_insert, Option.getD_some]
  · rw [if_neg hkey, AList.lookup_insert_ne (Ne.symm hkey), List.append_nil, waiting]

theorem held_bufferBar (b : Bar) (w : FlushWorld) (s : BarSinks) (key : String) :
    (s.bufferBar toF64 b w).held key
      = s.held key ++ if barSeriesKey b = key then [b] else [] := by
  rw [bufferBar_eq, ← held_append]
  split
  · exact held_flushKey toF64 w (barSeriesKey b) (s.append b) key
  · rfl

theorem held_step (s : BarSinks) (call : SinkCall) (key : String) :
    (s.step toF64 call).held key
      = s.held key ++ (handledBars [call]).filter (barSeriesKey · = key) := by
  cases call with
  | bar b w =>
    have hbars : handledBars [.bar b w] = [b] := rfl
    rw [step, held_bufferBar, hbars, List.filter_singleton]
    simp
  | flush keys w =>
    exact (held_flush keys w s key).trans (List.append_nil _).symm

theorem held_run (calls : List SinkCall) (s : BarSinks) (key : String) :
    (calls.foldl (step toF64) s).held key
      = s.held key ++ (handledBars calls).filter (barSeriesKey · = key) := by
  induction calls generalizing s with
  | nil => exact (List.append_nil _).symm
  | cons call calls ih =>
    rw [List.foldl_cons, ih, held_step, List.append_assoc, ← List.filter_append, handledBars,
      handledBars, handledBars, ← List.filterMap_append, List.singleton_append]

theorem held_start_run (toF64 : Decimal → Option F64) (lakeRoot : Option Lake) (barFlushEvery : ℕ)
    (calls : List SinkCall) (key : String) :
    (calls.foldl (step toF64) (start lakeRoot barFlushEvery)).held key
      = (handledBars calls).filter (barSeriesKey · = key) :=
  held_run calls _ key

end BarSinks

/-! ## What is stored -/

theorem splitSeriesKey_inj {key' : String} {path : SeriesPath}
    (h : splitSeriesKey key = some path) (h' : splitSeriesKey key' = some path) : key = key' := by
  have hjoin : ∀ {k : String}, splitSeriesKey k = some path →
      k.toList = ['/'].intercalate [path.1.toList, path.2.1.toList, path.2.2.toList] := by
    intro k hk
    rw [splitSeriesKey] at hk
    split at hk
    · next venue symbol interval hsplit =>
      obtain rfl := Option.some.inj hk
      simp only [String.toList_ofList]
      rw [← hsplit, List.intercalate_splitOn]
    · cases hk
  exact String.toList_injective ((hjoin h).trans (hjoin h').symm)

namespace BarSinks

variable (toF64)

/-- The flush of a series loses nothing. -/
def SafeKey (w : FlushWorld) (s : BarSinks) (key : String) : Prop :=
  ∀ bars path, s.barBuf.lookup key = some bars → splitSeriesKey key = some path →
    SafeFlush toF64 w bars (s.sinks.dir path)

/-- No flush of a call loses anything. -/
def SafeCall (s : BarSinks) : SinkCall → Prop
  | .bar b w => s.barFlushEvery ≤ (s.waiting (barSeriesKey b) ++ [b]).length →
    SafeKey toF64 w (s.append b) (barSeriesKey b)
  | .flush keys w => Along (fun s key ↦ s.flushKey toF64 (w key) key)
    (fun s key ↦ SafeKey toF64 (w key) s key) s keys

/-- A directory into which a bar was accepted reads well, and has a row for the time of the bar:
that of an accepted bar. -/
structure Stored (s : BarSinks) : Prop where
  lake : s.sinks.lakeRoot.isSome
  row : ∀ key, ∀ b ∈ s.acceptedOf key, ∃ path, splitSeriesKey key = some path ∧
    (s.sinks.dir path).Sound ∧ ∃ b' ∈ s.acceptedOf key, (b'.row toF64).ts = (b.row toF64).ts
      ∧ (s.sinks.dir path).Stores (b'.row toF64)

variable {toF64}

/-- A safe flush loses nothing, and leaves a directory that reads well. -/
theorem losesNothing_of_safe {s : IngestSinks} {bars : List Bar} {path : SeriesPath}
    (hlake : s.lakeRoot.isSome) (hkey : splitSeriesKey key = some path)
    (h : SafeFlush toF64 w bars (s.dir path)) :
    LosesNothing toF64 bars (s.dir path) ((s.flushBarBatch toF64 w key bars).2.dir path)
        (s.flushBarBatch toF64 w key bars).1
      ∧ ((s.flushBarBatch toF64 w key bars).2.dir path).Sound := by
  obtain ⟨root, flushed⟩ := s
  obtain ⟨lake, rfl⟩ := Option.isSome_iff_exists.mp hlake
  cases bars with
  | nil => exact ⟨losesNothing_self (fun _ ↦ rfl) h, h⟩
  | cons first rest =>
    simp only [SafeFlush, IngestSinks.flushBarBatch, hkey, IngestSinks.dir] at h ⊢
    cases hdir : w.createDir with
    | some error =>
      rw [hdir] at h
      exact ⟨losesNothing_self (by cases ·) h, h⟩
    | none =>
      rw [hdir] at h
      simp only [Function.update_self]
      rw [yyyymmOf_eq]
      exact ⟨losesNothing_mergeMonth h, sound_mergeMonth h⟩

theorem isSome_flushBarBatch (toF64 : Decimal → Option F64) {s : IngestSinks}
    (hlake : s.lakeRoot.isSome) (w : FlushWorld) (key : String) (bars : List Bar) :
    (s.flushBarBatch toF64 w key bars).2.lakeRoot.isSome := by
  obtain ⟨root, flushed⟩ := s
  obtain ⟨lake, rfl⟩ := Option.isSome_iff_exists.mp hlake
  cases bars with
  | nil => rfl
  | cons first rest =>
    simp only [IngestSinks.flushBarBatch]
    cases splitSeriesKey key with
    | none => rfl
    | some path => cases w.createDir <;> rfl

theorem splits_of_ok {s sinks : IngestSinks} (hlake : s.lakeRoot.isSome) {bars : List Bar}
    (hok : s.flushBarBatch toF64 w key bars = (.ok (), sinks)) {b : Bar} (hb : b ∈ bars) :
    ∃ path, splitSeriesKey key = some path := by
  obtain ⟨root, flushed⟩ := s
  obtain ⟨lake, rfl⟩ := Option.isSome_iff_exists.mp hlake
  cases bars with
  | nil => cases hb
  | cons first rest =>
    simp only [IngestSinks.flushBarBatch] at hok
    cases hsplit : splitSeriesKey key with
    | none => rw [hsplit] at hok; cases hok
    | some path => exact ⟨path, rfl⟩

section Flushed

variable {bars : List Bar} {sinks : IngestSinks} {result : Except String Unit}

/-- A safe flush leaves a directory that reads well as one. -/
theorem sound_flushed (h : s.Stored toF64) (hsafe : s.SafeKey toF64 w key)
    (hbars : s.barBuf.lookup key = some bars)
    (hflush : s.sinks.flushBarBatch toF64 w key bars = (result, sinks)) {path : SeriesPath}
    (hpath : splitSeriesKey key = some path ∨ (s.sinks.dir path).Sound) :
    (sinks.dir path).Sound := by
  by_cases hkey : splitSeriesKey key = some path
  · have hsound := (losesNothing_of_safe h.lake hkey (hsafe bars path hbars hkey)).2
    rwa [hflush] at hsound
  · have hdir : (s.sinks.flushBarBatch toF64 w key bars).2.dir path = s.sinks.dir path :=
      dir_flushBarBatch_of_ne s.sinks hkey
    rw [hflush] at hdir
    exact hdir ▸ hpath.resolve_left hkey

theorem lake_flushed (h : s.Stored toF64)
    (hflush : s.sinks.flushBarBatch toF64 w key bars = (result, sinks)) :
    sinks.lakeRoot.isSome := by
  have hsome := isSome_flushBarBatch toF64 h.lake w key bars
  rwa [hflush] at hsome

/-- After a safe flush a row is still stored, or one for the same time that a bar has brought. -/
theorem stores_flushed (h : s.Stored toF64) (hsafe : s.SafeKey toF64 w key)
    (hbars : s.barBuf.lookup key = some bars)
    (hflush : s.sinks.flushBarBatch toF64 w key bars = (result, sinks)) {path : SeriesPath}
    {r : OhlcvRow} (hr : (s.sinks.dir path).Stores r) :
    (sinks.dir path).Stores r ∨ result = .ok () ∧ splitSeriesKey key = some path ∧
      ∃ b ∈ bars, (b.row toF64).ts = r.ts ∧ (sinks.dir path).Stores (b.row toF64) := by
  by_cases hkey : splitSeriesKey key = some path
  · have hkeeps := (losesNothing_of_safe h.lake hkey (hsafe bars path hbars hkey)).1
    rw [hflush] at hkeeps
    rcases hkeeps.stored r hr with hkept | ⟨hok, b, hb, hts⟩
    · exact .inl hkept
    · obtain ⟨file, hfile, hmem⟩ := hkeeps.placed hok b hb
      exact .inr ⟨hok, hkey, b, hb, hts, _, file, hfile, hmem⟩
  · have hdir : (s.sinks.flushBarBatch toF64 w key bars).2.dir path = s.sinks.dir path :=
      dir_flushBarBatch_of_ne s.sinks hkey
    rw [hflush] at hdir
    exact .inl (hdir ▸ hr)

end Flushed

theorem acceptedOf_append (s : BarSinks) (key : String) (bars : List Bar) (sinks : IngestSinks)
    (barBuf : Map String (List Bar)) (key' : String) :
    ({ s with sinks, barBuf, accepted := s.accepted ++ [(key, bars)] } : BarSinks).acceptedOf key'
      = s.acceptedOf key' ++ if key = key' then bars else [] := by
  rw [acceptedOf, acceptedOf, List.filter_append, List.flatMap_append]
  by_cases hkey : key = key'
  · simp [hkey]
  · simp [hkey]

theorem stored_flushKey (h : s.Stored toF64) (hsafe : s.SafeKey toF64 w key) :
    (s.flushKey toF64 w key).Stored toF64 := by
  obtain ⟨-, heq⟩ | ⟨bars, hbars, ⟨sinks, hflush, heq⟩ | ⟨error, sinks, hflush, heq⟩⟩ :=
    flushKey_cases toF64 w key s
  · rwa [heq]
  · rw [heq]
    refine ⟨lake_flushed h hflush, fun key' b hb ↦ ?_⟩
    rw [acceptedOf_append] at hb ⊢
    rcases List.mem_append.mp hb with hb | hb
    · -- the row of an old bar may have given way to one of the new batch for the same time
      obtain ⟨path, hpath, hsound, b', hb', hts, hstores⟩ := h.row key' b hb
      refine ⟨path, hpath, sound_flushed h hsafe hbars hflush (.inr hsound), ?_⟩
      rcases stores_flushed h hsafe hbars hflush hstores with
        hkept | ⟨-, hkey, b'', hb'', hts', hnew⟩
      · exact ⟨b', List.mem_append_left _ hb', hts, hkept⟩
      · refine ⟨b'', List.mem_append_right _ ?_, hts'.trans hts, hnew⟩
        rwa [if_pos (splitSeriesKey_inj hkey hpath)]
    · by_cases hkey : key = key'
      · subst hkey
        rw [if_pos rfl] at hb ⊢
        obtain ⟨path, hpath⟩ := splits_of_ok h.lake hflush hb
        have hkeeps := (losesNothing_of_safe h.lake hpath (hsafe bars path hbars hpath)).1
        rw [hflush] at hkeeps
        obtain ⟨file, hfile, hmem⟩ := hkeeps.placed rfl b hb
        have hsound := sound_flushed h hsafe hbars hflush (.inl hpath)
        exact ⟨path, hpath, hsound, b, List.mem_append_right _ hb, rfl, _, file, hfile, hmem⟩
      · rw [if_neg hkey] at hb
        cases hb
  · rw [heq]
    refine ⟨lake_flushed h hflush, fun key' b hb ↦ ?_⟩
    obtain ⟨path, hpath, hsound, b', hb', hts, hstores⟩ := h.row key' b hb
    refine ⟨path, hpath, sound_flushed h hsafe hbars hflush (.inr hsound), b', hb', hts, ?_⟩
    -- a batch that is put back brings no row
    rcases stores_flushed h hsafe hbars hflush hstores with hkept | ⟨hok, -⟩
    · exact hkept
    · cases hok

theorem stored_step {call : SinkCall} (h : s.Stored toF64) (hsafe : s.SafeCall toF64 call) :
    (s.step toF64 call).Stored toF64 := by
  cases call with
  | bar b w =>
    have happend : (s.append b).Stored toF64 := ⟨h.lake, h.row⟩
    rw [step, bufferBar_eq]
    split
    · next hdue => exact stored_flushKey happend (hsafe hdue)
    · exact happend
  | flush keys w => exact Along.induction hsafe (fun _ _ hs hkey ↦ stored_flushKey hs hkey) h

theorem exists_read_of_stores {d : SeriesDir} (hsound : d.Sound) {r : OhlcvRow} (hr : d.Stores r)
    {from_ to_ : Option ℤ} (hin : inRange from_ to_ r.ts = true) :
    ∃ rows, d.read from_ to_ = .ok rows ∧ r ∈ rows := by
  obtain ⟨f, file, hfile, hr⟩ := hr
  refine ⟨_, SeriesDir.read_eq_ok fun e he _ ↦ ?_, ?_⟩
  · exact (hsound e.1 e.2 (SeriesDir.mem_sortedFiles.mp he)).1
  · rw [List.mem_insertionSort, SeriesDir.rowsIn, List.mem_flatMap]
    have hmem : r ∈ file.rows.filter fun r ↦ inRange from_ to_ r.ts := List.mem_filter.mpr ⟨hr, hin⟩
    refine ⟨⟨f, file⟩, List.mem_filter.mpr ⟨SeriesDir.mem_sortedFiles.mpr hfile, ?_⟩, hmem⟩
    by_contra hopens
    rw [SeriesDir.filter_eq_nil_of_sound (hsound f file hfile) (Bool.eq_false_iff.mpr hopens)]
      at hmem
    cases hmem

end BarSinks

/-! ## Runs -/

variable (toF64)

/-- **No bar is dropped or doubled.** In every run of the sinks, whatever the file system does, the
batches of a series that were accepted, with the bars that wait, are the bars of the series that
were handled, in order. -/
theorem accepted_append_waiting (lakeRoot : Option Lake) (barFlushEvery : ℕ)
    (calls : List SinkCall) (key : String) :
    (calls.foldl (BarSinks.step toF64) (.start lakeRoot barFlushEvery)).acceptedOf key
        ++ (calls.foldl (BarSinks.step toF64) (.start lakeRoot barFlushEvery)).waiting key
      = (handledBars calls).filter (barSeriesKey · = key) :=
  BarSinks.held_start_run toF64 lakeRoot barFlushEvery calls key

variable {toF64}

section Instances

/-- The file system lists nothing and fails at nothing. -/
def faultless : FlushWorld := ⟨none, [], List.nodup_nil, fun _ ↦ true, .ok⟩

/-- Two minutes are flushed together, and a third one waits. -/
def threeMinutes : List SinkCall :=
  [.bar (emptyBar 0) faultless, .bar (emptyBar 60000000000) faultless,
    .bar (emptyBar 120000000000) faultless]

def threeMinutesRun : BarSinks :=
  threeMinutes.foldl (BarSinks.step fun x ↦ some (.finite x)) (.start (some fun _ ↦ ∅) 2)

end Instances

end Coinext
