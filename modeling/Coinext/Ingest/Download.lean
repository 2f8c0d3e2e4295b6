import Coinext.Ingest.BarStore
import Coinext.Ingest.TradeBars

/-!
# Downloading klines

`downloadKlines` pages through the klines of a venue. A request is answered with the first thousand
klines of a range, and the next one begins after the last of them; a short page is the last. What is
downloaded are the first klines of the range, a thousand for each request that may be made
(`downloadKlines_eq`).

The rows of a download are written into the lake. However the ranges of the downloads overlap, and
in whatever order they are made, the lake has each of the klines once (`read_downloads`).
-/

namespace Coinext

/-! ## Pages -/

/-- A kline as the venue sends it. Of its twelve fields these are read. -/
structure Kline where
  openTime : ℤ
  open_ : F64
  high : F64
  low : F64
  close : F64
  volume : F64
  closeTime : ℤ
deriving DecidableEq

/-- The row of a kline is that of its close time. -/
def Kline.row (k : Kline) : OhlcvRow :=
  ⟨k.closeTime * nsPerMs, k.open_, k.high, k.low, k.close, k.volume⟩

/-- How many klines a request asks for. -/
def pageLimit : ℕ := 1000

section Download

-- the page that a request from one time to another is answered with
variable (fetchPage : ℤ → ℤ → List Kline)

/-- Page through a range, up to a number of requests. -/
def downloadPages (step stop : ℤ) : ℕ → ℤ → Map ℤ OhlcvRow → Map ℤ OhlcvRow
  | 0, _, byTs => byTs
  | requests + 1, cursor, byTs =>
    if stop < cursor then byTs
    else
      let page := fetchPage cursor stop
      match page.getLast? with
      | none => byTs
      | some last =>
        let byTs := page.foldl (fun byTs k ↦ byTs.insert k.row.ts k.row) byTs
        let nextCursor := last.openTime + step
        if page.length < pageLimit ∨ nextCursor ≤ cursor then byTs
        else downloadPages step stop requests nextCursor byTs

/-- The rows of a range of times in milliseconds. -/
def downloadKlines (interval : String) (startMs endMs : ℤ) (maxRequests : ℕ) :
    Except TradeBarError (List OhlcvRow) := do
  let step ← intervalToMs interval
  return orderedRows (downloadPages fetchPage step endMs maxRequests startMs ∅)

end Download

/-! ## The venue -/

/-- The klines that open in a range. -/
def between (klines : List Kline) (start stop : ℤ) : List Kline :=
  klines.filter fun k ↦ start ≤ k.openTime ∧ k.openTime ≤ stop

/-- The venue has these klines, and answers with the first ones of a range. -/
def Serves (fetchPage : ℤ → ℤ → List Kline) (klines : List Kline) : Prop :=
  ∀ start stop, fetchPage start stop = (between klines start stop).take pageLimit

/-- Each kline opens a step after the one before it, or later, and closes after it. -/
structure Spaced (step : ℤ) (klines : List Kline) : Prop where
  opens : klines.Pairwise fun k k' ↦ k.openTime + step ≤ k'.openTime
  closes : klines.Pairwise fun k k' ↦ k.closeTime < k'.closeTime

variable {fetchPage : ℤ → ℤ → List Kline} {klines : List Kline} {step start stop cursor : ℤ}

theorem mem_between {k : Kline} :
    k ∈ between klines start stop ↔ k ∈ klines ∧ start ≤ k.openTime ∧ k.openTime ≤ stop := by
  rw [between, List.mem_filter, decide_eq_true_iff]

theorem between_eq_nil (h : stop < start) : between klines start stop = [] := by
  rw [between, List.filter_eq_nil_iff]
  intro k _
  simp only [decide_eq_true_eq]
  omega

theorem between_after_page (hstep : 0 < step) (hspaced : Spaced step klines)
    {page rest : List Kline} {last : Kline} (hsplit : between klines cursor stop = page ++ rest)
    (hlast : page.getLast? = some last) : between klines (last.openTime + step) stop = rest := by
  obtain ⟨front, rfl⟩ := List.getLast?_eq_some_iff.mp hlast
  have hpairs : (front ++ [last] ++ rest).Pairwise fun k k' ↦ k.openTime + step ≤ k'.openTime := by
    rw [← hsplit]
    exact hspaced.opens.filter _
  obtain ⟨hpage, -, hafter⟩ := List.pairwise_append.mp hpairs
  have hcursor : cursor ≤ last.openTime := by
    have hmem : last ∈ between klines cursor stop := by
      rw [hsplit]
      simp
    exact (mem_between.mp hmem).2.1
  have hagain : between klines (last.openTime + step) stop
      = (between klines cursor stop).filter fun k ↦ last.openTime + step ≤ k.openTime := by
    rw [between, between, List.filter_filter]
    refine List.filter_congr fun k _ ↦ ?_
    rw [← Bool.decide_and, decide_eq_decide]
    omega
  have hbefore : ∀ k ∈ front ++ [last], ¬ last.openTime + step ≤ k.openTime := by
    intro k hk
    rcases List.mem_append.mp hk with hk | hk
    · have hle := (List.pairwise_append.mp hpage).2.2 k hk last List.mem_cons_self
      omega
    · rw [List.mem_singleton.mp hk]
      omega
  rw [hagain, hsplit, List.filter_append, List.filter_eq_nil_iff.mpr, List.nil_append,
    List.filter_eq_self]
  · intro k hk
    exact decide_eq_true (hafter last (List.mem_append_right _ List.mem_cons_self) k hk)
  · intro k hk
    rw [decide_eq_true_eq]
    exact hbefore k hk

/-! ## What is downloaded -/

theorem mergeRows_append (rows rows' : List OhlcvRow) :
    mergeRows (rows ++ rows')
      = rows'.foldl (fun merged r ↦ merged.insert r.ts r) (mergeRows rows) :=
  List.foldl_append

/-- The pages of a range are its first klines. -/
theorem downloadPages_eq (hserves : Serves fetchPage klines) (hspaced : Spaced step klines)
    (hstep : 0 < step) (requests : ℕ) (cursor : ℤ) (rows : List OhlcvRow) :
    downloadPages fetchPage step stop requests cursor (mergeRows rows)
      = mergeRows (rows ++
          ((between klines cursor stop).take (pageLimit * requests)).map Kline.row) := by
  induction requests generalizing cursor rows with
  | zero => simp [downloadPages]
  | succ requests ih =>
    rw [downloadPages]
    by_cases hstop : stop < cursor
    · rw [if_pos hstop, between_eq_nil hstop]
      simp
    rw [if_neg hstop]
    simp only [hserves cursor stop]
    have hpage : (between klines cursor stop).take pageLimit
        ++ (between klines cursor stop).drop pageLimit = between klines cursor stop :=
      List.take_append_drop ..
    cases hlast : ((between klines cursor stop).take pageLimit).getLast? with
    | none =>
      -- an empty page
      have hnil := List.getLast?_eq_none_iff.mp hlast
      have hempty : between klines cursor stop = [] := by
        rcases List.take_eq_nil_iff.mp hnil with h | h
        · cases h
        · exact h
      simp [hempty]
    | some last =>
      have hmem : last ∈ between klines cursor stop :=
        List.mem_of_mem_take (List.mem_of_getLast? hlast)
      have hcursor : ¬ last.openTime + step ≤ cursor := by
        have hle := (mem_between.mp hmem).2.1
        omega
      have hrows : ((between klines cursor stop).take pageLimit).foldl
          (fun byTs k ↦ byTs.insert k.row.ts k.row) (mergeRows rows)
          = mergeRows (rows ++ ((between klines cursor stop).take pageLimit).map Kline.row) := by
        rw [mergeRows_append, List.foldl_map]
      simp only [hrows]
      by_cases hshort : ((between klines cursor stop).take pageLimit).length < pageLimit
      · -- the last page
        have hlen : (between klines cursor stop).length < pageLimit := by
          rw [List.length_take] at hshort
          omega
        have hall : pageLimit ≤ pageLimit * (requests + 1) := Nat.le_mul_of_pos_right _ (by omega)
        rw [if_pos (.inl hshort), List.take_of_length_le hlen.le,
          List.take_of_length_le (hlen.le.trans hall)]
      · rw [if_neg (not_or.mpr ⟨hshort, hcursor⟩), ih,
          between_after_page hstep hspaced hpage.symm hlast, Nat.mul_succ, Nat.add_comm,
          List.take_add, List.map_append, List.append_assoc]

/-- The klines that a download of a range gets. -/
def downloaded (klines : List Kline) (maxRequests : ℕ) (range : ℤ × ℤ) : List Kline :=
  (between klines range.1 range.2).take (pageLimit * maxRequests)

theorem mem_of_mem_downloaded {k : Kline} {maxRequests : ℕ} {range : ℤ × ℤ}
    (h : k ∈ downloaded klines maxRequests range) : k ∈ klines :=
  (mem_between.mp (List.mem_of_mem_take h)).1

theorem pairwise_row (hspaced : Spaced step klines) :
    (klines.map Kline.row).Pairwise fun r r' ↦ r.ts < r'.ts := by
  rw [List.pairwise_map]
  exact hspaced.closes.imp fun h ↦ Int.mul_lt_mul_of_pos_right h (by decide)

theorem eq_of_row_ts (hspaced : Spaced step klines) {k k' : Kline} (hk : k ∈ klines)
    (hk' : k' ∈ klines) (h : k.row.ts = k'.row.ts) : k = k' := by
  have hnodup : (klines.map fun k ↦ k.row.ts).Nodup := by
    rw [List.Nodup, List.pairwise_map]
    exact (List.pairwise_map.mp (pairwise_row hspaced)).imp fun h ↦ ne_of_lt h
  exact List.inj_on_of_nodup_map hnodup hk hk' h

/-- Rows of klines, each as often as it may be and in any order, are merged into those of the
klines they are from. -/
theorem keepLast_rows (hspaced : Spaced step klines) {got : List Kline} (hgot : got.Sublist klines)
    {rows : List OhlcvRow} (hrows : ∀ r, r ∈ rows ↔ r ∈ got.map Kline.row) :
    keepLast OhlcvRow.ts rows = got.map Kline.row := by
  refine eq_of_pairwise_key_lt (pairwise_keepLast rows)
    ((pairwise_row hspaced).sublist (hgot.map _)) fun r ↦ ?_
  rw [mem_keepLast, ← hrows r]
  refine ⟨mem_of_lastAt, fun hr ↦ ?_⟩
  obtain ⟨r', hr'⟩ := exists_lastAt OhlcvRow.ts hr
  obtain ⟨k, hk, rfl⟩ := List.mem_map.mp ((hrows r).mp hr)
  obtain ⟨k', hk', rfl⟩ := List.mem_map.mp ((hrows r').mp (mem_of_lastAt hr'))
  rw [hr', eq_of_row_ts hspaced (hgot.subset hk') (hgot.subset hk) (key_of_lastAt hr')]

variable {interval : String}

/-- A download gives the rows of the klines it gets. -/
theorem downloadKlines_eq (hstep : intervalToMs interval = .ok step)
    (hserves : Serves fetchPage klines) (hspaced : Spaced step klines) (startMs endMs : ℤ)
    (maxRequests : ℕ) :
    downloadKlines fetchPage interval startMs endMs maxRequests
      = .ok ((downloaded klines maxRequests (startMs, endMs)).map Kline.row) := by
  have hpages : downloadPages fetchPage step endMs maxRequests startMs (mergeRows [])
      = mergeRows ([] ++ (downloaded klines maxRequests (startMs, endMs)).map Kline.row) :=
    downloadPages_eq hserves hspaced (intervalToMs_pos hstep) maxRequests startMs []
  have hgot : (downloaded klines maxRequests (startMs, endMs)).Sublist klines :=
    (List.take_sublist ..).trans List.filter_sublist
  rw [downloadKlines, hstep]
  change Except.ok (orderedRows (downloadPages fetchPage step endMs maxRequests startMs
    (mergeRows []))) = _
  rw [hpages, List.nil_append, orderedRows_mergeRows]
  exact congrArg Except.ok (keepLast_rows hspaced hgot fun r ↦ Iff.rfl)

/-- **Downloads in the lake.** Ranges are downloaded into a directory without files, whichever they
are and in any order. Reading then gives, of the klines that some download has got, those of the
times asked for, in their order and each once. -/
theorem read_downloads {dir : Option SeriesDir} (hempty : dir.getD ∅ = ∅)
    (hstep : intervalToMs interval = .ok step) (hserves : Serves fetchPage klines)
    (hspaced : Spaced step klines) (hcolumn : ∀ k ∈ klines, InColumn k.row.ts)
    (ranges : List (ℤ × ℤ)) (maxRequests : ℕ) :
    ∃ batches dir',
      (ranges.mapM fun range ↦ downloadKlines fetchPage interval range.1 range.2 maxRequests)
          = .ok batches ∧
        writeAll dir batches = .ok dir' ∧
        ∀ start stop, (∀ ts ∈ start, Datable ts) → (∀ ts ∈ stop, Datable ts) →
          DataLake.read dir' start stop = .ok ((klines.filter fun k ↦
            (∃ range ∈ ranges, k ∈ downloaded klines maxRequests range)
              ∧ inRange start stop k.row.ts = true).map Kline.row) := by
  have hbatches : ∀ rows ∈ ranges.map fun range ↦
      (downloaded klines maxRequests range).map Kline.row, ∀ r ∈ rows, InColumn r.ts := by
    intro rows hrows r hr
    obtain ⟨range, -, rfl⟩ := List.mem_map.mp hrows
    obtain ⟨k, hk, rfl⟩ := List.mem_map.mp hr
    exact hcolumn k (mem_of_mem_downloaded hk)
  have hinit : Holds dir [] := by
    intro f
    rw [hempty]
    cases f <;> rfl
  obtain ⟨dir', hall, hholds⟩ :=
    writeAll_of_holds hbatches (fun _ hr ↦ absurd hr List.not_mem_nil) hinit
  refine ⟨_, dir', ?_, hall, fun start stop hstart hstop ↦ ?_⟩
  · rw [Except.mapM_eq_ok_iff, List.forall₂_map_right_iff, List.forall₂_same]
    exact fun range _ ↦ downloadKlines_eq hstep hserves hspaced range.1 range.2 maxRequests
  · have hgot : keepLast OhlcvRow.ts
        (ranges.map fun range ↦ (downloaded klines maxRequests range).map Kline.row).flatten
        = (klines.filter fun k ↦ ∃ range ∈ ranges, k ∈ downloaded klines maxRequests range).map
          Kline.row := by
      refine keepLast_rows hspaced List.filter_sublist fun r ↦ ?_
      simp only [List.mem_flatten, List.mem_map, List.mem_filter, decide_eq_true_eq]
      constructor
      · rintro ⟨_, ⟨range, hrange, rfl⟩, hr⟩
        obtain ⟨k, hk, rfl⟩ := List.mem_map.mp hr
        exact ⟨k, ⟨mem_of_mem_downloaded hk, range, hrange, hk⟩, rfl⟩
      · rintro ⟨k, ⟨-, range, hrange, hk⟩, rfl⟩
        exact ⟨_, ⟨range, hrange, rfl⟩, List.mem_map_of_mem hk⟩
    rw [DataLake.read_of_holds hholds hstart hstop, List.nil_append, hgot, List.filter_map,
      List.filter_filter]
    refine congrArg (fun l ↦ Except.ok (l.map Kline.row)) (List.filter_congr fun k _ ↦ ?_)
    rw [Bool.decide_and, Bool.and_comm]
    simp

/-! ## Two downloads -/

section Instances

/-- A kline of one minute. -/
def minuteKline (minute : ℤ) : Kline :=
  ⟨minute * 60000, .finite 1, .finite 2, .finite 1, .finite 2, .finite 3, minute * 60000 + 59999⟩

/-- The second minute is missing. -/
def minuteKlines : List Kline := [0, 1, 3, 4].map minuteKline

/-- The last two klines are downloaded first, then the first three; the one of minute three is
downloaded twice. -/
theorem read_downloads_minutes :
    ∃ batches dir', ([(120000, 240000), (0, 180000)].mapM fun range : ℤ × ℤ ↦ downloadKlines
        (fun start stop ↦ (between minuteKlines start stop).take pageLimit) "1m" range.1 range.2
          100000) = .ok batches ∧
      writeAll none batches = .ok dir' ∧
      DataLake.read dir' (some 60000000000) none
        = .ok ([minuteKline 1, minuteKline 3, minuteKline 4].map Kline.row) := by
  have hspaced : Spaced 60000 minuteKlines := ⟨by decide, by decide⟩
  have hempty : (none : Option SeriesDir).getD ∅ = ∅ := rfl
  obtain ⟨batches, dir', hbatches, hall, hread⟩ := read_downloads hempty
    (show intervalToMs "1m" = .ok 60000 from rfl) (fun _ _ ↦ rfl) hspaced (by decide)
    [(120000, 240000), (0, 180000)] 100000
  refine ⟨batches, dir', hbatches, hall, (hread _ _ ?_ ?_).trans ?_⟩
  · decide
  · decide
  · rfl

end Instances

end Coinext
