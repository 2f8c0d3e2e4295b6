import Coinext.Indicators.Resampler
import Coinext.Support.Grouping
import Coinext.Support.StableSort
import Mathlib.Tactic.Ring

/-!
# Bars from trades

Trades are put into buckets by the close of their window, and each bucket becomes a bar: the first
trade in it is the open and the last one the close, in the order of their times. The buckets are a
mapping that is read in the order of its keys, and each is sorted by time when it is read.

What comes out depends on the trades in the order of their times only (`barsOf_eq`): the bars are
those of the windows that have a trade, each the sum of the trades of its window.

The prices and sizes of a trade are exact rationals.
-/

namespace Coinext

open Blocks

def nsPerMs : ℤ := 1000000

/-- The intervals that are known, in milliseconds. -/
def intervalMs : List (String × ℤ) :=
  [("1m", 60000), ("3m", 180000), ("5m", 300000), ("15m", 900000), ("30m", 1800000),
    ("1h", 3600000), ("2h", 7200000), ("4h", 14400000), ("6h", 21600000), ("8h", 28800000),
    ("12h", 43200000), ("1d", 86400000)]

/-- Why no bars are made; the trade is part of the message. -/
inductive TradeBarError
  /-- `unsupported interval` -/
  | unsupportedInterval (interval : String)
  /-- `trade tick must be at least (ts_ns, price, size)` -/
  | tooShort (tick : List ℚ)
  /-- `trade timestamp must be non-negative` -/
  | negativeTime (tick : List ℚ)
  /-- `trade price must be positive` -/
  | nonPositivePrice (tick : List ℚ)
  /-- `trade size must be non-negative` -/
  | negativeSize (tick : List ℚ)
deriving DecidableEq

def intervalToMs (interval : String) : Except TradeBarError ℤ :=
  match intervalMs.lookup interval with
  | some ms => .ok ms
  | none => .error (.unsupportedInterval interval)

/-- The close of a window that begins at a time in milliseconds. -/
def windowCloseNs (startMs width : ℤ) : ℤ := (startMs + width - 1) * nsPerMs

/-- The close of the window of a time; the quotients are rounded down. -/
def bucketCloseNs (tsNs width : ℤ) : ℤ :=
  let tsMs := tsNs / nsPerMs
  windowCloseNs (tsMs / width * width) width

structure TradePrint where
  ts : ℤ
  price : ℚ
  size : ℚ
deriving DecidableEq

/-- Check a trade. A time that is no integer is truncated. -/
def coerceTrade (tick : List ℚ) : Except TradeBarError TradePrint :=
  match tick with
  | time :: price :: size :: _ =>
    let ts := time.num.tdiv time.den
    if ts < 0 then .error (.negativeTime tick)
    else if price ≤ 0 then .error (.nonPositivePrice tick)
    else if size < 0 then .error (.negativeSize tick)
    else .ok ⟨ts, price, size⟩
  | _ => .error (.tooShort tick)

/-- The bar of a bucket. -/
def bucketBar (closeNs : ℤ) (rows : List TradePrint) : Option OhlcvBar := do
  let prices := rows.map TradePrint.price
  let open_ ← prices.head?
  let high ← prices.max?
  let low ← prices.min?
  let close ← prices.getLast?
  some ⟨closeNs, open_, high, low, close, (rows.map TradePrint.size).sum⟩

/-- Sort trades by time; those of one time stay in their order. -/
def byTime (rows : List TradePrint) : List TradePrint :=
  rows.insertionSort fun a b ↦ a.ts ≤ b.ts

/-- The bars of checked trades. No bucket is empty, so that none is left out. -/
def barsOf (width : ℤ) (prints : List TradePrint) : List OhlcvBar :=
  let buckets := groups (fun r ↦ bucketCloseNs r.ts width) id prints
  ((buckets.map Prod.fst).insertionSort (· ≤ ·)).filterMap fun closeNs ↦
    bucketBar closeNs (byTime ((buckets.lookup closeNs).getD []))

def tradeTicksToOhlcv (trades : List (List ℚ)) (interval : String) :
    Except TradeBarError (List OhlcvBar) := do
  let width ← intervalToMs interval
  let prints ← trades.mapM coerceTrade
  return barsOf width prints

/-! ## The bar of a bucket -/

/-- A trade as a bar of its own that closes with its window. -/
def TradePrint.row (width : ℤ) (r : TradePrint) : OhlcvBar :=
  ⟨bucketCloseNs r.ts width, r.price, r.price, r.price, r.price, r.size⟩

theorem bucketBar_cons {closeNs : ℤ} {rows : List TradePrint} {bar : OhlcvBar}
    (h : bucketBar closeNs rows = some bar) (r : TradePrint) :
    bucketBar closeNs (r :: rows)
      = some ⟨closeNs, r.price, max r.price bar.high, min r.price bar.low, bar.close,
          r.size + bar.volume⟩ := by
  obtain ⟨open_, -, high, hhigh, low, hlow, close, hclose, hbar⟩ :
      ∃ open_, (rows.map TradePrint.price).head? = some open_ ∧
        ∃ high, (rows.map TradePrint.price).max? = some high ∧
        ∃ low, (rows.map TradePrint.price).min? = some low ∧
        ∃ close, (rows.map TradePrint.price).getLast? = some close ∧
          (⟨closeNs, open_, high, low, close, (rows.map TradePrint.size).sum⟩ : OhlcvBar)
            = bar := by
    simpa only [bucketBar, Option.bind_eq_bind, Option.bind_eq_some_iff, Option.some.injEq] using h
  have hne : rows.map TradePrint.price ≠ [] := by
    intro hnil
    rw [hnil] at hclose
    cases hclose
  rw [bucketBar, List.map_cons, List.head?_cons, List.max?_cons, List.min?_cons, hhigh, hlow,
    List.getLast?_cons_of_ne_nil hne, hclose, ← hbar, List.map_cons, List.sum_cons]
  rfl

/-- The bar of a bucket is the product of its trades. -/
theorem exists_bucketBar {width closeNs : ℤ} {rows : List TradePrint} (hne : rows ≠ [])
    (hclose : ∀ r ∈ rows, bucketCloseNs r.ts width = closeNs) :
    ∃ bar : OhlcvBar, bucketBar closeNs rows = some bar ∧ bar.ts = closeNs ∧
      total (rows.map (TradePrint.row width)) = bar := by
  induction rows with
  | nil => exact absurd rfl hne
  | cons r rows ih =>
    have hr := hclose r List.mem_cons_self
    cases rows with
    | nil =>
      refine ⟨r.row width, ?_, hr, by rw [List.map_singleton, total_cons, total_nil, mul_one]⟩
      rw [TradePrint.row, hr]
      simp [bucketBar]
    | cons r' rows =>
      obtain ⟨bar, hbar, hts, htotal⟩ := ih (List.cons_ne_nil r' rows)
        fun x hx ↦ hclose x (List.mem_cons_of_mem r hx)
      refine ⟨r.row width * bar, ?_, hts, ?_⟩
      · rw [bucketBar_cons hbar, OhlcvBar.mul_eq, hts]
        rfl
      · rw [List.map_cons, total_cons, htotal, WithOne.coe_mul]

/-! ## The bars of the windows -/

section Sorting

instance : Std.Total fun a b : TradePrint ↦ a.ts ≤ b.ts := ⟨fun a b ↦ le_total a.ts b.ts⟩

instance : IsTrans TradePrint fun a b ↦ a.ts ≤ b.ts := ⟨fun _ _ _ h h' ↦ h.trans h'⟩

theorem mem_byTime {rows : List TradePrint} {r : TradePrint} : r ∈ byTime rows ↔ r ∈ rows :=
  List.mem_insertionSort _

theorem pairwise_byTime (rows : List TradePrint) :
    (byTime rows).Pairwise fun a b ↦ a.ts ≤ b.ts :=
  List.pairwise_insertionSort _ rows

theorem byTime_filter (p : TradePrint → Bool) (rows : List TradePrint) :
    byTime (rows.filter p) = (byTime rows).filter p :=
  (filter_insertionSort rows).symm

theorem byTime_congr {rows rows' : List TradePrint}
    (h : ∀ ts, rows.filter (fun r ↦ r.ts = ts) = rows'.filter fun r ↦ r.ts = ts) :
    byTime rows = byTime rows' := by
  have hsame : ∀ ts, (byTime rows).filter (fun r ↦ r.ts = ts)
      = (byTime rows').filter fun r ↦ r.ts = ts := by
    intro ts
    rw [byTime, byTime, filter_key_insertionSort, filter_key_insertionSort, h]
  have hmem : ∀ r, r ∈ rows → r ∈ rows' := by
    intro r hr
    have hr' : r ∈ rows.filter fun r' ↦ r'.ts = r.ts :=
      List.mem_filter.mpr ⟨hr, decide_eq_true rfl⟩
    rw [h] at hr'
    exact (List.mem_filter.mp hr').1
  let times := ((byTime rows').map TradePrint.ts).dedup.insertionSort (· ≤ ·)
  have htimes : times.Pairwise (· < ·) := by
    have hnodup : times.Nodup :=
      (List.perm_insertionSort _ _).nodup_iff.mpr (List.nodup_dedup _)
    exact List.Pairwise.imp₂ (fun _ _ hle hne ↦ lt_of_le_of_ne hle hne)
      (List.pairwise_insertionSort (· ≤ ·) _) hnodup
  have hcover : ∀ r ∈ byTime rows', r.ts ∈ times := by
    intro r hr
    exact (List.mem_insertionSort _).mpr (List.mem_dedup.mpr (List.mem_map_of_mem hr))
  have hcover' : ∀ r ∈ byTime rows, r.ts ∈ times := fun r hr ↦
    hcover r (mem_byTime.mpr (hmem r (mem_byTime.mp hr)))
  rw [← flatMap_filter_of_sorted (pairwise_byTime rows) htimes hcover',
    ← flatMap_filter_of_sorted (pairwise_byTime rows') htimes hcover]
  exact List.flatMap_congr fun ts _ ↦ hsame ts

end Sorting

/-- The closes of the windows that have a trade, in their order. -/
def windows (width : ℤ) (prints : List TradePrint) : List ℤ :=
  (groupKeys (fun r ↦ bucketCloseNs r.ts width) prints).insertionSort (· ≤ ·)

variable {width : ℤ} {prints : List TradePrint}

theorem mem_windows {closeNs : ℤ} :
    closeNs ∈ windows width prints ↔ ∃ r ∈ prints, bucketCloseNs r.ts width = closeNs := by
  rw [windows, List.mem_insertionSort, mem_groupKeys, List.mem_map]

theorem pairwise_windows : (windows width prints).Pairwise (· < ·) := by
  have hnodup : (windows width prints).Nodup :=
    (List.perm_insertionSort _ _).nodup_iff.mpr nodup_groupKeys
  exact List.Pairwise.imp₂ (fun _ _ hle hne ↦ lt_of_le_of_ne hle hne)
    (List.pairwise_insertionSort (· ≤ ·) _) hnodup

/-- The trades of a window, in the order of their times. -/
def windowPrints (width : ℤ) (prints : List TradePrint) (closeNs : ℤ) : List TradePrint :=
  (byTime prints).filter fun r ↦ bucketCloseNs r.ts width = closeNs

/-- A bar sums up the trades of its window. -/
def IsWindowBar (width : ℤ) (prints : List TradePrint) (closeNs : ℤ) (bar : OhlcvBar) : Prop :=
  bar.ts = closeNs ∧ total ((windowPrints width prints closeNs).map (TradePrint.row width)) = bar

theorem forall₂_filterMap {α β : Type} {R : α → β → Prop} {f : α → Option β} {l : List α}
    (h : ∀ a ∈ l, ∃ b, R a b ∧ f a = some b) : List.Forall₂ R l (l.filterMap f) := by
  induction l with
  | nil => exact .nil
  | cons a l ih =>
    obtain ⟨b, hR, hb⟩ := h a List.mem_cons_self
    rw [List.filterMap_cons_some hb]
    exact .cons hR (ih fun x hx ↦ h x (List.mem_cons_of_mem a hx))

/-- **The bars** are those of the windows that have a trade. -/
theorem forall₂_barsOf :
    List.Forall₂ (IsWindowBar width prints) (windows width prints) (barsOf width prints) := by
  have hkeys : (groups (fun r ↦ bucketCloseNs r.ts width) id prints).map Prod.fst
      = groupKeys (fun r ↦ bucketCloseNs r.ts width) prints := by
    rw [groups_eq_map, List.map_map]
    exact List.map_id' _
  rw [barsOf, hkeys]
  refine forall₂_filterMap fun closeNs hcloseNs ↦ ?_
  have hmem : closeNs ∈ groupKeys (fun r ↦ bucketCloseNs r.ts width) prints :=
    (List.mem_insertionSort _).mp hcloseNs
  rw [groups_eq_map, List.lookup_graph _ hmem, Option.getD_some, List.map_id, byTime_filter]
  have hne : windowPrints width prints closeNs ≠ [] := by
    obtain ⟨r, hr, hclose⟩ := mem_windows.mp hcloseNs
    exact List.ne_nil_of_mem (List.mem_filter.mpr ⟨mem_byTime.mpr hr, decide_eq_true hclose⟩)
  obtain ⟨bar, hbar, hts, htotal⟩ := exists_bucketBar hne fun r hr ↦
    of_decide_eq_true (List.mem_filter.mp hr).2
  exact ⟨bar, ⟨hts, htotal⟩, hbar⟩

/-! ## What the bars tell -/

theorem intervalToMs_pos {interval : String} (h : intervalToMs interval = .ok width) :
    0 < width := by
  unfold intervalToMs at h
  split at h
  · next ms hms =>
    obtain ⟨l, l', hl, -⟩ := List.lookup_eq_some_iff.mp hms
    have hmem : (interval, ms) ∈ intervalMs := by
      rw [hl]
      exact List.mem_append_right l List.mem_cons_self
    have hpos : ∀ e ∈ intervalMs, 0 < e.2 := by decide
    cases h
    exact hpos _ hmem
  · cases h

theorem bucketCloseNs_eq (ts : ℤ) :
    bucketCloseNs ts width = windowCloseNs (ts / (nsPerMs * width) * width) width := by
  rw [bucketCloseNs, Int.ediv_ediv_of_nonneg (by decide)]

theorem windowCloseNs_le (hwidth : 0 < width) {i j : ℤ} :
    windowCloseNs (i * width) width ≤ windowCloseNs (j * width) width ↔ i ≤ j := by
  have hle : i * width ≤ j * width ↔ i ≤ j := Int.mul_le_mul_right hwidth
  rw [windowCloseNs, windowCloseNs, Int.mul_le_mul_right (by decide), ← hle]
  omega

theorem windowCloseNs_inj (hwidth : 0 < width) {i j : ℤ} :
    windowCloseNs (i * width) width = windowCloseNs (j * width) width ↔ i = j := by
  rw [le_antisymm_iff, windowCloseNs_le hwidth, windowCloseNs_le hwidth, ← le_antisymm_iff]

theorem bucketCloseNs_mono (hwidth : 0 < width) {ts ts' : ℤ} (h : ts ≤ ts') :
    bucketCloseNs ts width ≤ bucketCloseNs ts' width := by
  rw [bucketCloseNs_eq, bucketCloseNs_eq, windowCloseNs_le hwidth]
  exact Int.ediv_le_ediv (Int.mul_pos (by decide) hwidth) h

theorem flatMap_windowPrints (hwidth : 0 < width) :
    (windows width prints).flatMap (windowPrints width prints) = byTime prints := by
  refine flatMap_filter_of_sorted ?_ pairwise_windows fun r hr ↦
    mem_windows.mpr ⟨r, mem_byTime.mp hr, rfl⟩
  exact (pairwise_byTime prints).imp fun h ↦ bucketCloseNs_mono hwidth h

theorem map_ts_barsOf : (barsOf width prints).map OhlcvBar.ts = windows width prints := by
  have hts : ∀ {ks : List ℤ} {bars : List OhlcvBar},
      List.Forall₂ (IsWindowBar width prints) ks bars → bars.map OhlcvBar.ts = ks := by
    intro ks bars h
    induction h with
    | nil => rfl
    | cons hbar _ ih => rw [List.map_cons, ih, hbar.1]
  exact hts forall₂_barsOf

theorem sum_volume_barsOf (hwidth : 0 < width) :
    ((barsOf width prints).map OhlcvBar.volume).sum = (prints.map TradePrint.size).sum := by
  have hvolume : ∀ {ks : List ℤ} {bars : List OhlcvBar},
      List.Forall₂ (IsWindowBar width prints) ks bars → (bars.map OhlcvBar.volume).sum
        = ((ks.flatMap (windowPrints width prints)).map TradePrint.size).sum := by
    intro ks bars h
    induction h with
    | nil => rfl
    | cons hbar _ ih =>
      obtain ⟨rfl, htotal⟩ := hbar
      rw [List.map_cons, List.sum_cons, ih, List.flatMap_cons, List.map_append, List.sum_append,
        (OhlcvBar.sumsUp_of_total htotal).volume_eq, List.map_map]
      rfl
  rw [hvolume forall₂_barsOf, flatMap_windowPrints hwidth]
  exact ((List.perm_insertionSort _ prints).map TradePrint.size).sum_eq

theorem windows_congr {prints' : List TradePrint} (h : byTime prints' = byTime prints) :
    windows width prints' = windows width prints := by
  refine List.Pairwise.eq_of_mem_iff pairwise_windows pairwise_windows fun closeNs ↦ ?_
  rw [mem_windows, mem_windows]
  have hmem : ∀ r, r ∈ prints' ↔ r ∈ prints := by
    intro r
    rw [← mem_byTime, h, mem_byTime]
  simp only [hmem]

theorem barsOf_congr {prints' : List TradePrint} (h : byTime prints' = byTime prints) :
    barsOf width prints' = barsOf width prints := by
  have hsame : IsWindowBar width prints' = IsWindowBar width prints := by
    funext closeNs bar
    rw [IsWindowBar, IsWindowBar, windowPrints, windowPrints, h]
  have hunique : Relator.RightUnique (IsWindowBar width prints) :=
    fun _ _ _ hbar hbar' ↦ WithOne.coe_inj.mp (hbar.2.symm.trans hbar'.2)
  refine hunique.forall₂ ?_ forall₂_barsOf
  rw [← windows_congr h, ← hsame]
  exact forall₂_barsOf

theorem mem_barsOf {bar : OhlcvBar} (h : bar ∈ barsOf width prints) :
    IsWindowBar width prints bar.ts bar := by
  have hall : ∀ {ks : List ℤ} {bars : List OhlcvBar},
      List.Forall₂ (IsWindowBar width prints) ks bars →
        ∀ bar ∈ bars, IsWindowBar width prints bar.ts bar := by
    intro ks bars h
    induction h with
    | nil => exact List.forall_mem_nil _
    | cons hbar _ ih => exact List.forall_mem_cons.mpr ⟨hbar.1 ▸ hbar, ih⟩
  exact hall forall₂_barsOf bar h

/-- **The bars of trades** have increasing closes, there is one of every window that has a trade,
and it sums up the trades of its window in the order of their times. Together they have the volume
of the trades. In which order trades come does not matter, as long as those of one time keep
theirs. -/
theorem tradeTicksToOhlcv_sumsUp {trades : List (List ℚ)} {interval : String}
    (hwidth : intervalToMs interval = .ok width)
    (hprints : trades.mapM coerceTrade = .ok prints) :
    ∃ bars, tradeTicksToOhlcv trades interval = .ok bars ∧
      bars.Pairwise (fun a b ↦ a.ts < b.ts) ∧
      (∀ bar ∈ bars, bar.SumsUp
        ((windowPrints width prints bar.ts).map (TradePrint.row width))) ∧
      (∀ r ∈ prints, ∃ bar ∈ bars, bar.ts = bucketCloseNs r.ts width) ∧
      (bars.map OhlcvBar.volume).sum = (prints.map TradePrint.size).sum ∧
      ∀ trades' prints', trades'.mapM coerceTrade = .ok prints' →
        (∀ ts, prints'.filter (fun r ↦ r.ts = ts) = prints.filter fun r ↦ r.ts = ts) →
        tradeTicksToOhlcv trades' interval = .ok bars := by
  have hpos := intervalToMs_pos hwidth
  have hresult : ∀ {trades' : List (List ℚ)} {prints' : List TradePrint},
      trades'.mapM coerceTrade = .ok prints' →
      tradeTicksToOhlcv trades' interval = .ok (barsOf width prints') := by
    intro trades' prints' h
    rw [tradeTicksToOhlcv, hwidth, h]
    rfl
  refine ⟨_, hresult hprints, ?_, ?_, ?_, sum_volume_barsOf hpos, ?_⟩
  · rw [← List.pairwise_map, map_ts_barsOf]
    exact pairwise_windows
  · exact fun bar hbar ↦ OhlcvBar.sumsUp_of_total (mem_barsOf hbar).2
  · intro r hr
    have hmem : bucketCloseNs r.ts width ∈ (barsOf width prints).map OhlcvBar.ts :=
      map_ts_barsOf ▸ mem_windows.mpr ⟨r, hr, rfl⟩
    exact List.mem_map.mp hmem
  · intro trades' prints' h hsame
    rw [hresult h, barsOf_congr (byTime_congr hsame)]

theorem tradeTicksToOhlcv_sumsUp_pair :
    ∃ bars, tradeTicksToOhlcv [[90000000000, 101, 2], [60000000000, 100, 1]] "1m" = .ok bars ∧
      bars.Pairwise (fun a b ↦ a.ts < b.ts) ∧
      (∀ bar ∈ bars, bar.SumsUp ((windowPrints 60000
        [⟨90000000000, 101, 2⟩, ⟨60000000000, 100, 1⟩] bar.ts).map (TradePrint.row 60000))) ∧
      (∀ r ∈ [(⟨90000000000, 101, 2⟩ : TradePrint), ⟨60000000000, 100, 1⟩],
        ∃ bar ∈ bars, bar.ts = bucketCloseNs r.ts 60000) ∧
      (bars.map OhlcvBar.volume).sum
        = ([(⟨90000000000, 101, 2⟩ : TradePrint), ⟨60000000000, 100, 1⟩].map TradePrint.size).sum ∧
      ∀ trades' prints', trades'.mapM coerceTrade = .ok prints' →
        (∀ ts, prints'.filter (fun r ↦ r.ts = ts)
          = [(⟨90000000000, 101, 2⟩ : TradePrint), ⟨60000000000, 100, 1⟩].filter
            fun r ↦ r.ts = ts) →
        tradeTicksToOhlcv trades' "1m" = .ok bars :=
  tradeTicksToOhlcv_sumsUp (by rfl) (by decide)

/-! ## Bars of bars -/

theorem barsOf_eq_map {n : ℕ} {closes : ℕ → ℤ}
    (hwindows : windows width prints = (List.range n).map closes) :
    ∃ bar : ℕ → OhlcvBar, barsOf width prints = (List.range n).map bar ∧
      ∀ i < n, IsWindowBar width prints (closes i) (bar i) := by
  have hbars : List.Forall₂ (IsWindowBar width prints) (windows width prints)
      (barsOf width prints) := forall₂_barsOf
  rw [hwindows] at hbars
  have hlength : (barsOf width prints).length = n := by
    rw [← hbars.length_eq, List.length_map, List.length_range]
  refine ⟨fun i ↦ (barsOf width prints).getD i ⟨0, 0, 0, 0, 0, 0⟩, ?_, fun i hi ↦ ?_⟩
  · refine List.ext_getElem (by simp [hlength]) fun i hi _ ↦ ?_
    simp [hi]
  · have h := hbars.get (by simpa using hi) (hlength.symm ▸ hi)
    simpa [hlength, hi] using h

section Coarser

variable {k : ℕ} {J : ℤ}

theorem bucketCloseNs_mul (hwidth : 0 < width) (ts : ℤ) : bucketCloseNs ts (width * k)
    = windowCloseNs (ts / (nsPerMs * width) / k * (width * k)) (width * k) := by
  rw [bucketCloseNs_eq, ← mul_assoc nsPerMs,
    Int.ediv_ediv_of_nonneg (Int.mul_nonneg (by decide) hwidth.le)]

theorem ediv_eq_iff_exists (hk : 0 < k) {g : ℤ} : g / k = J ↔ ∃ i < k, g = J * k + (i : ℕ) := by
  have hpos : (0 : ℤ) < k := Int.natCast_pos.mpr hk
  constructor
  · rintro rfl
    have hmod := Int.emod_lt_of_pos g hpos
    have hnonneg := Int.emod_nonneg g hpos.ne'
    refine ⟨(g % k).toNat, by omega, ?_⟩
    rw [Int.toNat_of_nonneg hnonneg, Int.mul_comm, Int.mul_ediv_add_emod]
  · rintro ⟨i, hi, rfl⟩
    rw [Int.add_comm, Int.add_mul_ediv_right _ _ hpos.ne', Int.ediv_eq_zero_of_lt (by omega)
      (by omega), Int.zero_add]

/-- The trades of a window are those of its `k` parts. -/
theorem windowPrints_mul (hwidth : 0 < width) (hk : 0 < k) :
    windowPrints (width * k) prints (windowCloseNs (J * (width * k)) (width * k))
      = (List.range k).flatMap fun i : ℕ ↦
          windowPrints width prints (windowCloseNs ((J * k + i) * width) width) := by
  have hwide : 0 < width * k := Int.mul_pos hwidth (Int.natCast_pos.mpr hk)
  have hwindow : ∀ r : TradePrint,
      bucketCloseNs r.ts (width * k) = windowCloseNs (J * (width * k)) (width * k)
        ↔ ∃ i < k, r.ts / (nsPerMs * width) = J * k + (i : ℕ) := by
    intro r
    rw [bucketCloseNs_mul hwidth, windowCloseNs_inj hwide, ediv_eq_iff_exists hk]
  have hpart : ∀ (i : ℕ) (r : TradePrint),
      bucketCloseNs r.ts width = windowCloseNs ((J * k + i) * width) width
        ↔ r.ts / (nsPerMs * width) = J * k + (i : ℕ) := by
    intro i r
    rw [bucketCloseNs_eq, windowCloseNs_inj hwidth]
  let parts := (List.range k).map fun i : ℕ ↦ windowCloseNs ((J * k + i) * width) width
  have hparts : parts.Pairwise (· < ·) := by
    refine List.pairwise_map.mpr (List.pairwise_lt_range.imp fun h ↦ ?_)
    rw [← not_le, windowCloseNs_le hwidth]
    omega
  have hsorted : (windowPrints (width * k) prints
      (windowCloseNs (J * (width * k)) (width * k))).Pairwise
        fun a b ↦ bucketCloseNs a.ts width ≤ bucketCloseNs b.ts width :=
    ((pairwise_byTime prints).imp fun h ↦ bucketCloseNs_mono hwidth h).filter _
  rw [← flatMap_filter_of_sorted hsorted hparts fun r hr ↦ ?_, List.flatMap_map]
  · refine List.flatMap_congr fun i hi ↦ ?_
    rw [windowPrints, windowPrints, List.filter_filter]
    refine List.filter_congr fun r _ ↦ ?_
    rw [← Bool.decide_and, decide_eq_decide, hpart, hwindow]
    exact ⟨And.left, fun h ↦ ⟨h, i, List.mem_range.mp hi, h⟩⟩
  · obtain ⟨i, hi, hr'⟩ := (hwindow r).mp (of_decide_eq_true (List.mem_filter.mp hr).2)
    exact List.mem_map.mpr ⟨i, List.mem_range.mpr hi, ((hpart i r).mpr hr').symm⟩

/-- A bar without its time. -/
def OhlcvBar.timeless (b : OhlcvBar) : OhlcvBar := { b with ts := 0 }

theorem OhlcvBar.eq_of_timeless {a b : OhlcvBar} (h : a.timeless = b.timeless) (hts : a.ts = b.ts) :
    a = b := by
  cases a
  cases b
  simp_all [OhlcvBar.timeless]

/-- The bar of a window is the product of the bars of its `k` parts. -/
theorem IsWindowBar.eq_of_parts (hwidth : 0 < width) (hk : 0 < k) {wide resampled : OhlcvBar}
    {part : ℕ → OhlcvBar}
    (hwide : IsWindowBar (width * k) prints (windowCloseNs (J * (width * k)) (width * k)) wide)
    (hpart : ∀ i < k,
      IsWindowBar width prints (windowCloseNs ((J * k + (i : ℕ)) * width) width) (part i))
    (hresampled : total ((List.range k).map part) = resampled) : resampled = wide := by
  have hparts : total ((List.range k).flatMap fun i : ℕ ↦ (windowPrints width prints
      (windowCloseNs ((J * k + i) * width) width)).map (TradePrint.row width)) = resampled := by
    rw [total_flatMap (g := part) _ fun i hi ↦ (hpart i (List.mem_range.mp hi)).2, hresampled]
  have hmul : ∀ a b : OhlcvBar, (a * b).timeless = a.timeless * b.timeless := fun _ _ ↦ rfl
  have htimeless : ((windowPrints (width * k) prints (windowCloseNs (J * (width * k))
      (width * k))).map (TradePrint.row (width * k))).map OhlcvBar.timeless
        = ((List.range k).flatMap fun i : ℕ ↦ (windowPrints width prints
            (windowCloseNs ((J * k + i) * width) width)).map (TradePrint.row width)).map
              OhlcvBar.timeless := by
    rw [windowPrints_mul hwidth hk, ← List.map_flatMap, List.map_map, List.map_map]
    rfl
  have hsame := (total_map hmul hwide.2).symm.trans
    ((congrArg total htimeless).trans (total_map hmul hparts))
  refine OhlcvBar.eq_of_timeless (WithOne.coe_inj.mp hsame).symm ?_
  -- the last part closes with the window
  obtain ⟨m, rfl⟩ := Nat.exists_eq_succ_of_ne_zero hk.ne'
  have hclose := (OhlcvBar.sumsUp_of_total hresampled).close_eq
  rw [List.range_succ, List.map_append, List.map_singleton, List.getLast?_concat, Option.map_some,
    Option.some.injEq, Prod.mk.injEq] at hclose
  rw [← hclose.1, (hpart m (Nat.lt_succ_self m)).1, hwide.1, windowCloseNs, windowCloseNs]
  push_cast
  ring

/-- The windows that are `k` times as wide, when no trade is missing. -/
theorem windows_mul (hwidth : 0 < width) (hk : 0 < k) {n : ℕ}
    (hgapless : windows width prints
      = (List.range n).map fun i : ℕ ↦ windowCloseNs ((J * k + i) * width) width) :
    windows (width * k) prints = (List.range ((n + k - 1) / k)).map
      fun j : ℕ ↦ windowCloseNs ((J + j) * (width * k)) (width * k) := by
  have hpos : (k : ℤ) ≠ 0 := Int.natCast_ne_zero.mpr hk.ne'
  have hwide : 0 < width * k := Int.mul_pos hwidth (Int.natCast_pos.mpr hk)
  have hindex : ∀ (r : TradePrint) (i : ℕ),
      bucketCloseNs r.ts width = windowCloseNs ((J * k + i) * width) width →
        bucketCloseNs r.ts (width * k)
          = windowCloseNs ((J + (i / k : ℕ)) * (width * k)) (width * k) := by
    intro r i h
    rw [bucketCloseNs_eq, windowCloseNs_inj hwidth] at h
    rw [bucketCloseNs_mul hwidth, h, Int.add_comm, Int.add_mul_ediv_right _ _ hpos, Int.add_comm,
      Int.natCast_ediv]
  have hsorted : ((List.range ((n + k - 1) / k)).map
      fun j : ℕ ↦ windowCloseNs ((J + j) * (width * k)) (width * k)).Pairwise (· < ·) := by
    refine List.pairwise_map.mpr (List.pairwise_lt_range.imp fun h ↦ ?_)
    rw [← not_le, windowCloseNs_le hwide]
    omega
  refine List.Pairwise.eq_of_mem_iff pairwise_windows hsorted fun closeNs ↦ ?_
  rw [mem_windows, List.mem_map]
  constructor
  · rintro ⟨r, hr, rfl⟩
    obtain ⟨i, hi, hri⟩ := List.mem_map.mp (hgapless ▸ mem_windows.mpr ⟨r, hr, rfl⟩)
    refine ⟨i / k, List.mem_range.mpr ?_, (hindex r i hri.symm).symm⟩
    have hle := Nat.div_mul_le_self i k
    have hi' := List.mem_range.mp hi
    rw [Nat.lt_iff_add_one_le, Nat.le_div_iff_mul_le hk, Nat.succ_mul]
    omega
  · rintro ⟨j, hj, rfl⟩
    rw [List.mem_range, Nat.lt_iff_add_one_le, Nat.le_div_iff_mul_le hk, Nat.succ_mul] at hj
    have hmem : windowCloseNs ((J * k + (j * k : ℕ)) * width) width ∈ windows width prints := by
      rw [hgapless]
      exact List.mem_map.mpr ⟨j * k, List.mem_range.mpr (by omega), rfl⟩
    obtain ⟨r, hr, hclose⟩ := mem_windows.mp hmem
    refine ⟨r, hr, ?_⟩
    rw [hindex r (j * k) hclose, Nat.mul_div_cancel j hk]

end Coarser

/-- **Bars of bars.** The bars of an interval are resampled to those of an interval `k` times as
wide, when they begin with a wide window and no window is without a trade: what a resampler of
factor `k` emits are the wide bars that are complete. -/
theorem resample_tradeTicksToOhlcv {trades : List (List ℚ)} {interval wide : String} {k : ℕ}
    {start : ℤ} {fine : List OhlcvBar} (hk : 0 < k) (hwidth : intervalToMs interval = .ok width)
    (hwide : intervalToMs wide = .ok (width * k))
    (hfine : tradeTicksToOhlcv trades interval = .ok fine)
    (hgapless : fine.map OhlcvBar.ts
      = (List.range fine.length).map fun i : ℕ ↦ windowCloseNs ((start * k + i) * width) width) :
    ∃ r bars, Resampler.new k = some r ∧ tradeTicksToOhlcv trades wide = .ok bars ∧
      r.feed fine = bars.take (fine.length / k) := by
  have hpos := intervalToMs_pos hwidth
  obtain ⟨r, hr, hfeed⟩ := Resampler.feed_new hk
  obtain ⟨prints, hprints⟩ : ∃ prints, trades.mapM coerceTrade = .ok prints := by
    rw [tradeTicksToOhlcv, hwidth] at hfine
    cases hprints : trades.mapM coerceTrade with
    | error e =>
      rw [hprints] at hfine
      cases hfine
    | ok prints => exact ⟨prints, rfl⟩
  have hresult : ∀ {name : String} {width : ℤ}, intervalToMs name = .ok width →
      tradeTicksToOhlcv trades name = .ok (barsOf width prints) := by
    intro name width h
    rw [tradeTicksToOhlcv, h, hprints]
    rfl
  rw [hresult hwidth, Except.ok.injEq] at hfine
  rw [← hfine, map_ts_barsOf] at hgapless
  have hlength : (barsOf width prints).length = fine.length := by rw [hfine]
  obtain ⟨part, hparts, hpart⟩ := barsOf_eq_map hgapless
  obtain ⟨bar, hbars, hbar⟩ := barsOf_eq_map (windows_mul hpos hk hgapless)
  refine ⟨r, _, hr, hresult hwide, ?_⟩
  rw [hlength] at hparts hpart hbars hbar
  have htake : fine.length / k ≤ (fine.length + k - 1) / k := Nat.div_le_div_right (by omega)
  rw [hfeed, hbars, ← List.map_take, List.take_range, Nat.min_eq_left htake, ← hfine, hparts,
    List.length_map, List.length_range]
  have hblocks := forall₂_blocks hk ((List.range fine.length).map part)
  rw [List.length_map, List.length_range, List.forall₂_map_right_iff, List.forall₂_iff_zip]
    at hblocks
  rw [← List.forall₂_eq_eq_eq, List.forall₂_map_right_iff, List.forall₂_iff_zip]
  refine ⟨hblocks.1, fun {b j} hzip ↦ ?_⟩
  have hj : j < fine.length / k := List.mem_range.mp (List.of_mem_zip hzip).2
  have hmul : j * k + k ≤ fine.length := by
    rw [← Nat.succ_mul]
    exact (Nat.le_div_iff_mul_le hk).mp hj
  have hblock : (((List.range fine.length).map part).drop (j * k)).take k
      = (List.range k).map fun i ↦ part (j * k + i) := by
    refine List.ext_getElem (by simp; omega) fun i hi _ ↦ ?_
    simp
  have htotal := hblocks.2 hzip
  rw [hblock] at htotal
  refine IsWindowBar.eq_of_parts hpos hk (hbar j (hj.trans_le htake)) (fun i hi ↦ ?_) htotal
  have h := hpart (j * k + i) (by omega)
  rwa [Nat.cast_add, Nat.cast_mul, ← Int.add_assoc, ← Int.add_mul] at h

theorem resample_tradeTicksToOhlcv_three :
    ∃ r bars, Resampler.new (3 : ℕ) = some r ∧
      tradeTicksToOhlcv [[0, 10, 1], [90000000000, 11, 2], [150000000000, 9, 3],
        [180000000000, 12, 1]] "3m" = .ok bars ∧
      r.feed [⟨59999000000, 10, 10, 10, 10, 1⟩, ⟨119999000000, 11, 11, 11, 11, 2⟩,
        ⟨179999000000, 9, 9, 9, 9, 3⟩, ⟨239999000000, 12, 12, 12, 12, 1⟩] = bars.take (4 / 3) :=
  @resample_tradeTicksToOhlcv 60000 _ "1m" "3m" 3 0 _ (by decide) (by rfl) (by rfl)
    (by with_unfolding_all decide) (by decide)

end Coinext
