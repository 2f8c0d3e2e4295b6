import Coinext.Analytics.Trades
import Coinext.Support.Fifo
import Mathlib.Algebra.BigOperators.Ring.List
import Mathlib.Tactic.Linarith

/-!
# Cash through the round trips

Where all quantities are multiples of a lot size that is above the epsilon, nothing is closed by
the epsilon that is not closed exactly. The matching then is first in, first out, of units of the
lot size: `matchAll_units` says that the trades and the open lots, taken apart into units, are the
pairs and the queue of such a run.

The cash flow follows from what a run conserves. Merging consecutive fills of one side and one price
changes the times of units and nothing else (`units_coalescePartialFills`), and no time has a part
in the matching.
-/

namespace Coinext

namespace Analytics

open Fifo

/-- The open position of a stream of fills: its direction, zero when flat, and its size. -/
def openExposure (fills : List Fill) : ℤ × Decimal :=
  let net := fills.foldl (fun (net : Decimal) f ↦ net + (f.side : Decimal) * f.qty) 0
  if |net| ≤ qtyEps then (0, 0) else (if net > 0 then 1 else -1, |net|)

/-- The open lots and the trades after a stream of fills, which is taken as it is. -/
def matchAll (feeRate : Decimal) (fills : List Fill) : List Lot × List Trade :=
  fills.foldl (matchFill feeRate) ([], [])

/-- The lots that are open when `reconstructTrades` returns. -/
def openLots (feeRate : Decimal) (fills : List Fill) : List Lot :=
  (matchAll feeRate (coalescePartialFills fills)).1

/-- The cash that a fill costs, negative for a sell. -/
def Fill.cash (f : Fill) : Decimal := f.side * f.qty * f.px

/-- The cash that an open lot has cost. -/
def Lot.cost (lot : Lot) : Decimal := lot.dir * lot.qty * lot.px

/-- A unit of a position: when and at which price it was traded, and its direction. -/
structure LotUnit where
  ts : UnixNanos
  px : Decimal
  dir : ℤ
deriving DecidableEq

def Lot.unit (lot : Lot) : LotUnit := ⟨lot.ts, lot.px, lot.dir⟩

def Fill.unit (f : Fill) : LotUnit := ⟨f.ts, f.px, f.side⟩

/-- The unit a trade closes, and the one it closes it with. -/
def Trade.unit (t : Trade) : LotUnit × LotUnit :=
  (⟨t.entryTs, t.entryPx, t.side⟩, ⟨t.exitTs, t.exitPx, -t.side⟩)

/-- A fill of a whole number of lots, on one of the two sides. -/
structure Fill.InLots (δ : Decimal) (f : Fill) : Prop where
  side : f.side = 1 ∨ f.side = -1
  whole : Whole δ f.qty

/-- What is matched of a trade without fees. -/
structure Trade.Clean (δ : Decimal) (t : Trade) : Prop where
  whole : Whole δ t.qty
  pnl_eq : t.pnl = t.qty * ((t.exitPx - t.entryPx) * t.side)

variable {δ : Decimal} {f : Fill} {lots : List Lot}

/-! ## One fill -/

theorem qtyEps_pos : 0 < qtyEps := by norm_num [qtyEps]

theorem gt_qtyEps_iff (hδ : qtyEps < δ) (n : ℕ) : n * δ > qtyEps ↔ 0 < n := by
  constructor
  · intro h
    rcases Nat.eq_zero_or_pos n with rfl | hn
    · rw [Nat.cast_zero, zero_mul] at h
      exact absurd h qtyEps_pos.not_gt
    · exact hn
  · intro hn
    have hone : (1 : ℚ) ≤ n := by exact_mod_cast hn
    have hle : 1 * δ ≤ n * δ := mul_le_mul_of_nonneg_right hone (qtyEps_pos.trans hδ).le
    rw [one_mul] at hle
    exact hδ.trans_le hle

theorem clean_matchLot (f : Fill) (lot : Lot) {n : ℕ} (hn : 0 < n) :
    (matchLot 0 f lot (n * δ)).Clean δ := by
  refine ⟨⟨n, hn, rfl⟩, ?_⟩
  simp only [matchLot]
  ring

theorem units_matchLot (hδ : 0 < δ) {lot : Lot} (hopp : lot.dir = -f.side) (n : ℕ) :
    units δ Trade.qty Trade.unit [matchLot 0 f lot (n * δ)]
      = List.replicate n (lot.unit, f.unit) := by
  have hunit : (matchLot 0 f lot (n * δ)).unit = (lot.unit, f.unit) := by
    simp only [matchLot, Trade.unit, Lot.unit, Fill.unit, hopp, neg_neg]
  have hqty : (matchLot 0 f lot (n * δ)).qty = n * δ := rfl
  rw [units_singleton hδ hqty, hunit]

theorem closeLots_cons_of_not {lot : Lot} {q : Decimal}
    (hcond : ¬ (lot.dir = -f.side ∧ q > qtyEps)) :
    closeLots 0 f q (lot :: lots) = ([], q, lot :: lots) := by
  simp only [closeLots, if_neg hcond]

/-- The lot takes all of the fill and stays open. -/
theorem closeLots_cons_of_lt (hδ : qtyEps < δ) {lot : Lot} {m n : ℕ} (hqty : lot.qty = n * δ)
    (hcond : lot.dir = -f.side ∧ (m * δ : ℚ) > qtyEps) (hlt : m < n) :
    closeLots 0 f (m * δ) (lot :: lots)
      = ([matchLot 0 f lot (m * δ)], 0, { lot with qty := (n - m : ℕ) * δ } :: lots) := by
  have hdiff : lot.qty - m * δ = (n - m : ℕ) * δ := by
    rw [hqty, Nat.cast_sub hlt.le]
    ring
  have hopen : (n - m : ℕ) * δ > qtyEps := (gt_qtyEps_iff hδ _).mpr (Nat.sub_pos_of_lt hlt)
  have hmin : min lot.qty (m * δ) = m * δ := by
    refine min_eq_right ?_
    rw [← sub_nonneg, hdiff]
    exact (qtyEps_pos.trans hopen).le
  simp only [closeLots, if_pos hcond, hmin, hdiff, if_neg (not_le.mpr hopen), sub_self]

/-- The lot is closed, and the fill goes on with the next one. -/
theorem closeLots_cons_of_ge (hδ : qtyEps < δ) {lot : Lot} {m n : ℕ} (hqty : lot.qty = n * δ)
    (hcond : lot.dir = -f.side ∧ (m * δ : ℚ) > qtyEps) (hge : n ≤ m) :
    closeLots 0 f (m * δ) (lot :: lots)
      = (matchLot 0 f lot (n * δ) :: (closeLots 0 f ((m - n : ℕ) * δ) lots).1,
        (closeLots 0 f ((m - n : ℕ) * δ) lots).2) := by
  have hpos : 0 < δ := qtyEps_pos.trans hδ
  have hdiff : (m * δ : ℚ) - n * δ = (m - n : ℕ) * δ := by
    rw [Nat.cast_sub hge]
    ring
  have hmin : min lot.qty (m * δ) = n * δ := by
    rw [hqty]
    refine min_eq_left (sub_nonneg.mp ?_)
    rw [hdiff]
    exact mul_nonneg (Nat.cast_nonneg _) hpos.le
  have hclosed : lot.qty - n * δ ≤ qtyEps := by
    rw [hqty, sub_self]
    exact qtyEps_pos.le
  simp only [closeLots, if_pos hcond, hmin, hdiff, if_pos hclosed]

/-- **The lots that a fill closes**, unit by unit: `k` of its units are matched and `m'` are left,
and if some are left nothing opposes them. -/
theorem closeLots_units (hδ : qtyEps < δ) (hlots : ∀ lot ∈ lots, Whole δ lot.qty) (m : ℕ)
    (ms : List (LotUnit × LotUnit)) :
    ∃ k m', k + m' = m ∧ (closeLots 0 f (m * δ) lots).2.1 = m' * δ ∧
      (∀ lot ∈ (closeLots 0 f (m * δ) lots).2.2, Whole δ lot.qty) ∧
      (∀ t ∈ (closeLots 0 f (m * δ) lots).1, t.Clean δ) ∧
      (0 < m' → ∀ lot ∈ (closeLots 0 f (m * δ) lots).2.2.head?, lot.dir ≠ -f.side) ∧
      (List.replicate k f.unit).foldl (step LotUnit.dir) (units δ Lot.qty Lot.unit lots, ms)
        = (units δ Lot.qty Lot.unit (closeLots 0 f (m * δ) lots).2.2,
          ms ++ units δ Trade.qty Trade.unit (closeLots 0 f (m * δ) lots).1) := by
  have hpos : 0 < δ := qtyEps_pos.trans hδ
  induction lots generalizing m ms with
  | nil => exact ⟨0, m, Nat.zero_add m, rfl, by simp [closeLots], by simp [closeLots],
      by simp [closeLots], by simp [closeLots]⟩
  | cons lot lots ih =>
    obtain ⟨n, hn, hqty⟩ := hlots lot List.mem_cons_self
    have hrest : ∀ lot ∈ lots, Whole δ lot.qty := fun l hl ↦ hlots l (List.mem_cons_of_mem _ hl)
    by_cases hcond : lot.dir = -f.side ∧ (m * δ : ℚ) > qtyEps
    · have hm := (gt_qtyEps_iff hδ m).mp hcond.2
      have hopp : lot.unit.dir = -f.unit.dir := hcond.1
      rcases Nat.lt_or_ge m n with hlt | hge
      · -- the lot takes all of the fill and stays open
        rw [closeLots_cons_of_lt hδ hqty hcond hlt]
        refine ⟨m, 0, Nat.add_zero m, by simp, fun l hl ↦ ?_, fun t ht ↦ ?_,
          fun h ↦ absurd h (Nat.lt_irrefl 0), ?_⟩
        · rcases List.mem_cons.mp hl with rfl | hl
          · exact ⟨n - m, Nat.sub_pos_of_lt hlt, rfl⟩
          · exact hrest l hl
        · rw [List.mem_singleton.mp ht]
          exact clean_matchLot f lot hm
        · have hsplit : List.replicate n lot.unit
              = List.replicate m lot.unit ++ List.replicate (n - m) lot.unit := by
            rw [← List.replicate_add, Nat.add_sub_cancel' hlt.le]
          have hunit : Lot.unit { lot with qty := (n - m : ℕ) * δ } = lot.unit := rfl
          rw [units_cons, units_cons, units_matchLot hpos hcond.1, hunit, hqty,
            floor_mul_div hpos, floor_mul_div hpos, hsplit, List.append_assoc]
          exact foldl_step_replicate_of_opposes hopp m _ ms
      · -- the lot is closed, and the fill goes on with the next one
        obtain ⟨k, m', hsum, hleft, hopenLots, hclean, hhead, hfold⟩ :=
          ih hrest (m - n) (ms ++ List.replicate n (lot.unit, f.unit))
        rw [closeLots_cons_of_ge hδ hqty hcond hge]
        refine ⟨n + k, m', by omega, hleft, hopenLots, fun t ht ↦ ?_, hhead, ?_⟩
        · rcases List.mem_cons.mp ht with rfl | ht
          · exact clean_matchLot f lot hn
          · exact hclean t ht
        · have htrades : units δ Trade.qty Trade.unit
              (matchLot 0 f lot (n * δ) :: (closeLots 0 f ((m - n : ℕ) * δ) lots).1)
              = List.replicate n (lot.unit, f.unit)
                ++ units δ Trade.qty Trade.unit (closeLots 0 f ((m - n : ℕ) * δ) lots).1 := by
            rw [← List.singleton_append, units_append, units_matchLot hpos hcond.1]
          rw [List.replicate_add, List.foldl_append, units_cons, hqty, floor_mul_div hpos,
            foldl_step_replicate_of_opposes hopp, hfold, htrades, List.append_assoc]
    · rw [closeLots_cons_of_not hcond]
      refine ⟨0, m, Nat.zero_add m, rfl, hlots, by simp, fun hm l hl ↦ ?_, by simp⟩
      rintro heq
      obtain rfl : lot = l := by simpa using hl
      exact hcond ⟨heq, (gt_qtyEps_iff hδ m).mpr hm⟩

/-! ## Streams of fills -/

/-- The open lots and the trades are whole, and taken apart into units they are the queue and the
pairs of a run. -/
structure Matches (δ : Decimal) (s : List Lot × List Trade)
    (r : List LotUnit × List (LotUnit × LotUnit)) : Prop where
  lots : ∀ lot ∈ s.1, Whole δ lot.qty
  trades : ∀ t ∈ s.2, t.Clean δ
  lots_units : units δ Lot.qty Lot.unit s.1 = r.1
  trades_units : units δ Trade.qty Trade.unit s.2 = r.2

/-- One fill is as many steps of the run as it has units. -/
theorem Matches.next (hδ : qtyEps < δ) {s : List Lot × List Trade}
    {r : List LotUnit × List (LotUnit × LotUnit)} (h : Matches δ s r) (hf : f.InLots δ) :
    Matches δ (matchFill 0 s f)
      ((units δ Fill.qty Fill.unit [f]).foldl (step LotUnit.dir) r) := by
  have hpos : 0 < δ := qtyEps_pos.trans hδ
  obtain ⟨n, hn, hqty⟩ := hf.whole
  obtain ⟨k, m, hsum, hleft, hlots, hclean, hhead, hfold⟩ :=
    closeLots_units (f := f) hδ h.lots n (units δ Trade.qty Trade.unit s.2)
  have hshape : matchFill 0 s f
      = (if (closeLots 0 f (n * δ) s.1).2.1 > qtyEps
          then (closeLots 0 f (n * δ) s.1).2.2
            ++ [⟨f.ts, (closeLots 0 f (n * δ) s.1).2.1, f.px, f.side⟩]
          else (closeLots 0 f (n * δ) s.1).2.2, s.2 ++ (closeLots 0 f (n * δ) s.1).1) := by
    rw [← hqty]
    rfl
  have hunits : units δ Fill.qty Fill.unit [f]
      = List.replicate k f.unit ++ List.replicate m f.unit := by
    rw [units_singleton hpos hqty, ← List.replicate_add, hsum]
  have hr : r = (units δ Lot.qty Lot.unit s.1, units δ Trade.qty Trade.unit s.2) :=
    Prod.ext h.lots_units.symm h.trades_units.symm
  have htrades : ∀ t ∈ s.2 ++ (closeLots 0 f (n * δ) s.1).1, t.Clean δ := by
    intro t ht
    exact (List.mem_append.mp ht).elim (h.trades t) (hclean t)
  rw [hshape, hunits, hr, List.foldl_append, hfold, hleft]
  generalize closeLots 0 f (n * δ) s.1 = c at *
  rcases Nat.eq_zero_or_pos m with rfl | hm
  · -- the fill is used up
    rw [if_neg fun hgt ↦ absurd ((gt_qtyEps_iff hδ 0).mp hgt) (Nat.lt_irrefl 0)]
    exact ⟨hlots, htrades, rfl, units_append _ _⟩
  · -- what is left of it opens a lot
    have hhead' : ∀ e ∈ (units δ Lot.qty Lot.unit c.2.2).head?, e.dir ≠ -f.unit.dir := by
      rw [head?_units hpos hlots]
      intro e he
      obtain ⟨lot, hlot, rfl⟩ := Option.mem_map.mp he
      exact hhead hm lot hlot
    have hself : f.unit.dir ≠ -f.unit.dir := by
      change f.side ≠ -f.side
      have hside := hf.side
      omega
    rw [if_pos ((gt_qtyEps_iff hδ m).mpr hm),
      foldl_step_replicate_of_not_opposes hhead' hself]
    refine ⟨fun lot hlot ↦ ?_, htrades, ?_, units_append _ _⟩
    · rcases List.mem_append.mp hlot with hlot | hlot
      · exact hlots lot hlot
      · rw [List.mem_singleton.mp hlot]
        exact ⟨m, hm, rfl⟩
    · rw [units_append, units_cons, units_nil, List.append_nil, floor_mul_div hpos]
      rfl

/-- **The matching is first in, first out, of units.** -/
theorem matchAll_units (hδ : qtyEps < δ) {fills : List Fill} (hfills : ∀ f ∈ fills, f.InLots δ) :
    Matches δ (matchAll 0 fills) (run LotUnit.dir (units δ Fill.qty Fill.unit fills)) := by
  induction fills using List.reverseRecOn with
  | nil => exact ⟨by simp [matchAll], by simp [matchAll], rfl, rfl⟩
  | append_singleton fills f ih =>
    have hstep := (ih fun g hg ↦ hfills g (List.mem_append_left _ hg)).next hδ
      (hfills f (List.mem_append_right _ List.mem_cons_self))
    rw [matchAll, List.foldl_append, units_append, run, List.foldl_append]
    exact hstep

/-! ## Merging fills -/

theorem coalescePartialFills_concat (fills : List Fill) (f : Fill) :
    (∃ front p, coalescePartialFills fills = front ++ [p] ∧ p.side = f.side ∧ p.px = f.px ∧
      coalescePartialFills (fills ++ [f]) = front ++ [{ p with qty := p.qty + f.qty }]) ∨
    coalescePartialFills (fills ++ [f]) = coalescePartialFills fills ++ [f] := by
  simp only [coalescePartialFills, List.foldl_concat]
  generalize List.foldl _ [] fills = out
  cases hlast : out.getLast? with
  | none =>
    right
    simp only
    rw [List.getLast?_eq_none_iff.mp hlast, List.nil_append]
  | some p =>
    obtain ⟨front, hfront⟩ := List.getLast?_eq_some_iff.mp hlast
    simp only
    by_cases hsame : p.side = f.side ∧ p.px = f.px
    · refine .inl ⟨front, p, hfront, hsame.1, hsame.2, ?_⟩
      rw [if_pos hsame, hfront, List.dropLast_concat]
    · right
      rw [if_neg hsame]

theorem inLots_coalescePartialFills {fills : List Fill} (hfills : ∀ f ∈ fills, f.InLots δ) :
    ∀ f ∈ coalescePartialFills fills, f.InLots δ := by
  induction fills using List.reverseRecOn with
  | nil => exact fun f hf ↦ absurd hf List.not_mem_nil
  | append_singleton fills f ih =>
    have hbefore := ih fun g hg ↦ hfills g (List.mem_append_left _ hg)
    have hf := hfills f (List.mem_append_right _ List.mem_cons_self)
    intro g hg
    rcases coalescePartialFills_concat fills f with ⟨front, p, hfront, -, -, heq⟩ | heq
    · rw [heq] at hg
      rw [hfront] at hbefore
      rcases List.mem_append.mp hg with hg | hg
      · exact hbefore g (List.mem_append_left _ hg)
      · have hp := hbefore p (List.mem_append_right _ List.mem_cons_self)
        rw [List.mem_singleton.mp hg]
        exact ⟨hp.side, hp.whole.add hf.whole⟩
    · rw [heq] at hg
      rcases List.mem_append.mp hg with hg | hg
      · exact hbefore g hg
      · rw [List.mem_singleton.mp hg]
        exact hf

/-- A unit without its time. -/
def LotUnit.timeless (u : LotUnit) : Decimal × ℤ := (u.px, u.dir)

/-- **Merging fills changes nothing but the times of units.** -/
theorem units_coalescePartialFills (hδ : 0 < δ) {fills : List Fill}
    (hfills : ∀ f ∈ fills, f.InLots δ) :
    (units δ Fill.qty Fill.unit (coalescePartialFills fills)).map LotUnit.timeless
      = (units δ Fill.qty Fill.unit fills).map LotUnit.timeless := by
  induction fills using List.reverseRecOn with
  | nil => rfl
  | append_singleton fills f ih =>
    have hprior : ∀ g ∈ fills, g.InLots δ := fun g hg ↦ hfills g (List.mem_append_left _ hg)
    have ih := ih hprior
    rcases coalescePartialFills_concat fills f with ⟨front, p, hfront, hside, hpx, heq⟩ | heq
    · have hp : p ∈ coalescePartialFills fills := by
        rw [hfront]
        exact List.mem_append_right _ List.mem_cons_self
      obtain ⟨n, -, hn⟩ := (inLots_coalescePartialFills hprior p hp).whole
      obtain ⟨n', -, hn'⟩ := (hfills f (List.mem_append_right _ List.mem_cons_self)).whole
      have hqty : p.qty + f.qty = (n + n' : ℕ) * δ := by
        rw [hn, hn']
        push_cast
        ring
      have hkind : f.unit.timeless = p.unit.timeless := by
        simp only [LotUnit.timeless, Fill.unit, hside, hpx]
      have hmerged : units δ Fill.qty Fill.unit [{ p with qty := p.qty + f.qty }]
          = List.replicate (n + n') p.unit := units_singleton hδ hqty
      rw [hfront] at ih
      rw [heq, units_append, List.map_append, units_append, List.map_append, ← ih, units_append,
        List.map_append, List.append_assoc, hmerged, units_singleton hδ hn,
        units_singleton hδ hn', List.map_replicate, List.map_replicate, List.map_replicate, hkind,
        List.replicate_add]
    · rw [heq, units_append, units_append, List.map_append, List.map_append, ih]

/-! ## Cash and exposure -/

variable {s : List Lot × List Trade} {fills : List Fill}

/-- The cash of a unit, counted as it is bought. -/
def LotUnit.cash (u : LotUnit) : Decimal := u.dir * u.px

/-- What a pair of units earns. -/
def earned (m : LotUnit × LotUnit) : Decimal := (m.2.px - m.1.px) * m.1.dir

theorem Matches.sum_pnl {r : List LotUnit × List (LotUnit × LotUnit)} (hδ : 0 < δ)
    (h : Matches δ s r) : (s.2.map Trade.pnl).sum = δ * (r.2.map earned).sum := by
  have hpnl : s.2.map Trade.pnl = s.2.map fun t ↦ t.qty * earned t.unit :=
    List.map_congr_left fun t ht ↦ (h.trades t ht).pnl_eq
  rw [hpnl, sum_units hδ earned fun t ht ↦ (h.trades t ht).whole, h.trades_units]

theorem sum_foldl (v : Fill → Decimal) (fills : List Fill) (a : Decimal) :
    fills.foldl (fun a f ↦ a + v f) a = a + (fills.map v).sum := by
  induction fills generalizing a with
  | nil => simp
  | cons f fills ih =>
    rw [List.foldl_cons, ih, List.map_cons, List.sum_cons, add_assoc]

theorem net_eq (hδ : 0 < δ) (hfills : ∀ f ∈ fills, f.InLots δ) :
    fills.foldl (fun (net : Decimal) f ↦ net + (f.side : Decimal) * f.qty) 0
      = δ * ((units δ Fill.qty Fill.unit fills).map fun u ↦ (u.dir : Decimal)).sum := by
  rw [sum_foldl, zero_add, ← sum_units hδ _ fun f hf ↦ (hfills f hf).whole]
  refine congrArg List.sum (List.map_congr_left fun f _ ↦ ?_)
  exact mul_comm _ _

theorem openExposure_coalescePartialFills (hδ : 0 < δ) (hfills : ∀ f ∈ fills, f.InLots δ) :
    openExposure (coalescePartialFills fills) = openExposure fills := by
  have hunits := congrArg (List.map fun k : Decimal × ℤ ↦ (k.2 : Decimal))
    (units_coalescePartialFills hδ hfills)
  rw [List.map_map, List.map_map] at hunits
  have hnet : (coalescePartialFills fills).foldl
      (fun (net : Decimal) f ↦ net + (f.side : Decimal) * f.qty) 0
      = fills.foldl (fun (net : Decimal) f ↦ net + (f.side : Decimal) * f.qty) 0 := by
    rw [net_eq hδ (inLots_coalescePartialFills hfills), net_eq hδ hfills]
    exact congrArg (fun l : List Decimal ↦ δ * l.sum) hunits
  simp only [openExposure, hnet]

theorem sum_pnl_coalescePartialFills (hδ : qtyEps < δ) (hfills : ∀ f ∈ fills, f.InLots δ) :
    ((matchAll 0 (coalescePartialFills fills)).2.map Trade.pnl).sum
      = ((matchAll 0 fills).2.map Trade.pnl).sum := by
  have hpos : 0 < δ := qtyEps_pos.trans hδ
  have hmerged := matchAll_units hδ (inLots_coalescePartialFills hfills)
  have hplain := matchAll_units hδ hfills
  have hdir : ∀ u : LotUnit, u.timeless.2 = u.dir := fun _ ↦ rfl
  have hearned : ∀ us : List LotUnit, ((run LotUnit.dir us).2.map earned)
      = (run Prod.snd (us.map LotUnit.timeless)).2.map
          fun m ↦ (m.2.1 - m.1.1) * (m.1.2 : Decimal) := by
    intro us
    rw [run_map hdir, List.map_map]
    rfl
  rw [hmerged.sum_pnl hpos, hplain.sum_pnl hpos, hearned, hearned,
    units_coalescePartialFills hpos hfills]

/-- **Cash is conserved** by the matching of a stream of fills. -/
theorem sum_pnl_matchAll (hδ : qtyEps < δ) (hfills : ∀ f ∈ fills, f.InLots δ) :
    ((matchAll 0 fills).2.map Trade.pnl).sum
      = -(fills.map Fill.cash).sum
        + ((matchAll 0 fills).1.map Lot.cost).sum := by
  have hpos : 0 < δ := qtyEps_pos.trans hδ
  have hmatches := matchAll_units hδ hfills
  have hsum := run_sum LotUnit.dir LotUnit.cash (units δ Fill.qty Fill.unit fills)
  have hpairs : ((run LotUnit.dir (units δ Fill.qty Fill.unit fills)).2.map earned)
      = ((run LotUnit.dir (units δ Fill.qty Fill.unit fills)).2.map
          fun m ↦ m.1.cash + m.2.cash).map fun x ↦ -x := by
    rw [List.map_map]
    refine List.map_congr_left fun m hm ↦ ?_
    have hopp : m.1.dir = -m.2.dir := run_opposes hm
    simp only [earned, LotUnit.cash, hopp, Function.comp_apply]
    push_cast
    ring
  have hlots : ((matchAll 0 fills).1.map Lot.cost).sum
      = δ * ((run LotUnit.dir (units δ Fill.qty Fill.unit fills)).1.map LotUnit.cash).sum := by
    rw [← hmatches.lots_units, ← sum_units hpos _ hmatches.lots]
    refine congrArg List.sum (List.map_congr_left fun lot _ ↦ ?_)
    simp only [Lot.cost, LotUnit.cash, Lot.unit]
    ring
  have hcash : (fills.map Fill.cash).sum
      = δ * ((units δ Fill.qty Fill.unit fills).map LotUnit.cash).sum := by
    rw [← sum_units hpos _ fun f hf ↦ (hfills f hf).whole]
    refine congrArg List.sum (List.map_congr_left fun f _ ↦ ?_)
    simp only [Fill.cash, LotUnit.cash, Fill.unit]
    ring
  rw [hmatches.sum_pnl hpos, hpairs, ← List.sum_neg, hlots, hcash, ← hsum]
  ring

theorem aligned_matchAll (hδ : qtyEps < δ) (hfills : ∀ f ∈ fills, f.InLots δ) :
    ∀ a ∈ (matchAll 0 fills).1, ∀ b ∈ (matchAll 0 fills).1, a.dir = b.dir := by
  have hpos : 0 < δ := qtyEps_pos.trans hδ
  have hmatches := matchAll_units hδ hfills
  have hsides : ∀ u ∈ units δ Fill.qty Fill.unit fills, u.dir = 1 ∨ u.dir = -1 := by
    intro u hu
    obtain ⟨f, hf, rfl⟩ := mem_of_mem_units hu
    exact (hfills f hf).side
  intro a ha b hb
  have hunit : ∀ lot ∈ (matchAll 0 fills).1,
      lot.unit ∈ (run LotUnit.dir (units δ Fill.qty Fill.unit fills)).1 := by
    intro lot hlot
    rw [← hmatches.lots_units]
    exact mem_units hpos hlot (hmatches.lots lot hlot)
  exact run_aligned hsides _ (hunit a ha) _ (hunit b hb)

theorem sum_qty_dir {lots : List Lot} {d : ℤ} (hdir : ∀ lot ∈ lots, lot.dir = d) :
    (lots.map fun lot ↦ lot.qty * (lot.unit.dir : Decimal)).sum = d * (lots.map Lot.qty).sum := by
  rw [← List.sum_map_mul_left]
  refine congrArg List.sum (List.map_congr_left fun lot hlot ↦ ?_)
  rw [Lot.unit, hdir lot hlot, mul_comm]

/-- The pairs cancel, so the net quantity of the fills is that of what is open. -/
theorem net_matchAll (hδ : qtyEps < δ) (hfills : ∀ f ∈ fills, f.InLots δ) :
    fills.foldl (fun (net : Decimal) f ↦ net + (f.side : Decimal) * f.qty) 0
      = ((matchAll 0 fills).1.map fun lot ↦ lot.qty * (lot.unit.dir : Decimal)).sum := by
  have hpos : 0 < δ := qtyEps_pos.trans hδ
  have hmatches := matchAll_units hδ hfills
  have hsum := run_sum LotUnit.dir (fun u : LotUnit ↦ (u.dir : Decimal))
    (units δ Fill.qty Fill.unit fills)
  have hpairs : ((run LotUnit.dir (units δ Fill.qty Fill.unit fills)).2.map
      fun m ↦ (m.1.dir : Decimal) + m.2.dir).sum = 0 := by
    refine List.sum_eq_zero fun x hx ↦ ?_
    obtain ⟨m, hm, rfl⟩ := List.mem_map.mp hx
    have hopp : m.1.dir = -m.2.dir := run_opposes hm
    rw [hopp]
    push_cast
    ring
  rw [hpairs, add_zero, ← hmatches.lots_units] at hsum
  rw [net_eq hpos hfills, ← hsum, ← sum_units hpos _ hmatches.lots]

theorem dir_of_mem_matchAll (hδ : qtyEps < δ) (hfills : ∀ f ∈ fills, f.InLots δ) {lot : Lot}
    (hlot : lot ∈ (matchAll 0 fills).1) : lot.dir = 1 ∨ lot.dir = -1 := by
  have hmatches := matchAll_units hδ hfills
  have hunit : lot.unit ∈ units δ Lot.qty Lot.unit (matchAll 0 fills).1 :=
    mem_units (qtyEps_pos.trans hδ) hlot (hmatches.lots lot hlot)
  rw [hmatches.lots_units] at hunit
  obtain ⟨f, hf, heq⟩ := mem_of_mem_units (mem_of_mem_run hunit)
  have hdir : f.side = lot.dir := congrArg LotUnit.dir heq
  rw [← hdir]
  exact (hfills f hf).side

theorem qtyEps_lt_sum (hδ : qtyEps < δ) {lots : List Lot} (hne : lots ≠ [])
    (hlots : ∀ lot ∈ lots, Whole δ lot.qty) : qtyEps < (lots.map Lot.qty).sum := by
  obtain ⟨lot, lots, rfl⟩ := List.exists_cons_of_ne_nil hne
  have hnonneg : ∀ q ∈ lots.map Lot.qty, 0 ≤ q := by
    intro q hq
    obtain ⟨l, hl, rfl⟩ := List.mem_map.mp hq
    obtain ⟨n, -, hn⟩ := hlots l (List.mem_cons_of_mem _ hl)
    rw [hn]
    exact mul_nonneg (Nat.cast_nonneg n) (qtyEps_pos.trans hδ).le
  obtain ⟨n, hn, hqty⟩ := hlots lot List.mem_cons_self
  have hlot : qtyEps < lot.qty := by
    rw [hqty]
    exact (gt_qtyEps_iff hδ n).mpr hn
  rw [List.map_cons, List.sum_cons]
  exact hlot.trans_le (le_add_of_nonneg_right (List.sum_nonneg hnonneg))

/-- What is open is the exposure: the lots have its direction and its size. -/
theorem openExposure_matchAll (hδ : qtyEps < δ) (hfills : ∀ f ∈ fills, f.InLots δ) :
    (openExposure fills).2 = ((matchAll 0 fills).1.map Lot.qty).sum ∧
      (∀ lot ∈ (matchAll 0 fills).1, lot.dir = (openExposure fills).1) ∧
      ((openExposure fills).1 = 0 ↔ (matchAll 0 fills).1 = []) := by
  have hnet := net_matchAll hδ hfills
  by_cases hne : (matchAll 0 fills).1 = []
  · rw [hne, List.map_nil, List.sum_nil] at hnet
    have hflat : openExposure fills = (0, 0) := by
      simp only [openExposure, hnet]
      rw [abs_zero, if_pos qtyEps_pos.le]
    simp [hflat, hne]
  · obtain ⟨lot, hmem⟩ := List.exists_mem_of_ne_nil _ hne
    have hdir : ∀ l ∈ (matchAll 0 fills).1, l.dir = lot.dir :=
      fun l hl ↦ aligned_matchAll hδ hfills l hl lot hmem
    have hside : lot.dir = 1 ∨ lot.dir = -1 := dir_of_mem_matchAll hδ hfills hmem
    have hsize := qtyEps_lt_sum hδ hne (matchAll_units hδ hfills).lots
    have hpositive := qtyEps_pos.trans hsize
    rw [sum_qty_dir hdir] at hnet
    have hopen : openExposure fills = (lot.dir, ((matchAll 0 fills).1.map Lot.qty).sum) := by
      simp only [openExposure, hnet]
      rcases hside with hlong | hshort
      · rw [hlong, Int.cast_one, one_mul, abs_of_pos hpositive, if_neg (not_le.mpr hsize),
          if_pos hpositive]
      · rw [hshort, Int.cast_neg, Int.cast_one, neg_one_mul, abs_neg, abs_of_pos hpositive,
          if_neg (not_le.mpr hsize), if_neg (by linarith)]
    rw [hopen]
    refine ⟨rfl, hdir, ?_⟩
    simp only [hne, iff_false]
    omega

/-! ## The guarantees -/

/-- What the round trips of a stream of fills account for, in units of size `δ`. -/
structure Accounted (δ : Decimal) (fills : List Fill) : Prop where
  pnl_eq : ((reconstructTrades 0 fills).map Trade.pnl).sum
    = -(fills.map Fill.cash).sum + ((openLots 0 fills).map Lot.cost).sum
  aligned : ∀ a ∈ openLots 0 fills, ∀ b ∈ openLots 0 fills, a.dir = b.dir
  exposure_size : ((openLots 0 fills).map Lot.qty).sum = (openExposure fills).2
  exposure_dir : ∀ lot ∈ openLots 0 fills, lot.dir = (openExposure fills).1
  exposure_flat : (openExposure fills).1 = 0 ↔ openLots 0 fills = []
  /-- A unit is open, or it is one of the two of one pair. -/
  once : (units δ Lot.qty Lot.unit (openLots 0 fills)
      ++ (units δ Trade.qty Trade.unit (reconstructTrades 0 fills)).flatMap fun m ↦ [m.1, m.2]).Perm
    (units δ Fill.qty Fill.unit (coalescePartialFills fills))
  /-- Units are closed in the order in which they were opened, and those that are still open came
  last. -/
  oldest : ((units δ Trade.qty Trade.unit (reconstructTrades 0 fills)).map Prod.fst
      ++ units δ Lot.qty Lot.unit (openLots 0 fills)).Sublist
    (units δ Fill.qty Fill.unit (coalescePartialFills fills))
  /-- Units close others in the order in which they came. -/
  exits : ((units δ Trade.qty Trade.unit (reconstructTrades 0 fills)).map Prod.snd).Sublist
    (units δ Fill.qty Fill.unit (coalescePartialFills fills))
  /-- Without the merging of fills, the profit is the same. -/
  pnl_unmerged : ((reconstructTrades 0 fills).map Trade.pnl).sum
    = ((matchAll 0 fills).2.map Trade.pnl).sum
  /-- Without it, the same is open, and the merged fills have the same exposure. -/
  open_unmerged : ((openLots 0 fills).map Lot.qty).sum = ((matchAll 0 fills).1.map Lot.qty).sum
  exposure_unmerged : openExposure (coalescePartialFills fills) = openExposure fills

/-- **The round trips account for the cash, the position and every unit.** -/
theorem accounted (hδ : qtyEps < δ) (hfills : ∀ f ∈ fills, f.InLots δ) : Accounted δ fills := by
  have hpos : 0 < δ := qtyEps_pos.trans hδ
  have hmerged := inLots_coalescePartialFills hfills
  have hmatches := matchAll_units hδ hmerged
  obtain ⟨hsize, hdir, hflat⟩ := openExposure_matchAll hδ hmerged
  have hexposure := openExposure_coalescePartialFills hpos hfills
  rw [hexposure] at hsize hdir hflat
  have hlots : units δ Lot.qty Lot.unit (openLots 0 fills) = _ := hmatches.lots_units
  have htrades : units δ Trade.qty Trade.unit (reconstructTrades 0 fills) = _ :=
    hmatches.trades_units
  -- merging leaves the cash of the fills and the cost of the open lots as they are
  have hpnl : ((reconstructTrades 0 fills).map Trade.pnl).sum = _ := sum_pnl_matchAll hδ hmerged
  have hcash : ∀ {l : List Fill}, (∀ f ∈ l, f.InLots δ) → (l.map Fill.cash).sum
      = δ * (((units δ Fill.qty Fill.unit l).map LotUnit.timeless).map
        fun k ↦ (k.2 : Decimal) * k.1).sum := by
    intro l hl
    rw [List.map_map, ← sum_units hpos _ fun f hf ↦ (hl f hf).whole]
    refine congrArg List.sum (List.map_congr_left fun f _ ↦ ?_)
    simp only [Fill.cash, Fill.unit, LotUnit.timeless, Function.comp_apply]
    ring
  refine ⟨?_, aligned_matchAll hδ hmerged, hsize.symm, hdir, hflat, ?_, ?_, ?_,
    sum_pnl_coalescePartialFills hδ hfills, ?_, hexposure⟩
  · rw [hpnl, hcash hmerged, units_coalescePartialFills hpos hfills, ← hcash hfills]
    rfl
  · rw [hlots, htrades]
    exact run_perm _
  · rw [hlots, htrades]
    exact run_entries_sublist _
  · rw [htrades]
    exact run_exits_sublist _
  · exact hsize.symm.trans (openExposure_matchAll hδ hfills).1

section Instances

/-- A buy in two parts at one price, another buy, and a sell of more than both. -/
def flipped : List Fill :=
  [⟨1, 1, 2, 10⟩, ⟨2, 1, 1, 10⟩, ⟨3, 1, 2, 12⟩, ⟨4, -1, 7, 15⟩]

theorem accounted_flipped :
    Accounted 1 flipped ∧ (reconstructTrades 0 flipped).map Trade.pnl = [15, 6] ∧
      openLots 0 flipped = [⟨4, 2, 15, -1⟩] ∧ openExposure flipped = (-1, 2) := by
  have hfills : ∀ f ∈ flipped, f.InLots 1 := by
    intro f hf
    simp only [flipped, List.mem_cons, List.not_mem_nil, or_false] at hf
    rcases hf with rfl | rfl | rfl | rfl
    · exact ⟨.inl rfl, 2, by decide, by norm_num⟩
    · exact ⟨.inl rfl, 1, by decide, by norm_num⟩
    · exact ⟨.inl rfl, 2, by decide, by norm_num⟩
    · exact ⟨.inr rfl, 7, by decide, by norm_num⟩
  exact ⟨accounted (by norm_num [qtyEps]) hfills, by decide +kernel, by decide +kernel,
    by decide +kernel⟩

end Instances

end Analytics

end Coinext
