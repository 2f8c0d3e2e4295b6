import Coinext.Model.Pnl
import Mathlib.Data.Set.Finite.Lemmas

/-!
# What a position stands for

A position is an exposure: a net size, and the fills that made it. The fills that count are those
that opened or added to the exposure since it was last flat or last changed sign, so a reduction
keeps them all, a close forgets them, and a fill that takes the position through zero is the only
entry of the exposure it leaves. `Exposure` keeps this book from the fills alone.

`Represents` says that a position shows such an exposure: its side, its size and its average agree
on when it is flat, its signed size is the net size, and its average entry lies among the prices
paid for what is open. The average is rounded again at every add; it stays among the prices because
they are on the grid it is rounded to.
-/

namespace Coinext

namespace Position

/-! ## Exposures -/

/-- A net size and the fills that opened it or added to it. -/
structure Exposure where
  net : Decimal
  entries : List Fill

/-- No exposure. -/
def Exposure.none : Exposure := ⟨0, []⟩

/-- The exposure after one more fill. -/
def Exposure.trade (e : Exposure) (f : Fill) : Exposure where
  net := e.net + f.signedQty
  entries :=
    if e.net = 0 then [f]
    else if 0 < e.net * f.signedQty then e.entries ++ [f]
    else if |e.net| < |f.signedQty| then [f]
    else if e.net + f.signedQty = 0 then []
    else e.entries

/-- The prices paid for what is open. -/
def Exposure.prices (e : Exposure) : Set Decimal := {px | ∃ f ∈ e.entries, f.lastPx.asDecimal = px}

/-- The position shows the exposure. -/
structure Represents (pos : Position) (e : Exposure) : Prop where
  side_iff_quantity : pos.side = .flat ↔ pos.quantity.raw = 0
  quantity_iff_avg : pos.quantity.raw = 0 ↔ pos.avgPxOpen.raw = 0
  signed : pos.signed = e.net
  avg : pos.side ≠ .flat → ∃ lo hi, IsLeast e.prices lo ∧ IsGreatest e.prices hi ∧
    lo ≤ pos.avgPxOpen.asDecimal ∧ pos.avgPxOpen.asDecimal ≤ hi

/-! ## Exposures and positions -/

theorem mul_pos_iff_same {a b : Decimal} (ha : a ≠ 0) (hb : b ≠ 0) :
    0 < a * b ↔ (0 < a ↔ 0 < b) := by
  rcases lt_or_gt_of_ne ha with hneg | hpos
  · simp only [mul_pos_iff, hneg, hneg.not_gt, false_and, true_and, false_or, false_iff, not_lt]
    exact ⟨le_of_lt, fun h ↦ h.lt_of_ne hb⟩
  · rw [mul_pos_iff_of_pos_left hpos, iff_true_left hpos]

section Meeting

variable {pos : Position} {e : Exposure} {f : Fill}

/-- The exposure and the position read a fill the same way. -/
theorem Exposure.entries_trade (hnet : pos.signed = e.net) (hq : 0 < f.lastQty.asDecimal) :
    (e.trade f).entries =
      match pos.meeting f with
      | .opens => [f]
      | .adds => e.entries ++ [f]
      | .opposes =>
        if f.lastQty.asDecimal > |pos.signed| then [f]
        else if pos.signed + f.signedQty = 0 then [] else e.entries := by
  have hfill : f.signedQty ≠ 0 := by
    rw [← abs_pos, abs_signedQty]
    exact hq
  unfold Exposure.trade meeting
  rw [← hnet]
  by_cases h0 : pos.signed = 0
  · simp only [if_pos h0]
  · have hdir : 0 < pos.signed * f.signedQty ↔
        (decide (pos.signed > 0) == decide (f.signedQty > 0)) = true := by
      rw [beq_iff_eq, decide_eq_decide]
      exact mul_pos_iff_same h0 hfill
    simp only [if_neg h0, hdir, abs_signedQty]
    split_ifs <;> rfl

theorem Exposure.between {a b x : Decimal} (ha : a ∈ e.prices) (hb : b ∈ e.prices) (hax : a ≤ x)
    (hxb : x ≤ b) : ∃ lo hi, IsLeast e.prices lo ∧ IsGreatest e.prices hi ∧ lo ≤ x ∧ x ≤ hi := by
  have hfinite : e.prices.Finite := by
    refine (List.finite_toSet (e.entries.map fun f ↦ f.lastPx.asDecimal)).subset ?_
    rintro px ⟨f, hf, rfl⟩
    exact List.mem_map.mpr ⟨f, hf, rfl⟩
  obtain ⟨lo, hlo, hleast⟩ := Set.exists_min_image _ id hfinite ⟨a, ha⟩
  obtain ⟨hi, hhi, hgreatest⟩ := Set.exists_max_image _ id hfinite ⟨a, ha⟩
  exact ⟨lo, hi, ⟨hlo, hleast⟩, ⟨hhi, hgreatest⟩, (hleast a ha).trans hax,
    hxb.trans (hgreatest b hb)⟩

theorem Represents.newAvg (h : Represents pos e) (hq : 0 < f.lastQty.asDecimal)
    (hopen : pos.signed + f.signedQty ≠ 0) :
    ∃ a ∈ (e.trade f).prices, ∃ b ∈ (e.trade f).prices, a ≤ pos.newAvg f ∧ pos.newAvg f ≤ b := by
  have hentries := Exposure.entries_trade h.signed hq
  have hbounds : pos.signed ≠ 0 → ∃ lo ∈ e.prices, ∃ hi ∈ e.prices,
      lo ≤ pos.avgPxOpen.asDecimal ∧ pos.avgPxOpen.asDecimal ≤ hi := by
    intro h0
    have hside : pos.side ≠ .flat := fun hflat ↦ h0 (by rw [Position.signed, hflat])
    obtain ⟨lo, hi, hlo, hhi, hle⟩ := h.avg hside
    exact ⟨lo, hlo.1, hi, hhi.1, hle⟩
  cases hmeet : pos.meeting f with
  | opens =>
    rw [hmeet] at hentries
    have hf : f.lastPx.asDecimal ∈ (e.trade f).prices := ⟨f, by simp [hentries], rfl⟩
    rw [Position.newAvg, hmeet]
    exact ⟨_, hf, _, hf, le_rfl, le_rfl⟩
  | adds =>
    obtain ⟨lo, ⟨g, hg, rfl⟩, hi, ⟨k, hk, rfl⟩, hlo, hhi⟩ := hbounds (sign_of_adds hmeet).1
    rw [hmeet] at hentries
    have hmem : ∀ x ∈ e.entries ++ [f], x.lastPx.asDecimal ∈ (e.trade f).prices :=
      fun x hx ↦ ⟨x, by rwa [hentries], rfl⟩
    have hf := hmem f (by simp)
    refine ⟨min g.lastPx.asDecimal f.lastPx.asDecimal, ?_, max k.lastPx.asDecimal
      f.lastPx.asDecimal, ?_, le_newAvg_of_adds hmeet ((min_le_left _ _).trans hlo)
      (min_le_right _ _), newAvg_le_of_adds hmeet (hhi.trans (le_max_left _ _)) (le_max_right _ _)⟩
    · rcases min_choice g.lastPx.asDecimal f.lastPx.asDecimal with hmin | hmin
      · rw [hmin]
        exact hmem g (by simp [hg])
      · rwa [hmin]
    · rcases max_choice k.lastPx.asDecimal f.lastPx.asDecimal with hmax | hmax
      · rw [hmax]
        exact hmem k (by simp [hk])
      · rwa [hmax]
  | opposes =>
    rw [hmeet] at hentries
    simp only at hentries
    rw [Position.newAvg, hmeet]
    by_cases hflip : f.lastQty.asDecimal > |pos.signed|
    · rw [if_pos hflip] at hentries
      have hf : f.lastPx.asDecimal ∈ (e.trade f).prices := ⟨f, by simp [hentries], rfl⟩
      simp only [if_pos hflip]
      exact ⟨_, hf, _, hf, le_rfl, le_rfl⟩
    · -- a reduction keeps both the average and the fills it is made of
      rw [if_neg hflip, if_neg hopen] at hentries
      obtain ⟨lo, ⟨g, hg, rfl⟩, hi, ⟨k, hk, rfl⟩, hle⟩ := hbounds (sign_of_opposes hmeet).1
      simp only [if_neg hflip]
      exact ⟨_, ⟨g, by rwa [hentries], rfl⟩, _, ⟨k, by rwa [hentries], rfl⟩, hle⟩

end Meeting

/-! ## Runs of fills -/

section Run

variable [DecimalWidth] {pricePrecision sizePrecision : ℕ} {pos : Position} {e : Exposure}

/-- A fill with a positive price and a positive size at the given precisions. -/
structure AtPrecision (pricePrecision sizePrecision : ℕ) (f : Fill) : Prop where
  px_pos : 0 < f.lastPx.raw
  px_precision : f.lastPx.precision = pricePrecision
  qty_pos : 0 < f.lastQty.raw
  qty_precision : f.lastQty.precision = sizePrecision

instance (pricePrecision sizePrecision : ℕ) (f : Fill) :
    Decidable (AtPrecision pricePrecision sizePrecision f) :=
  decidable_of_iff (0 < f.lastPx.raw ∧ f.lastPx.precision = pricePrecision ∧ 0 < f.lastQty.raw ∧
      f.lastQty.precision = sizePrecision)
    ⟨fun h ↦ ⟨h.1, h.2.1, h.2.2.1, h.2.2.2⟩, fun h ↦ ⟨h.1, h.2, h.3, h.4⟩⟩

omit [DecimalWidth] in
theorem AtPrecision.qty_asDecimal {f : Fill} (h : AtPrecision pricePrecision sizePrecision f) :
    0 < f.lastQty.asDecimal :=
  mul_pos (Nat.cast_pos.mpr h.qty_pos) (ulp_pos _)

/-- What a run keeps: the position shows the exposure, at its precisions. -/
structure Shows (pricePrecision sizePrecision : ℕ) (pos : Position) (e : Exposure) : Prop where
  represents : Represents pos e
  priceAt : pos.pricePrecision = pricePrecision
  sizeAt : pos.sizePrecision = sizePrecision
  quantityAt : pos.quantity.precision = sizePrecision
  entriesAt : ∀ f ∈ e.entries, AtPrecision pricePrecision sizePrecision f

omit [DecimalWidth] in
theorem shows_flat (positionId : PositionId) (instrumentId : InstrumentId)
    (pricePrecision sizePrecision : ℕ) (settlement : Currency) :
    Shows pricePrecision sizePrecision
      (flat positionId instrumentId pricePrecision sizePrecision settlement) Exposure.none where
  represents := ⟨iff_of_true rfl rfl, iff_of_true rfl rfl, rfl, fun h ↦ absurd rfl h⟩
  priceAt := rfl
  sizeAt := rfl
  quantityAt := rfl
  entriesAt := fun _ hf ↦ absurd hf List.not_mem_nil

omit [DecimalWidth] in
theorem Exposure.mem_entries_trade {f g : Fill} (hg : g ∈ (e.trade f).entries) :
    g ∈ e.entries ∨ g = f := by
  unfold Exposure.trade at hg
  split_ifs at hg
  · exact .inr (List.mem_singleton.mp hg)
  · simpa using hg
  · exact .inr (List.mem_singleton.mp hg)
  · exact absurd hg List.not_mem_nil
  · exact .inl hg

omit [DecimalWidth] in
theorem Shows.entriesAt_trade {f : Fill} (h : Shows pricePrecision sizePrecision pos e)
    (hf : AtPrecision pricePrecision sizePrecision f) :
    ∀ g ∈ (e.trade f).entries, AtPrecision pricePrecision sizePrecision g := by
  intro g hg
  rcases Exposure.mem_entries_trade hg with hold | rfl
  · exact h.entriesAt g hold
  · exact hf

/-- Rounding the average leaves it positive and among the prices paid, which are on the grid. -/
theorem Shows.rounded_avg {f : Fill} {px : Price} (h : Shows pricePrecision sizePrecision pos e)
    (hf : AtPrecision pricePrecision sizePrecision f) (hopen : pos.signed + f.signedQty ≠ 0)
    (havg : Price.fromDecimal (pos.newAvg f) pricePrecision = .ok px) :
    px.raw ≠ 0 ∧ ∃ lo hi, IsLeast (e.trade f).prices lo ∧ IsGreatest (e.trade f).prices hi ∧
      lo ≤ px.asDecimal ∧ px.asDecimal ≤ hi := by
  obtain ⟨-, -, -, -, rfl⟩ := Price.fromDecimal_eq_ok_iff.mp havg
  obtain ⟨_, ⟨g, hg, rfl⟩, _, ⟨k, hk, rfl⟩, hlow, hhigh⟩ :=
    h.represents.newAvg hf.qty_asDecimal hopen
  have hentries := h.entriesAt_trade hf
  have hg_le : g.lastPx.raw ≤ mantissa (pos.newAvg f) pricePrecision := by
    refine le_mantissa ?_
    rw [← (hentries g hg).px_precision]
    exact hlow
  have hle_k : mantissa (pos.newAvg f) pricePrecision ≤ k.lastPx.raw := by
    refine mantissa_le ?_
    rw [← (hentries k hk).px_precision]
    exact hhigh
  refine ⟨((hentries g hg).px_pos.trans_le hg_le).ne', Exposure.between ⟨g, hg, rfl⟩ ⟨k, hk, rfl⟩
    ?_ ?_⟩
  · exact (Price.asDecimal_le_iff (hentries g hg).px_precision).mpr
      ((Price.le_iff (hentries g hg).px_precision).mpr hg_le)
  · exact (Price.asDecimal_le_iff (hentries k hk).px_precision.symm).mpr
      ((Price.le_iff (hentries k hk).px_precision.symm).mpr hle_k)

omit [DecimalWidth] in
theorem sideOf_eq_flat_iff {s : Decimal} : sideOf s = .flat ↔ s = 0 := by
  unfold sideOf
  split_ifs with h0 <;> simp [h0]

/-- **One fill.** After a successful call the position shows the exposure after the fill. -/
theorem Shows.applied {inst : Instrument} {f : Fill} (h : Shows pricePrecision sizePrecision pos e)
    (hf : AtPrecision pricePrecision sizePrecision f) (hok : FoldOk inst pos f) :
    Shows pricePrecision sizePrecision (pos.applied inst f) (e.trade f) := by
  obtain ⟨pnl, q, px, -, hqty, havg, hpos'⟩ :=
    applyFill_eq_ok_iff.mp (show (applyFill f inst).exec pos = (.ok (), pos.applied inst f) from
      Prod.ext hok rfl)
  have hmagnitude : q.asDecimal = |pos.signed + f.signedQty| := by
    refine Quantity.asDecimal_fromDecimal hqty ?_
    rw [h.sizeAt]
    exact ((h.quantityAt ▸ pos.onGrid_signed).add
      (Fill.onGrid_signedQty (hf.qty_precision ▸ f.lastQty.onGrid_asDecimal))).abs
  have hq0 : q.raw = 0 ↔ pos.signed + f.signedQty = 0 := by
    rw [← abs_eq_zero, ← hmagnitude, Quantity.asDecimal, mul_eq_zero,
      or_iff_left (ulp_pos _).ne', Nat.cast_eq_zero]
  have hqp : q.precision = sizePrecision := by
    obtain ⟨-, -, -, -, rfl⟩ := Quantity.fromDecimal_eq_ok_iff.mp hqty
    exact h.sizeAt
  have hsigned : (pos.applied inst f).signed = (e.trade f).net := by
    rw [Exposure.trade, ← h.represents.signed]
    exact signed_of_sideOf (by rw [hpos']) (by rw [hpos']; exact hmagnitude)
  rw [hpos'] at hsigned ⊢
  refine ⟨⟨sideOf_eq_flat_iff.trans hq0.symm, ?_, hsigned, ?_⟩, h.priceAt, h.sizeAt, hqp,
    h.entriesAt_trade hf⟩
  · rw [hq0]
    by_cases h0 : pos.signed + f.signedQty = 0
    · rw [quantizeAvg, if_pos (sideOf_eq_flat_iff.mpr h0), Except.ok.injEq] at havg
      exact iff_of_true h0 (havg ▸ rfl)
    · rw [quantizeAvg, if_neg (mt sideOf_eq_flat_iff.mp h0), h.priceAt] at havg
      exact iff_of_false h0 (h.rounded_avg hf h0 havg).1
  · intro hside
    have h0 := mt sideOf_eq_flat_iff.mpr hside
    rw [quantizeAvg, if_neg hside, h.priceAt] at havg
    exact (h.rounded_avg hf h0 havg).2

/-- A call, with the instrument it is given. -/
def step (pos : Position) (call : Fill × Instrument) : Position := pos.applied call.2 call.1

theorem Shows.foldl {calls : List (Fill × Instrument)}
    (h : Shows pricePrecision sizePrecision pos e)
    (hfills : ∀ call ∈ calls, AtPrecision pricePrecision sizePrecision call.1)
    (hok : Along step (fun p call ↦ FoldOk call.2 p call.1) pos calls) :
    Shows pricePrecision sizePrecision (calls.foldl step pos)
      ((calls.map Prod.fst).foldl Exposure.trade e) := by
  induction calls generalizing pos e with
  | nil => exact h
  | cons call calls ih =>
    refine ih (h.applied (hfills call List.mem_cons_self) hok.1) ?_ hok.2
    exact fun c hc ↦ hfills c (List.mem_cons_of_mem _ hc)

omit [DecimalWidth] in
theorem Exposure.net_foldl (fills : List Fill) (e : Exposure) :
    (fills.foldl Exposure.trade e).net = e.net + (fills.map Fill.signedQty).sum := by
  induction fills generalizing e with
  | nil => simp
  | cons f fills ih =>
    rw [List.foldl_cons, ih, List.map_cons, List.sum_cons, ← add_assoc]
    rfl

/-- **What every run shows.** Take any run of successful calls from a flat position, with positive
prices and sizes at its precisions. The side is flat exactly when the size is zero, and exactly when
the average entry is; the signed size is the sum of the signed fills; and while the position is open
its average entry lies between the smallest and the largest price of the fills that made the
exposure. -/
theorem represents_run (positionId : PositionId) (instrumentId : InstrumentId)
    (pricePrecision sizePrecision : ℕ) (settlement : Currency) {calls : List (Fill × Instrument)}
    (hfills : ∀ call ∈ calls, AtPrecision pricePrecision sizePrecision call.1)
    (hok : Along step (fun p call ↦ FoldOk call.2 p call.1)
      (flat positionId instrumentId pricePrecision sizePrecision settlement) calls) :
    let fills := calls.map Prod.fst
    let pos := calls.foldl step
      (flat positionId instrumentId pricePrecision sizePrecision settlement)
    Represents pos (fills.foldl Exposure.trade Exposure.none) ∧
      pos.signed = (fills.map Fill.signedQty).sum := by
  intro fills pos
  have hend := ((shows_flat positionId instrumentId pricePrecision sizePrecision settlement).foldl
    hfills hok).represents
  refine ⟨hend, hend.signed.trans ?_⟩
  rw [Exposure.net_foldl, Exposure.none, zero_add]

end Run

section Instances

open scoped ExactDecimal

theorem represents_run_perp :
    let pos := (perpFills.map fun f ↦ (f, perp false)).foldl step
      (flat ⟨"P"⟩ (perp false).id 1 0 (perp false).settlementCurrency)
    Represents pos (((perpFills.map fun f ↦ (f, perp false)).map Prod.fst).foldl Exposure.trade
        Exposure.none) ∧
      pos.signed = (((perpFills.map fun f ↦ (f, perp false)).map Prod.fst).map
        Fill.signedQty).sum :=
  represents_run ⟨"P"⟩ (perp false).id 1 0 (perp false).settlementCurrency (by decide)
    (by decide +kernel)

end Instances

end Position

end Coinext
