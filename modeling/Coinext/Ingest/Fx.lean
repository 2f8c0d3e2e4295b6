import Coinext.Model.Types
import Coinext.Support.PyText
import Mathlib.Data.List.Sort
import Mathlib.Tactic.FieldSimp
import Mathlib.Tactic.Positivity

/-!
# Exchange rates

A book has one curve for each directed pair of currencies, with points that are sorted by time. A
rate is looked for in three stages: the curve of the pair, the two curves with the dollar, and a
table. Setting a rate adds a point to the curve of the pair and the inverse of it to the curve of
the inverse pair.

The two curves of a pair therefore have points at the same times, with inverse rates (`Mirrored`),
and so have the lookups in them. Each stage keeps that: whatever stage answers for a pair answers
for the inverse pair, with the inverse rate (`Inverse.rateWith`).

Rates are the rationals of which the source holds binary floats. The case map of strings is a
parameter, which does not change the name of the dollar.
-/

namespace Coinext

/-- A currency code. -/
abbrev Ccy := String

/-- The rates that stand in for missing curves. -/
def fxFallback : List ((Ccy × Ccy) × ℚ) :=
  [(("USD", "USD"), 1), (("CNY", "CNY"), 1), (("HKD", "HKD"), 1),
    (("USD", "CNY"), 7.25), (("CNY", "USD"), 1 / 7.25),
    (("USD", "HKD"), 7.80), (("HKD", "USD"), 1 / 7.80),
    (("CNY", "HKD"), 7.80 / 7.25), (("HKD", "CNY"), 7.25 / 7.80),
    (("EUR", "USD"), 1.08), (("USD", "EUR"), 1 / 1.08),
    (("GBP", "USD"), 1.27), (("USD", "GBP"), 1 / 1.27),
    (("USD", "JPY"), 150), (("JPY", "USD"), 1 / 150)]

/-! ## Curves -/

/-- The rates of one directed pair: units of `quote` for one of `base`. -/
structure FxCurve where
  base : Ccy
  quote : Ccy
  /-- Sorted by time. -/
  points : List (ℤ × ℚ)
deriving DecidableEq

/-- The position after the last entry of a sorted list that is at most `x`. -/
def bisectRight (l : List ℤ) (x : ℤ) : ℕ := (l.takeWhile fun y ↦ y ≤ x).length

namespace FxCurve

/-- Add a point, unless its rate is not positive. -/
def add (c : FxCurve) (tsNs : ℤ) (rate : ℚ) : FxCurve :=
  if rate ≤ 0 then c
  else { c with points := (c.points ++ [(tsNs, rate)]).insertionSort fun p p' ↦ p.1 ≤ p'.1 }

/-- The rate at a time, which before the first point is that of the first point. -/
def rateAsof (c : FxCurve) (tsNs : ℤ) : Option ℚ :=
  match c.points with
  | [] => none
  | first :: _ =>
    let i : ℤ := bisectRight (c.points.map Prod.fst) tsNs - 1
    if i < 0 then some first.2 else (c.points[i.toNat]?).map Prod.snd

end FxCurve

/-! ## Books -/

structure FxBook where
  curves : Map (Ccy × Ccy) FxCurve
  useFallback : Bool

/-- A call of `setRate`. -/
structure RateCall where
  base : Ccy
  quote : Ccy
  tsNs : ℤ
  rate : ℚ

namespace FxBook

/-- A book without curves. -/
def empty (useFallback : Bool) : FxBook := ⟨∅, useFallback⟩

/-- The curve of a pair, to which a point is added; it is made if it is missing. -/
def addPoint (curves : Map (Ccy × Ccy) FxCurve) (base quote : Ccy) (tsNs : ℤ) (rate : ℚ) :
    Map (Ccy × Ccy) FxCurve :=
  let curve := (curves.lookup (base, quote)).getD ⟨base, quote, []⟩
  curves.insert (base, quote) (curve.add tsNs rate)

/-- The table as curves of one point each. -/
def withDefaults : FxBook where
  curves := fxFallback.foldl (fun curves e ↦
    if e.1.1 = e.1.2 then curves
    else curves.insert e.1 ⟨e.1.1, e.1.2, [(0, e.2)]⟩) ∅
  useFallback := true

variable (upper : String → String)

def setRate (book : FxBook) (c : RateCall) : FxBook :=
  let base := upper c.base
  let quote := upper c.quote
  let curves := addPoint book.curves base quote c.tsNs c.rate
  -- the inverse
  { book with curves := addPoint curves quote base c.tsNs (1 / c.rate) }

/-- The rate on the curve of a pair. -/
def curveRate (book : FxBook) (ts : ℤ) (base quote : Ccy) : Option ℚ :=
  (book.curves.lookup (base, quote)).bind fun curve ↦ curve.rateAsof ts

/-- The rate by way of the dollar, where `rec` answers for the pairs with the dollar. -/
def viaUsd (rec : Ccy → Ccy → Except String ℚ) (base quote : Ccy) : Option ℚ :=
  if base ≠ "USD" ∧ quote ≠ "USD" then
    match rec base "USD", rec "USD" quote with
    | .ok x, .ok y => some (x * y)
    | _, _ => none
  else none

/-- The rate of the table. -/
def tableRate (book : FxBook) (base quote : Ccy) : Option ℚ :=
  if book.useFallback then fxFallback.lookup (base, quote) else none

/-- The stages of a lookup. -/
def rateWith (rec : Ccy → Ccy → Except String ℚ) (book : FxBook) (tsNs : Option ℤ)
    (base quote : Ccy) : Except String ℚ :=
  let base := upper base
  let quote := upper quote
  if base = quote then .ok 1
  else
    let ts := tsNs.getD (2 ^ 62)
    match (book.curveRate ts base quote).or
        ((viaUsd rec base quote).or (book.tableRate base quote)) with
    | some r => .ok r
    | none => .error ("no FX rate for " ++ base ++ "/" ++ quote)

/-- Units of `quote` for one of `base`, at a time or at the latest. The rates that are asked for in
turn are of pairs with the dollar, which ask for none (`rate_eq`). -/
def rate (book : FxBook) (tsNs : Option ℤ) : Ccy → Ccy → Except String ℚ :=
  rateWith upper (rateWith upper (fun base quote ↦ .error (base ++ "/" ++ quote)) book
    (some (tsNs.getD (2 ^ 62)))) book tsNs

end FxBook

/-! ## Inverse rates -/

/-- Two answers are inverse: both are rates, one the inverse of the other, or both are missing. -/
structure Inverse (o o' : Option ℚ) : Prop where
  eq_map : o' = o.map (·⁻¹)
  pos : ∀ x ∈ o, 0 < x

namespace Inverse

variable {o o' u u' : Option ℚ}

theorem none_none : Inverse none none := ⟨rfl, fun _ h ↦ nomatch h⟩

theorem one_one : Inverse (some 1) (some 1) := by
  refine ⟨by simp, ?_⟩
  rintro x ⟨⟩
  exact one_pos

theorem or (h : Inverse o o') (h' : Inverse u u') : Inverse (o.or u) (o'.or u') := by
  obtain ⟨rfl, hpos⟩ := h
  cases o with
  | none => exact h'
  | some x => exact ⟨rfl, hpos⟩

theorem symm (h : Inverse o o') : Inverse o' o := by
  obtain ⟨rfl, hpos⟩ := h
  cases o with
  | none => exact none_none
  | some x =>
    refine ⟨by simp, ?_⟩
    rintro y ⟨⟩
    exact inv_pos.mpr (hpos x rfl)

theorem isSome_iff (h : Inverse o o') : o.isSome = o'.isSome := by
  rw [h.eq_map, Option.isSome_map]

theorem mul_eq_one (h : Inverse o o') {x y : ℚ} (hx : o = some x) (hy : o' = some y) :
    x * y = 1 := by
  have hpos := h.pos x hx
  rw [h.eq_map, hx, Option.map_some, Option.some.injEq] at hy
  rw [← hy, mul_inv_cancel₀ hpos.ne']

end Inverse

/-! ## Mirrored curves -/

/-- The points of a curve, none if it is missing. -/
def pointsOf (curves : Map (Ccy × Ccy) FxCurve) (base quote : Ccy) : List (ℤ × ℚ) :=
  ((curves.lookup (base, quote)).map FxCurve.points).getD []

/-- A point of the inverse pair. -/
def invPoint (p : ℤ × ℚ) : ℤ × ℚ := (p.1, p.2⁻¹)

/-- The curves of a pair and of its inverse have inverse points, at the same times. -/
structure Mirrored (curves : Map (Ccy × Ccy) FxCurve) : Prop where
  eq_map : ∀ base quote, base ≠ quote →
    pointsOf curves quote base = (pointsOf curves base quote).map invPoint
  pos : ∀ base quote, base ≠ quote → ∀ p ∈ pointsOf curves base quote, 0 < p.2

variable {curves : Map (Ccy × Ccy) FxCurve} {base quote : Ccy}

theorem rateAsof_of_points {c c' : FxCurve} (h : c'.points = c.points.map invPoint) (ts : ℤ) :
    c'.rateAsof ts = (c.rateAsof ts).map (·⁻¹) := by
  cases hpoints : c.points with
  | nil =>
    rw [hpoints, List.map_nil] at h
    simp only [FxCurve.rateAsof, h, hpoints, Option.map_none]
  | cons first rest =>
    rw [hpoints, List.map_cons] at h
    have htimes : (invPoint first :: rest.map invPoint).map Prod.fst
        = (first :: rest).map Prod.fst := by
      rw [← List.map_cons, List.map_map]
      rfl
    simp only [FxCurve.rateAsof, h, hpoints, htimes]
    split_ifs with hfirst
    · rfl
    · rw [← List.map_cons, List.getElem?_map, Option.map_map, Option.map_map]
      rfl

theorem mem_points_of_rateAsof {c : FxCurve} {ts : ℤ} {r : ℚ} (h : c.rateAsof ts = some r) :
    ∃ p ∈ c.points, p.2 = r := by
  cases hpoints : c.points with
  | nil =>
    simp only [FxCurve.rateAsof, hpoints] at h
    cases h
  | cons first rest =>
    simp only [FxCurve.rateAsof, hpoints] at h
    split_ifs at h with hfirst
    · exact ⟨first, List.mem_cons_self, Option.some.inj h⟩
    · obtain ⟨p, hp, heq⟩ := Option.map_eq_some_iff.mp h
      exact ⟨p, List.mem_of_getElem? hp, heq⟩

/-- **Lookups in mirrored curves are inverse.** -/
theorem Mirrored.curveRate {book : FxBook} (h : Mirrored book.curves) (hne : base ≠ quote)
    (ts : ℤ) : Inverse (book.curveRate ts base quote) (book.curveRate ts quote base) := by
  have hpoints : ∀ b q, book.curveRate ts b q
      = (FxCurve.mk b q (pointsOf book.curves b q)).rateAsof ts := by
    intro b q
    rw [FxBook.curveRate, pointsOf]
    cases book.curves.lookup (b, q) <;> rfl
  rw [hpoints, hpoints]
  refine ⟨rateAsof_of_points (h.eq_map base quote hne) ts, fun r hr ↦ ?_⟩
  obtain ⟨p, hp, rfl⟩ := mem_points_of_rateAsof hr
  exact h.pos base quote hne p hp

/-- The points of a curve with one more. -/
def withPoint (l : List (ℤ × ℚ)) (ts : ℤ) (r : ℚ) : List (ℤ × ℚ) :=
  (l ++ [(ts, r)]).insertionSort fun p p' ↦ p.1 ≤ p'.1

theorem map_withPoint (l : List (ℤ × ℚ)) (ts : ℤ) (r : ℚ) :
    (withPoint l ts r).map invPoint = withPoint (l.map invPoint) ts r⁻¹ := by
  have hsort := List.map_insertionSort (fun p p' : ℤ × ℚ ↦ p.1 ≤ p'.1) (fun p p' ↦ p.1 ≤ p'.1)
    invPoint (l ++ [(ts, r)]) fun p _ p' _ ↦ Iff.rfl
  rw [List.map_append] at hsort
  exact hsort

theorem pos_withPoint {l : List (ℤ × ℚ)} (hl : ∀ p ∈ l, 0 < p.2) {ts : ℤ} {r : ℚ} (hr : 0 < r) :
    ∀ p ∈ withPoint l ts r, 0 < p.2 := by
  intro p hp
  rw [withPoint, List.mem_insertionSort] at hp
  rcases List.mem_append.mp hp with hp | hp
  · exact hl p hp
  · rw [List.mem_singleton.mp hp]
    exact hr

theorem pointsOf_addPoint {r : ℚ} (hr : 0 < r) (ts : ℤ) (b q : Ccy) :
    pointsOf (FxBook.addPoint curves base quote ts r) b q
      = if (b, q) = (base, quote) then withPoint (pointsOf curves b q) ts r
        else pointsOf curves b q := by
  rw [FxBook.addPoint, pointsOf]
  split_ifs with hkey
  · rw [hkey, AList.lookup_insert, FxCurve.add, if_neg (not_le.mpr hr)]
    obtain ⟨rfl, rfl⟩ := Prod.mk.inj hkey
    rw [pointsOf]
    cases curves.lookup (b, q) <;> rfl
  · rw [AList.lookup_insert_ne hkey, pointsOf]

variable (upper : String → String) {book : FxBook} {c : RateCall}

/-- What a call does to the curves of different currencies. -/
theorem pointsOf_setRate (hrate : 0 < c.rate) {b q : Ccy} (hne : b ≠ q) :
    pointsOf (book.setRate upper c).curves b q
      = if (b, q) = (upper c.base, upper c.quote) then
          withPoint (pointsOf book.curves b q) c.tsNs c.rate
        else if (q, b) = (upper c.base, upper c.quote) then
          withPoint (pointsOf book.curves b q) c.tsNs c.rate⁻¹
        else pointsOf book.curves b q := by
  have hinv : 0 < 1 / c.rate := one_div_pos.mpr hrate
  have hswap : (b, q) = (upper c.quote, upper c.base) ↔ (q, b) = (upper c.base, upper c.quote) := by
    simp only [Prod.mk.injEq, and_comm]
  change pointsOf (FxBook.addPoint (FxBook.addPoint book.curves (upper c.base) (upper c.quote)
    c.tsNs c.rate) (upper c.quote) (upper c.base) c.tsNs (1 / c.rate)) b q = _
  rw [pointsOf_addPoint hinv, pointsOf_addPoint hrate, one_div]
  by_cases hforth : (b, q) = (upper c.base, upper c.quote)
  · have hback : ¬ (q, b) = (upper c.base, upper c.quote) := by
      intro hback
      exact hne ((Prod.mk.inj hforth).1.trans (Prod.mk.inj hback).1.symm)
    rw [if_neg (mt hswap.mp hback), if_pos hforth, if_pos hforth]
  · rw [if_neg hforth, if_neg hforth]
    exact if_congr hswap rfl rfl

/-- **A call keeps the curves mirrored.** -/
theorem Mirrored.setRate (h : Mirrored book.curves) (hrate : 0 < c.rate) :
    Mirrored (book.setRate upper c).curves := by
  refine ⟨fun b q hne ↦ ?_, fun b q hne ↦ ?_⟩
  · rw [pointsOf_setRate upper hrate hne, pointsOf_setRate upper hrate hne.symm]
    split_ifs with hback hforth hforth
    · obtain ⟨rfl, rfl⟩ := Prod.mk.inj hback
      exact absurd (Prod.mk.inj hforth).1 hne
    · rw [h.eq_map b q hne, map_withPoint, inv_inv]
    · rw [h.eq_map b q hne, map_withPoint]
    · exact h.eq_map b q hne
  · rw [pointsOf_setRate upper hrate hne]
    split_ifs with hforth hback
    · exact pos_withPoint (h.pos b q hne) hrate
    · exact pos_withPoint (h.pos b q hne) (inv_pos.mpr hrate)
    · exact h.pos b q hne

theorem mirrored_empty (useFallback : Bool) : Mirrored (FxBook.empty useFallback).curves :=
  ⟨fun _ _ _ ↦ rfl, fun _ _ _ _ hp ↦ nomatch hp⟩

/-- The table as curves is mirrored: it has every pair with its inverse. -/
theorem mirrored_withDefaults : Mirrored FxBook.withDefaults.curves := by
  have htable : ∀ e ∈ FxBook.withDefaults.curves.entries,
      pointsOf FxBook.withDefaults.curves e.1.2 e.1.1 = e.2.points.map invPoint ∧
        ∀ p ∈ e.2.points, 0 < p.2 := by decide +kernel
  have hentry : ∀ {b q curve}, FxBook.withDefaults.curves.lookup (b, q) = some curve →
      pointsOf FxBook.withDefaults.curves q b = curve.points.map invPoint ∧
        ∀ p ∈ curve.points, 0 < p.2 :=
    fun {b q curve} h ↦ htable ⟨(b, q), curve⟩ (AList.mem_lookup_iff.mp h)
  refine ⟨fun b q _ ↦ ?_, fun b q _ ↦ ?_⟩
  · cases hlookup : FxBook.withDefaults.curves.lookup (b, q) with
    | some curve =>
      rw [(hentry hlookup).1, pointsOf, hlookup]
      rfl
    | none =>
      have hnone : pointsOf FxBook.withDefaults.curves b q = [] := by
        rw [pointsOf, hlookup]
        rfl
      cases hback : FxBook.withDefaults.curves.lookup (q, b) with
      | none => rw [hnone, pointsOf, hback]; rfl
      | some curve =>
        have hnil := (hentry hback).1
        rw [hnone, eq_comm, List.map_eq_nil_iff] at hnil
        rw [hnone, pointsOf, hback, Option.map_some, Option.getD_some, hnil]
        rfl
  · rw [pointsOf]
    cases hlookup : FxBook.withDefaults.curves.lookup (b, q) with
    | none => exact fun p hp ↦ nomatch hp
    | some curve => exact (hentry hlookup).2

/-! ## The stages of a lookup -/

variable {rec : Ccy → Ccy → Except String ℚ}

theorem mem_of_lookup_fxFallback {k : Ccy × Ccy} {r : ℚ} (h : fxFallback.lookup k = some r) :
    (k, r) ∈ fxFallback := by
  obtain ⟨l₁, l₂, hsplit, -⟩ := List.lookup_eq_some_iff.mp h
  rw [hsplit]
  exact List.mem_append_right _ List.mem_cons_self

theorem inverse_tableRate (book : FxBook) (b q : Ccy) :
    Inverse (book.tableRate b q) (book.tableRate q b) := by
  have htable : ∀ e ∈ fxFallback, fxFallback.lookup (e.1.2, e.1.1) = some e.2⁻¹ ∧ 0 < e.2 := by
    decide +kernel
  simp only [FxBook.tableRate]
  split_ifs
  · cases hlookup : fxFallback.lookup (b, q) with
    | some r =>
      obtain ⟨hback, hpos⟩ := htable _ (mem_of_lookup_fxFallback hlookup)
      refine ⟨hback, ?_⟩
      rintro x ⟨⟩
      exact hpos
    | none =>
      cases hback : fxFallback.lookup (q, b) with
      | none => exact Inverse.none_none
      | some r =>
        have hforth := (htable _ (mem_of_lookup_fxFallback hback)).1
        rw [hlookup] at hforth
        cases hforth
  · exact Inverse.none_none

theorem viaUsd_eq (b q : Ccy) : FxBook.viaUsd rec b q = if b ≠ "USD" ∧ q ≠ "USD" then
    (rec b "USD").toOption.bind fun x ↦ (rec "USD" q).toOption.map fun y ↦ x * y else none := by
  rw [FxBook.viaUsd]
  cases rec b "USD" <;> cases rec "USD" q <;> rfl

theorem inverse_viaUsd (hrec : ∀ b q, Inverse (rec b q).toOption (rec q b).toOption) (b q : Ccy) :
    Inverse (FxBook.viaUsd rec b q) (FxBook.viaUsd rec q b) := by
  rw [viaUsd_eq, viaUsd_eq]
  by_cases hforeign : b ≠ "USD" ∧ q ≠ "USD"
  · rw [if_pos hforeign, if_pos hforeign.symm]
    have hthere := hrec b "USD"
    have hback := hrec "USD" q
    rw [hthere.eq_map, hback.eq_map]
    cases hx : (rec b "USD").toOption with
    | none => cases (rec "USD" q).toOption <;> exact Inverse.none_none
    | some x =>
      cases hy : (rec "USD" q).toOption with
      | none => exact Inverse.none_none
      | some y =>
        refine ⟨congrArg some (mul_inv_rev x y).symm, ?_⟩
        rintro z ⟨⟩
        exact mul_pos (hthere.pos x hx) (hback.pos y hy)
  · rw [if_neg hforeign, if_neg fun h ↦ hforeign h.symm]
    exact Inverse.none_none

/-- What a lookup answers, as one stage after the other. -/
theorem toOption_rateWith (tsNs : Option ℤ) (b q : Ccy) :
    (book.rateWith upper rec tsNs b q).toOption = if upper b = upper q then some 1 else
      (book.curveRate (tsNs.getD (2 ^ 62)) (upper b) (upper q)).or
        ((FxBook.viaUsd rec (upper b) (upper q)).or (book.tableRate (upper b) (upper q))) := by
  simp only [FxBook.rateWith]
  split_ifs
  · rfl
  · cases (book.curveRate (tsNs.getD (2 ^ 62)) (upper b) (upper q)).or
      ((FxBook.viaUsd rec (upper b) (upper q)).or (book.tableRate (upper b) (upper q))) <;> rfl

/-- **Whatever stage answers, the answers for a pair and its inverse are inverse.** -/
theorem Mirrored.rateWith (h : Mirrored book.curves)
    (hrec : ∀ b q, Inverse (rec b q).toOption (rec q b).toOption) (tsNs : Option ℤ) (b q : Ccy) :
    Inverse (book.rateWith upper rec tsNs b q).toOption
      (book.rateWith upper rec tsNs q b).toOption := by
  rw [toOption_rateWith, toOption_rateWith]
  by_cases hsame : upper b = upper q
  · rw [if_pos hsame, if_pos hsame.symm]
    exact Inverse.one_one
  · rw [if_neg hsame, if_neg (Ne.symm hsame)]
    exact (h.curveRate hsame _).or ((inverse_viaUsd hrec _ _).or (inverse_tableRate book _ _))

theorem Mirrored.rate (h : Mirrored book.curves) (tsNs : Option ℤ) (b q : Ccy) :
    Inverse (book.rate upper tsNs b q).toOption (book.rate upper tsNs q b).toOption := by
  refine h.rateWith upper (fun b q ↦ h.rateWith upper (fun b q ↦ ?_) _ b q) tsNs b q
  exact Inverse.none_none

/-! ## The recursion -/

theorem rateWith_of_usd {rec' : Ccy → Ccy → Except String ℚ} (tsNs : Option ℤ) {b q : Ccy}
    (husd : upper b = "USD" ∨ upper q = "USD") :
    book.rateWith upper rec tsNs b q = book.rateWith upper rec' tsNs b q := by
  have hnone : ∀ r : Ccy → Ccy → Except String ℚ, FxBook.viaUsd r (upper b) (upper q) = none := by
    intro r
    rw [viaUsd_eq, if_neg]
    rintro ⟨hb, hq⟩
    exact husd.elim hb hq
  simp only [FxBook.rateWith, hnone]

theorem rate_eq (hupper : upper "USD" = "USD") (tsNs : Option ℤ) (b q : Ccy) :
    book.rate upper tsNs b q
      = book.rateWith upper (book.rate upper (some (tsNs.getD (2 ^ 62)))) tsNs b q := by
  have hasked : ∀ b q, upper b = "USD" ∨ upper q = "USD" →
      book.rateWith upper (fun base quote ↦ .error (base ++ "/" ++ quote))
        (some (tsNs.getD (2 ^ 62))) b q = book.rate upper (some (tsNs.getD (2 ^ 62))) b q :=
    fun b q husd ↦ rateWith_of_usd upper _ husd
  rw [FxBook.rate]
  simp only [FxBook.rateWith.eq_def _ _ _ tsNs, FxBook.viaUsd, hasked _ "USD" (.inr hupper),
    hasked "USD" _ (.inl hupper)]

/-! ## The guarantee -/

/-- A book that is new, or filled with the table. -/
inductive FxBook.Initial : FxBook → Prop
  | empty (useFallback : Bool) : Initial (FxBook.empty useFallback)
  | withDefaults : Initial FxBook.withDefaults

theorem FxBook.Initial.mirrored {init : FxBook} (h : init.Initial) : Mirrored init.curves := by
  cases h with
  | empty useFallback => exact mirrored_empty useFallback
  | withDefaults => exact mirrored_withDefaults

theorem Mirrored.foldl_setRate {calls : List RateCall} (hcalls : ∀ c ∈ calls, 0 < c.rate)
    (h : Mirrored book.curves) : Mirrored (calls.foldl (FxBook.setRate upper) book).curves := by
  induction calls generalizing book with
  | nil => exact h
  | cons c calls ih =>
    exact ih (fun c' hc' ↦ hcalls c' (List.mem_cons_of_mem _ hc'))
      (h.setRate upper (hcalls c List.mem_cons_self))

/-- **Rates are reciprocal**, after any calls that set positive rates: a pair has a rate if and only
if its inverse has one, and then their product is one. -/
theorem rate_reciprocal {init : FxBook} (hinit : init.Initial) {calls : List RateCall}
    (hcalls : ∀ c ∈ calls, 0 < c.rate) (tsNs : Option ℤ) (b q : Ccy) :
    ((∃ x, (calls.foldl (FxBook.setRate upper) init).rate upper tsNs b q = .ok x) ↔
      ∃ y, (calls.foldl (FxBook.setRate upper) init).rate upper tsNs q b = .ok y) ∧
    ∀ x y, (calls.foldl (FxBook.setRate upper) init).rate upper tsNs b q = .ok x →
      (calls.foldl (FxBook.setRate upper) init).rate upper tsNs q b = .ok y → x * y = 1 := by
  have hinverse := (hinit.mirrored.foldl_setRate upper hcalls).rate upper tsNs b q
  generalize (calls.foldl (FxBook.setRate upper) init).rate upper tsNs b q = r at *
  generalize (calls.foldl (FxBook.setRate upper) init).rate upper tsNs q b = r' at *
  constructor
  · have hdefined := hinverse.isSome_iff
    cases r <;> cases r' <;> simp_all [Except.toOption]
  · rintro x y rfl rfl
    exact hinverse.mul_eq_one rfl rfl

section Instances

/-- A rate of the euro that is set twice, the later time first, and rates through the dollar. -/
def euroCalls : List RateCall := [⟨"eur", "USD", 20, 11 / 10⟩, ⟨"USD", "EUR", 10, 4 / 5⟩]

theorem rate_reciprocal_euro :
    ((∃ x, (euroCalls.foldl (FxBook.setRate PyText.upper) (FxBook.empty true)).rate PyText.upper
        (some 15) "EUR" "CNY" = .ok x) ↔
      ∃ y, (euroCalls.foldl (FxBook.setRate PyText.upper) (FxBook.empty true)).rate PyText.upper
        (some 15) "CNY" "EUR" = .ok y) ∧
    (145 / 16 : ℚ) * (16 / 145) = 1 := by
  have hcalls : ∀ c ∈ euroCalls, 0 < c.rate := by decide +kernel
  have hreciprocal := rate_reciprocal PyText.upper (.empty true) hcalls (some 15) "EUR" "CNY"
  exact ⟨hreciprocal.1, hreciprocal.2 _ _ (by decide +kernel) (by decide +kernel)⟩

end Instances

end Coinext
