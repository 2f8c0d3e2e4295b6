import Coinext.Model.Order
import Coinext.Support.Run
import Mathlib.Algebra.BigOperators.Ring.Finset
import Mathlib.Algebra.BigOperators.Ring.List

/-!
# The order log

Two results about runs of `Order.apply`.

The first is that the log is faithful: a failing call changes nothing, so the recorded events are
exactly the calls that took effect, and replaying them on a fresh order rebuilds the order. The
invariant is `Sourced`, which carries the replay along the run.

The second is about quantities. `leavesQty` saturates at zero and `apply` compares a fill with
nothing, so an over-fill, or an amendment to less than what is already filled, is accepted. In runs
that avoid both, `Balanced` holds throughout and the status says how much is filled.
-/

namespace Coinext

namespace Order

/-! ## The log -/

theorem isTerminal_of_mem_allowedFrom {ev : OrderEvent} {s : OrderStatus}
    (h : s ∈ ev.allowedFrom) : s.isTerminal = false := by
  revert s
  cases ev <;> simp [OrderEvent.allowedFrom, OrderStatus.isTerminal]

/-- The filled quantity is the sum of the recorded fills, all at one precision. -/
structure FilledBySum (precision : ℕ) (o : Order) : Prop where
  precision_eq : ∀ f ∈ o.fills, f.lastQty.precision = precision
  filledQty_eq : o.filledQty = ⟨(o.fills.map fun f ↦ f.lastQty.raw).sum, precision⟩

theorem filledBySum_of_isNew {o : Order} (h : o.IsNew) : FilledBySum o.quantity.precision o := by
  rw [h]
  exact ⟨fun _ h ↦ (by cases h), rfl⟩

theorem FilledBySum.asDecimal_eq {precision : ℕ} {o : Order} (h : FilledBySum precision o) :
    o.filledQty.asDecimal = (o.fills.map fun f ↦ f.lastQty.asDecimal).sum := by
  have hmap : o.fills.map (fun f ↦ f.lastQty.asDecimal)
      = o.fills.map fun f ↦ (f.lastQty.raw : ℚ) * ulp precision := by
    refine List.map_congr_left fun f hf ↦ ?_
    rw [Quantity.asDecimal, h.precision_eq f hf]
  rw [h.filledQty_eq, hmap, Quantity.asDecimal, Nat.cast_list_sum, List.map_map,
    ← List.sum_map_mul_right]
  rfl

section Replay

variable [DecimalWidth]

/-- The order after a sequence of calls, failed ones included. -/
def applyAll (o : Order) (evs : List OrderEvent) : Order := evs.foldl applied o

/-- Apply a recorded log, stopping at the first event that fails. -/
def replay : List OrderEvent → Mutation ModelError Order Unit
  | [] => pure ()
  | ev :: evs => do
    apply ev
    replay evs

theorem exec_replay_append (log : List OrderEvent) (ev : OrderEvent) {o o' : Order}
    (h : (replay log).exec o = (.ok (), o')) :
    (replay (log ++ [ev])).exec o = (apply ev).exec o' := by
  induction log generalizing o with
  | nil =>
    cases h
    simp only [List.nil_append, replay, Mutation.exec_bind, Mutation.exec_pure]
    rcases hout : (apply ev).exec o' with ⟨_ | _, _⟩ <;> simp
  | cons a log ih =>
    simp only [List.cons_append, replay, Mutation.exec_bind] at h ⊢
    rcases happ : (apply a).exec o with ⟨_ | _, p⟩
    · rw [happ] at h
      cases h
    · rw [happ] at h
      exact ih h

/-- The log of `o` extends that of `o₀`, and replaying the extension on `o₀` gives `o`. -/
def Sourced (o₀ o : Order) : Prop :=
  ∃ log, o.events = o₀.events ++ log ∧ (replay log).exec o₀ = (.ok (), o)

theorem Sourced.refl (o : Order) : Sourced o o := ⟨[], by simp, rfl⟩

theorem Sourced.applied {o₀ o : Order} (h : Sourced o₀ o) (ev : OrderEvent) :
    Sourced o₀ (o.applied ev) := by
  rcases applied_cases o ev with hacc | hsame
  · obtain ⟨log, hevents, hreplay⟩ := h
    refine ⟨log ++ [ev], ?_, ?_⟩
    · rw [hacc.events, hevents, List.append_assoc]
    · rw [exec_replay_append log ev hreplay, apply_eq_ok_iff.mpr hacc]
  · rwa [hsame]

theorem FilledBySum.applied {precision : ℕ} {o : Order} (h : FilledBySum precision o)
    (ev : OrderEvent) : FilledBySum precision (o.applied ev) := by
  rcases applied_cases o ev with hacc | hsame
  · cases hev : ev.fill? with
    | none =>
      have hfills := hacc.fills_of_fill?_eq_none hev
      refine ⟨by rw [hfills]; exact h.precision_eq, ?_⟩
      rw [(hacc.filledQty_of_fill?_eq_none hev).1, hfills]
      exact h.filledQty_eq
    | some f =>
      have hfills := hacc.fills_of_fill hev
      obtain ⟨-, hadd, -, -⟩ := hacc.of_fill hev
      obtain ⟨hprec, -, -, hsum⟩ := Quantity.checkedAdd_eq_ok_iff.mp hadd
      rw [h.filledQty_eq] at hprec hsum
      refine ⟨?_, by rw [hsum, hfills]; simp⟩
      intro g hg
      rw [hfills, List.mem_append, List.mem_singleton] at hg
      rcases hg with hg | rfl
      · exact h.precision_eq g hg
      · exact hprec.symm
  · rwa [hsame]

/-- **Event sourcing is faithful.** After any sequence of calls on a fresh order: a call that fails
changes nothing; the recorded events replay to the same order; a terminal order accepts nothing;
and the filled quantity is the sum of the recorded fills. -/
theorem log_faithful (strategyId : StrategyId) (clientOrderId : ClientOrderId)
    (instrumentId : InstrumentId) (side : OrderSide) (orderType : OrderType) (quantity : Quantity)
    (price trigger : Option Price) (tif : TimeInForce) (flags : OrderFlags) (ts : UnixNanos)
    (evs : List OrderEvent) :
    let o₀ := Order.new strategyId clientOrderId instrumentId side orderType quantity price trigger
      tif flags ts
    let o := o₀.applyAll evs
    (∀ ev e, ((apply ev).exec o).1 = .error e → ((apply ev).exec o).2 = o) ∧
      (∃ log, o.events = OrderEvent.initialized clientOrderId instrumentId side orderType quantity
          price trigger tif flags ts :: log ∧ (replay log).exec o₀ = (.ok (), o)) ∧
      (o.isTerminal = true → ∀ ev, ∃ e, (apply ev).exec o = (.error e, o)) ∧
      o.filledQty.asDecimal = (o.fills.map fun f ↦ f.lastQty.asDecimal).sum := by
  intro o₀ o
  refine ⟨?_, ?_, ?_, ?_⟩
  · intro ev e he
    rcases apply_exec o ev with ⟨o', h, -⟩ | ⟨e', h, -⟩
    · rw [h] at he
      cases he
    · rw [h]
  · exact foldl_induction (I := Sourced o₀) (fun o ev h ↦ h.applied ev) (Sourced.refl o₀) evs
  · intro hterm ev
    refine apply_of_notMem fun hmem ↦ ?_
    rw [isTerminal, isTerminal_of_mem_allowedFrom hmem] at hterm
    cases hterm
  · have hstart : FilledBySum quantity.precision o₀ := filledBySum_of_isNew isNew_new
    exact (foldl_induction (fun o ev h ↦ h.applied ev) hstart evs).asDecimal_eq

end Replay

/-! ## Quantities along a run

`StepOk` is the condition under which a call cannot break the quantities: an accepted fill is at
most what is left, and an accepted amendment asks for more than is filled, at the same precision. -/

/-- What the quantities of an order ought to satisfy. -/
structure QuantityLaw (o : Order) : Prop where
  filled_le : o.filledQty.asDecimal ≤ o.quantity.asDecimal
  accepted : o.status = .accepted → o.filledQty.asDecimal = 0
  partiallyFilled : o.status = .partiallyFilled →
    0 < o.filledQty.asDecimal ∧ o.filledQty.asDecimal < o.quantity.asDecimal
  filled_iff : o.status = .filled ↔
    (o.fills.map fun f ↦ f.lastQty.asDecimal).sum = o.quantity.asDecimal
  leaves : o.isTerminal = false → o.leavesQty.isZero = false

/-- The fill an event carries is positive and at the order's precision. -/
def FillFits (o : Order) (ev : OrderEvent) : Prop :=
  ∀ f ∈ ev.fill?, f.lastQty.isPositive = true ∧ f.lastQty.precision = o.quantity.precision

/-- An accepted fill is at most what is left; an accepted amendment asks for more than is filled, at
the order's precision. -/
def StepOk (o : Order) (ev : OrderEvent) : Prop :=
  o.status ∈ ev.allowedFrom →
    (∀ f ∈ ev.fill?, f.lastQty.asDecimal ≤ o.leavesQty.asDecimal) ∧
      ∀ q ∈ ev.amendedQty?, q.precision = o.quantity.precision ∧
        o.filledQty.asDecimal < q.asDecimal

instance (o : Order) (ev : OrderEvent) : Decidable (o.FillFits ev) :=
  inferInstanceAs (Decidable (∀ f ∈ ev.fill?, _))

instance (o : Order) (ev : OrderEvent) : Decidable (o.StepOk ev) :=
  inferInstanceAs (Decidable (_ → (∀ f ∈ ev.fill?, _) ∧ ∀ q ∈ ev.amendedQty?, _))

/-- The invariant behind `QuantityLaw`, in units of the order's precision. -/
structure Balanced (o : Order) : Prop where
  precision_le : o.quantity.precision ≤ maxPrecision
  precision_eq : o.filledQty.precision = o.quantity.precision
  range : (o.filledQty.raw : ℤ) ≤ i64Max
  complete : o.status = .filled → o.filledQty.raw = o.quantity.raw
  incomplete : o.status ≠ .filled → o.filledQty.raw < o.quantity.raw
  untouched : o.status = .initialized ∨ o.status = .submitted ∨ o.status = .accepted →
    o.filledQty.raw = 0
  touched : o.status = .partiallyFilled → 0 < o.filledQty.raw

theorem leavesQty_eq {o : Order} (hle : o.quantity.precision ≤ maxPrecision)
    (heq : o.filledQty.precision = o.quantity.precision) (hmax : (o.filledQty.raw : ℤ) ≤ i64Max) :
    o.leavesQty = ⟨o.quantity.raw - o.filledQty.raw, o.quantity.precision⟩ := by
  have hsub : o.quantity.checkedSub o.filledQty
      = .ok ⟨o.quantity.raw - o.filledQty.raw, o.quantity.precision⟩ :=
    (Quantity.checkedSub_eq_ok_iff hmax).mpr ⟨heq.symm, hle, rfl⟩
  rw [leavesQty, hsub]

theorem Balanced.leavesQty_eq {o : Order} (h : Balanced o) :
    o.leavesQty = ⟨o.quantity.raw - o.filledQty.raw, o.quantity.precision⟩ :=
  Order.leavesQty_eq h.precision_le h.precision_eq h.range

theorem balanced_of_isNew {o : Order} (h : o.IsNew) (hpos : o.quantity.isPositive = true)
    (hprec : o.quantity.precision ≤ maxPrecision) : Balanced o := by
  have hstatus : o.status = .initialized := by rw [h]; rfl
  have hfilled : o.filledQty = Quantity.zero o.quantity.precision := by rw [h]; rfl
  have hraw : 0 < o.quantity.raw := of_decide_eq_true hpos
  refine ⟨hprec, by rw [hfilled]; rfl, ?_, ?_, ?_, ?_, ?_⟩
  · rw [hfilled, Quantity.zero, i64Max]
    norm_num
  · rw [hstatus]
    exact fun h ↦ (by cases h)
  · rw [hfilled]
    exact fun _ ↦ hraw
  · rw [hfilled]
    exact fun _ ↦ rfl
  · rw [hstatus]
    exact fun h ↦ (by cases h)

section Run

variable [DecimalWidth]

theorem Balanced.of_fill {o o' : Order} {ev : OrderEvent} {f : Fill} (h : Balanced o)
    (hacc : o.Accepts ev o') (hev : ev.fill? = some f) (hfits : o.FillFits ev)
    (hle : f.lastQty.asDecimal ≤ o.leavesQty.asDecimal) : Balanced o' := by
  obtain ⟨hmem, hadd, hqty, hstatus⟩ := hacc.of_fill hev
  obtain ⟨hprec, hmax, -, hsum⟩ := Quantity.checkedAdd_eq_ok_iff.mp hadd
  have hpos : 0 < f.lastQty.raw := of_decide_eq_true (hfits f hev).1
  have hraw : f.lastQty.raw ≤ o.quantity.raw - o.filledQty.raw := by
    rw [h.leavesQty_eq] at hle
    exact (Quantity.asDecimal_le_iff (o := ⟨o.quantity.raw - o.filledQty.raw,
      o.quantity.precision⟩) (hfits f hev).2).mp hle
  have hopen : o.filledQty.raw < o.quantity.raw := by
    refine h.incomplete fun hs ↦ ?_
    rw [hs] at hmem
    simp at hmem
  have hfilled : o'.filledQty.raw = o.filledQty.raw + f.lastQty.raw := by rw [hsum]
  have hle' : o'.quantity.precision ≤ maxPrecision := by
    rw [hqty]
    exact h.precision_le
  have heq' : o'.filledQty.precision = o'.quantity.precision := by
    rw [hsum, hqty]
    exact h.precision_eq
  have hmax' : (o'.filledQty.raw : ℤ) ≤ i64Max := by
    rw [hfilled]
    exact_mod_cast hmax
  have hzero : o'.leavesQty.isZero = true ↔ o'.filledQty.raw = o'.quantity.raw := by
    rw [Order.leavesQty_eq hle' heq' hmax', Quantity.isZero, hfilled, hqty]
    simp only [beq_iff_eq]
    omega
  refine ⟨hle', heq', hmax', ?_, ?_, ?_, ?_⟩
  · intro hs
    rw [hs] at hstatus
    split_ifs at hstatus with hz
    exact hzero.mp hz
  · intro hs
    rw [hstatus] at hs
    have hz : ¬ o'.leavesQty.isZero = true := fun hz ↦ hs (if_pos hz)
    rw [hzero, hfilled, hqty] at hz
    rw [hfilled, hqty]
    omega
  · rw [hstatus]
    split_ifs <;> simp
  · intro _
    omega

/-- An amendment to more than is filled keeps the balance. -/
theorem Balanced.of_updated {o o' : Order} {quantity : Option Quantity} {price : Option Price}
    {ts : UnixNanos} (h : Balanced o) (hacc : o.Accepts (.updated quantity price ts) o')
    (hmore : ∀ q ∈ quantity, q.precision = o.quantity.precision ∧
      o.filledQty.asDecimal < q.asDecimal) : Balanced o' := by
  obtain ⟨p, hmem, heff, rfl⟩ := hacc
  cases heff
  have hopen : o.filledQty.raw < o.quantity.raw := by
    refine h.incomplete fun hs ↦ ?_
    rw [hs] at hmem
    simp [OrderEvent.allowedFrom] at hmem
  have hpos : o.filledQty.isPositive = true ↔ 0 < o.filledQty.raw := decide_eq_true_iff
  have hnew : (quantity.getD o.quantity).precision = o.quantity.precision ∧
      o.filledQty.raw < (quantity.getD o.quantity).raw := by
    cases quantity with
    | none => exact ⟨rfl, hopen⟩
    | some q =>
      obtain ⟨hprec, hlt⟩ := hmore q rfl
      refine ⟨hprec, ?_⟩
      have heq : q.precision = o.filledQty.precision := hprec.trans h.precision_eq.symm
      exact lt_of_not_ge fun hle ↦ hlt.not_ge ((Quantity.asDecimal_le_iff heq).mpr hle)
  refine ⟨hnew.1.trans_le h.precision_le, h.precision_eq.trans hnew.1.symm, h.range, ?_,
    fun _ ↦ hnew.2, ?_, ?_⟩
  · intro hs
    simp only [record] at hs
    split_ifs at hs
  · intro hs
    simp only [record] at hs ⊢
    split_ifs at hs with hp
    · simp at hs
    · rw [hpos] at hp
      omega
  · intro hs
    simp only [record] at hs ⊢
    split_ifs at hs with hp
    exact hpos.mp hp

/-- **Step lemma.** A call that meets `StepOk` keeps the balance. -/
theorem Balanced.applied {o : Order} {ev : OrderEvent} (h : Balanced o) (hfits : o.FillFits ev)
    (hok : o.StepOk ev) : Balanced (o.applied ev) := by
  rcases applied_cases o ev with hacc | hsame
  · have hmem := hacc.status_mem
    obtain ⟨hfill, hamend⟩ := hok hmem
    have hopen : o.filledQty.raw < o.quantity.raw := by
      refine h.incomplete fun hs ↦ ?_
      have := isTerminal_of_mem_allowedFrom hmem
      rw [hs] at this
      cases this
    cases ev with
    | initialized => cases hmem
    | partiallyFilled f | filled f => exact h.of_fill hacc rfl hfits (hfill f rfl)
    | updated q p ts => exact h.of_updated hacc hamend
    | accepted v ts =>
      have hzero := h.untouched (.inr (.inl (List.mem_singleton.mp hmem)))
      obtain ⟨p, -, heff, hp⟩ := hacc
      cases heff
      rw [hp]
      exact ⟨h.precision_le, h.precision_eq, h.range, nofun, fun _ ↦ hopen, fun _ ↦ hzero, nofun⟩
    | submitted ts =>
      have hzero := h.untouched (.inl (List.mem_singleton.mp hmem))
      obtain ⟨p, -, heff, hp⟩ := hacc
      cases heff
      rw [hp]
      exact ⟨h.precision_le, h.precision_eq, h.range, nofun, fun _ ↦ hopen, fun _ ↦ hzero, nofun⟩
    | _ =>
      -- the remaining events leave the quantities alone and end in a status nothing is asked of
      obtain ⟨p, -, heff, hp⟩ := hacc
      cases heff
      rw [hp]
      exact ⟨h.precision_le, h.precision_eq, h.range, nofun, fun _ ↦ hopen, nofun, nofun⟩
  · rwa [hsame]

omit [DecimalWidth] in
theorem Balanced.quantityLaw {o : Order} (h : Balanced o) {precision : ℕ}
    (hsum : FilledBySum precision o) : QuantityLaw o := by
  have hle : o.filledQty.raw ≤ o.quantity.raw := by
    by_cases hs : o.status = .filled
    · exact (h.complete hs).le
    · exact (h.incomplete hs).le
  have heq_iff : o.filledQty.asDecimal = o.quantity.asDecimal ↔
      o.filledQty.raw = o.quantity.raw := by
    rw [le_antisymm_iff, Quantity.asDecimal_le_iff h.precision_eq,
      Quantity.asDecimal_le_iff h.precision_eq.symm, le_antisymm_iff]
  have hlt_iff : o.filledQty.asDecimal < o.quantity.asDecimal ↔
      o.filledQty.raw < o.quantity.raw := by
    rw [lt_iff_not_ge, Quantity.asDecimal_le_iff h.precision_eq.symm, not_le]
  refine ⟨(Quantity.asDecimal_le_iff h.precision_eq).mpr hle, ?_, ?_, ?_, ?_⟩
  · intro hs
    rw [Quantity.asDecimal, h.untouched (.inr (.inr hs))]
    simp
  · intro hs
    rw [hlt_iff]
    exact ⟨Quantity.asDecimal_pos.mpr (h.touched hs), h.incomplete (by simp [hs])⟩
  · rw [← hsum.asDecimal_eq, heq_iff]
    exact ⟨h.complete, fun hraw ↦ by_contra fun hs ↦ (h.incomplete hs).ne hraw⟩
  · intro hterm
    have hopen : o.filledQty.raw < o.quantity.raw := by
      refine h.incomplete fun hs ↦ ?_
      rw [isTerminal, hs] at hterm
      cases hterm
    rw [h.leavesQty_eq, Quantity.isZero, beq_eq_false_iff_ne]
    exact (Nat.sub_pos_of_lt hopen).ne'

/-- **Order quantities.** In every run from a fresh order in which each accepted fill is at most
what is left and each accepted amendment asks for more than is filled, the quantity law holds. -/
theorem quantityLaw_of_stepOk {o₀ : Order} (hnew : o₀.IsNew) (hpos : o₀.quantity.isPositive = true)
    (hprec : o₀.quantity.precision ≤ maxPrecision) {evs : List OrderEvent}
    (hfits : Along Order.applied FillFits o₀ evs) (hok : Along Order.applied StepOk o₀ evs) :
    QuantityLaw (o₀.applyAll evs) := by
  have hbalanced : Balanced (o₀.applyAll evs) :=
    (hfits.and hok).induction (fun o ev h hboth ↦ h.applied hboth.1 hboth.2)
      (balanced_of_isNew hnew hpos hprec)
  have hsum : FilledBySum o₀.quantity.precision (o₀.applyAll evs) :=
    foldl_induction (fun o ev h ↦ h.applied ev) (filledBySum_of_isNew hnew) evs
  exact hbalanced.quantityLaw hsum

end Run

/-! ## When a fill is accepted -/

section Fills

variable [DecimalWidth]

/-- The average fill price lies between zero and the larger of the two prices it is made of. -/
theorem mantissa_fillAverage {o : Order} {f : Fill} {q : Quantity} {precision : ℕ} {n : ℤ}
    (hadd : o.filledQty.checkedAdd f.lastQty = .ok q) (hpx : f.lastPx.Held precision)
    (havg : ∀ p ∈ o.avgPx, p.Held precision) (hn : f.lastPx.raw ≤ n)
    (hn' : ∀ p ∈ o.avgPx, p.raw ≤ n) :
    0 ≤ mantissa (o.fillAverage f q) precision ∧ mantissa (o.fillAverage f q) precision ≤ n := by
  obtain ⟨hprec, -, -, rfl⟩ := Quantity.checkedAdd_eq_ok_iff.mp hadd
  have hulp := ulp_pos precision
  have hF : 0 ≤ o.filledQty.asDecimal := o.filledQty.asDecimal_nonneg
  have hL : 0 ≤ f.lastQty.asDecimal := f.lastQty.asDecimal_nonneg
  have hsum : (⟨o.filledQty.raw + f.lastQty.raw, o.filledQty.precision⟩ : Quantity).asDecimal
      = o.filledQty.asDecimal + f.lastQty.asDecimal := by
    simp only [Quantity.asDecimal, hprec]
    push_cast
    ring
  have hpx0 : 0 ≤ f.lastPx.asDecimal := Price.asDecimal_nonneg hpx.nonneg
  have hpxn : f.lastPx.asDecimal ≤ n * ulp precision := by
    rw [Price.asDecimal, hpx.precision_eq]
    exact mul_le_mul_of_nonneg_right (by exact_mod_cast hn) hulp.le
  have hn0 : (0 : ℚ) ≤ n * ulp precision := hpx0.trans hpxn
  -- what was paid before is at most the larger price times what was filled
  obtain ⟨prev, hprev, hprev0, hprevn⟩ : ∃ prev, (∀ q, o.fillAverage f q
      = if q.asDecimal = 0 then f.lastPx.asDecimal
        else (prev + f.lastPx.asDecimal * f.lastQty.asDecimal) / q.asDecimal) ∧
      0 ≤ prev ∧ prev ≤ n * ulp precision * o.filledQty.asDecimal := by
    cases hcase : o.avgPx with
    | none => exact ⟨0, fun q ↦ by simp only [fillAverage, hcase], le_rfl, mul_nonneg hn0 hF⟩
    | some p =>
      have hp := havg p hcase
      have hpn : p.asDecimal ≤ n * ulp precision := by
        rw [Price.asDecimal, hp.precision_eq]
        exact mul_le_mul_of_nonneg_right (by exact_mod_cast hn' p hcase) hulp.le
      exact ⟨p.asDecimal * o.filledQty.asDecimal, fun q ↦ by simp only [fillAverage, hcase],
        mul_nonneg (Price.asDecimal_nonneg hp.nonneg) hF,
        mul_le_mul_of_nonneg_right hpn hF⟩
  have hband : 0 ≤ o.fillAverage f ⟨o.filledQty.raw + f.lastQty.raw, o.filledQty.precision⟩
      ∧ o.fillAverage f ⟨o.filledQty.raw + f.lastQty.raw, o.filledQty.precision⟩
        ≤ n * ulp precision := by
    rw [hprev, hsum]
    split_ifs with htotal
    · exact ⟨hpx0, hpxn⟩
    · have hpos : 0 < o.filledQty.asDecimal + f.lastQty.asDecimal :=
        lt_of_le_of_ne (add_nonneg hF hL) (Ne.symm htotal)
      refine ⟨div_nonneg (add_nonneg hprev0 (mul_nonneg hpx0 hL)) hpos.le, ?_⟩
      rw [div_le_iff₀ hpos, mul_add]
      exact add_le_add hprevn (mul_le_mul_of_nonneg_right hpxn hL)
  exact ⟨mantissa_nonneg hband.1 _, mantissa_le hband.2⟩

/-- **When a fill is accepted.** From a status that takes fills, a fill whose quantity can be added
is accepted if its price and the average so far can be held, and the new average can be held too. -/
theorem accepts_filled {o : Order} {f : Fill} {q : Quantity} {precision : ℕ}
    (hmem : o.status ∈ [OrderStatus.accepted, .partiallyFilled, .pendingUpdate])
    (hprec : precision ≤ maxPrecision) (hadd : o.filledQty.checkedAdd f.lastQty = .ok q)
    (hpx : f.lastPx.Held precision) (havg : ∀ p ∈ o.avgPx, p.Held precision) :
    ∃ o', o.Accepts (.filled f) o' ∧ ∀ p ∈ o'.avgPx, p.Held precision := by
  -- the larger of the two prices bounds the average
  obtain ⟨n, hn, hn', hheld⟩ : ∃ n : ℤ, f.lastPx.raw ≤ n ∧ (∀ p ∈ o.avgPx, p.raw ≤ n)
      ∧ n ≤ i64Max ∧ DecimalWidth.fits n = true := by
    cases hcase : o.avgPx with
    | none => exact ⟨_, le_rfl, by simp, hpx.le_max, hpx.fits⟩
    | some p =>
      have hp := havg p hcase
      rcases le_total f.lastPx.raw p.raw with hle | hle
      · exact ⟨p.raw, hle, by simp, hp.le_max, hp.fits⟩
      · exact ⟨f.lastPx.raw, le_rfl, by simpa using hle, hpx.le_max, hpx.fits⟩
  obtain ⟨h0, hle⟩ := mantissa_fillAverage hadd hpx havg hn hn'
  have hfits : DecimalWidth.fits (mantissa (o.fillAverage f q) precision) = true :=
    DecimalWidth.fits_mono (by omega) hheld.2
  have havgPx : Price.fromDecimal (o.fillAverage f q) f.lastPx.precision
      = .ok ⟨mantissa (o.fillAverage f q) precision, precision⟩ := by
    rw [hpx.precision_eq]
    exact Price.fromDecimal_eq_ok_iff.mpr ⟨hprec, hfits, h0, hle.trans hheld.1, rfl⟩
  refine ⟨_, ⟨_, hmem, fillEffect_eq_ok_iff.mpr ⟨q, _, hadd, havgPx, rfl⟩, rfl⟩, ?_⟩
  rintro p ⟨⟩
  exact ⟨rfl, h0, hle.trans hheld.1, hfits⟩

end Fills

section Instances

open scoped RustDecimal

/-- A market buy of two units. -/
def buyTwo : Order :=
  Order.new ⟨"S"⟩ ⟨"S-1"⟩ ⟨⟨"BTCUSDT"⟩, ⟨"SIM"⟩⟩ .buy .market ⟨2, 0⟩ none none .gtc {} 0

/-- A fill of `buyTwo` at a price of ten. -/
def buyTwoFill (tradeId : String) (qty : ℕ) : Fill where
  tradeId := ⟨tradeId⟩
  clientOrderId := ⟨"S-1"⟩
  venueOrderId := ⟨"V-1"⟩
  instrumentId := ⟨⟨"BTCUSDT"⟩, ⟨"SIM"⟩⟩
  side := .buy
  lastPx := ⟨10, 0⟩
  lastQty := ⟨qty, 0⟩
  fee := Money.zero ⟨"USDT", 2, two_le_maxPrecision⟩
  liquidity := .taker
  tsEvent := 3
  tsInit := 3

/-- Accepted, filled by one, amended to three, filled by the remaining two. -/
def buyTwoEvents : List OrderEvent :=
  [.submitted 1, .accepted ⟨"V-1"⟩ 2, .partiallyFilled (buyTwoFill "T-1" 1), .pendingUpdate 4,
    .updated (some ⟨3, 0⟩) none 5, .filled (buyTwoFill "T-2" 2)]

theorem quantityLaw_buyTwo :
    (buyTwo.applyAll buyTwoEvents).status = .filled ∧ QuantityLaw (buyTwo.applyAll buyTwoEvents) :=
  ⟨by decide +kernel, quantityLaw_of_stepOk isNew_new (by decide) (by decide) (by decide +kernel)
    (by decide +kernel)⟩

/-- A fill of three for an order of two is accepted. -/
theorem not_quantityLaw_of_overfill :
    ¬ ∀ (o₀ : Order) (evs : List OrderEvent), o₀.IsNew → o₀.quantity.isPositive = true →
      o₀.quantity.precision ≤ maxPrecision → Along Order.applied FillFits o₀ evs →
      QuantityLaw (o₀.applyAll evs) := by
  intro h
  have hlaw := h buyTwo [.submitted 1, .accepted ⟨"V-1"⟩ 2, .filled (buyTwoFill "T-1" 3)] isNew_new
    (by decide) (by decide) (by decide)
  exact absurd hlaw.filled_le (by decide +kernel)

end Instances

end Order

end Coinext
