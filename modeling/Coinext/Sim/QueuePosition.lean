import Coinext.Sim.Evolution

/-!
# The queue in front of a limit order

A bar that only touches the limit of a resting order first serves the queue in front of it. The
venue keeps the queue as one quantity, seeded from the first bar that reaches the limit; every bar
gives the order a share of its volume, which pays for the queue before it fills the order. With
natural numbers and truncated subtraction both are one line: after shares that sum to `S`, a queue
of `Q` has filled `S - Q` of the order and has `Q - S` left (`fillsAlong_of_touches`). The shares
themselves depend on what earlier bars have filled, since no share exceeds what remains.
-/

namespace Coinext

/-- The decimals hold every quantity that fits its field. -/
def DecimalWidth.HoldsI64 [DecimalWidth] : Prop :=
  ∀ m : ℤ, 0 ≤ m → m ≤ i64Max → DecimalWidth.fits m = true

/-- A quantity at `p` decimal places that fits its field. -/
structure Quantity.Fits (p : ℕ) (q : Quantity) : Prop where
  precision : q.precision = p
  le_max : (q.raw : ℤ) ≤ i64Max

namespace SimulatedExecutionClient

variable [DecimalWidth] {model : BrokerageModel} {inst : Instrument} {tape : Tape} {r r' : Resting}
  {p : ℕ} {v : Quantity} {limit : Price}

/-! ## One bar -/

/-- The bar trades at the limit and not beyond it. -/
def Touch (tape : Tape) (side : OrderSide) (limit : Price) : Prop :=
  match side with
  | .buy => tape.low = limit
  | .sell => tape.high = limit

/-- The bar trades beyond the limit. -/
def Through (tape : Tape) (side : OrderSide) (limit : Price) : Prop :=
  match side with
  | .buy => tape.low < limit
  | .sell => limit < tape.high

omit [DecimalWidth] in
theorem Touch.not_through {side : OrderSide} (h : Touch tape side limit) :
    ¬ Through tape side limit := by
  unfold Touch at h
  unfold Through
  cases side with
  | buy => exact h.ge.not_gt
  | sell => exact h.le.not_gt

/-- What a brokerage model must do for the law: it never over-fills, and the queue that it seeds is
a quantity at the precision of the volume. -/
structure Queues (model : BrokerageModel) : Prop where
  neverOverfills : model.NeverOverfills
  queue : ∀ v inst, (model.initialQueueAhead v inst).Fits v.precision

/-- A limit order that rests at its price, all its quantities at `p` decimal places. -/
structure RestsAt (p : ℕ) (limit : Price) (r : Resting) : Prop where
  orderType : r.order.orderType = .limit
  waits : r.pendingOpen = false
  price : r.order.price = some limit
  le_maxPrecision : p ≤ maxPrecision
  remaining : r.remaining.Fits p
  queue : ∀ q, r.queueAhead = some q → q.Fits p

/-- The queue that a bar meets. -/
def queueAt (model : BrokerageModel) (r : Resting) (v : Quantity) (inst : Instrument) : Quantity :=
  r.queueAhead.getD (model.initialQueueAhead v inst)

/-- The share of a bar's volume that an order gets. -/
def shareAt (model : BrokerageModel) (r : Resting) (v : Quantity) (inst : Instrument) : Quantity :=
  model.fillableQty r.remaining v inst

omit [DecimalWidth] in
theorem RestsAt.fits_queueAt (h : RestsAt p limit r) (hmodel : Queues model)
    (hv : v.precision = p) : (queueAt model r v inst).Fits p := by
  unfold queueAt
  cases hqueue : r.queueAhead with
  | none => exact hv ▸ hmodel.queue v inst
  | some q => exact h.queue q hqueue

omit [DecimalWidth] in
theorem RestsAt.fits_shareAt (h : RestsAt p limit r) (hmodel : Queues model) :
    (shareAt model r v inst).Fits p ∧ (shareAt model r v inst).raw ≤ r.remaining.raw := by
  obtain ⟨hprec, hle⟩ := hmodel.neverOverfills r.remaining v inst
  have hmax := h.remaining.le_max
  exact ⟨⟨hprec.trans h.remaining.precision, (Int.ofNat_le.mpr hle).trans hmax⟩, hle⟩

theorem fromDecimal_min {q q' : Quantity} (hwide : DecimalWidth.HoldsI64) (hp : p ≤ maxPrecision)
    (hq : q.Fits p) (hq' : q'.Fits p) :
    Quantity.fromDecimal (min q.asDecimal q'.asDecimal) p = .ok ⟨min q.raw q'.raw, p⟩ := by
  have hmin : min q.asDecimal q'.asDecimal = (⟨min q.raw q'.raw, p⟩ : Quantity).asDecimal := by
    have hprec : q.precision = q'.precision := hq.precision.trans hq'.precision.symm
    rcases le_total q.raw q'.raw with hle | hle
    · rw [min_eq_left ((Quantity.asDecimal_le_iff hprec).mpr hle), min_eq_left hle, ← hq.precision]
    · rw [min_eq_right ((Quantity.asDecimal_le_iff hprec.symm).mpr hle), min_eq_right hle,
        ← hq'.precision]
  have hmax : ((min q.raw q'.raw : ℕ) : ℤ) ≤ i64Max := by
    have h := hq.le_max
    omega
  have hmantissa := Quantity.mantissa_asDecimal ⟨min q.raw q'.raw, p⟩
  simp only at hmantissa
  rw [hmin, Quantity.fromDecimal_eq_ok_iff, hmantissa]
  exact ⟨Quantity.asDecimal_nonneg _, hp, hwide _ (Int.natCast_nonneg _) hmax, hmax, rfl⟩

omit [DecimalWidth] in
theorem checkedSub_of_fits {q : Quantity} (hq : q.Fits p) (hp : p ≤ maxPrecision) {n : ℕ}
    (hn : (n : ℤ) ≤ i64Max) : q.checkedSub ⟨n, p⟩ = .ok ⟨q.raw - n, p⟩ := by
  obtain ⟨raw, prec⟩ := q
  obtain rfl : prec = p := hq.precision
  exact (Quantity.checkedSub_eq_ok_iff (o := ⟨n, prec⟩) hn).mpr ⟨rfl, hp, rfl⟩

/-- **A touch:** the share pays for the queue first, and the order gets what is left. -/
theorem queueShare_touch (h : RestsAt p limit r) (hwide : DecimalWidth.HoldsI64)
    (hmodel : Queues model) (hv : v.precision = p) :
    queueShare model inst r false v
      = (⟨(shareAt model r v inst).raw - (queueAt model r v inst).raw, p⟩,
        ⟨(queueAt model r v inst).raw - (shareAt model r v inst).raw, p⟩) := by
  have hqueue : (queueAt model r v inst).Fits p := h.fits_queueAt hmodel hv
  obtain ⟨hshare, -⟩ : (shareAt model r v inst).Fits p ∧ _ := h.fits_shareAt hmodel
  have hpaid := fromDecimal_min hwide h.le_maxPrecision hshare hqueue
  have hmax : ((min (shareAt model r v inst).raw (queueAt model r v inst).raw : ℕ) : ℤ)
      ≤ i64Max := by
    have hle := hshare.le_max
    omega
  have hnq := checkedSub_of_fits hqueue h.le_maxPrecision hmax
  have hfq := checkedSub_of_fits hshare h.le_maxPrecision hmax
  have hqueueAt : r.queueAhead.getD (model.initialQueueAhead v inst) = queueAt model r v inst := rfl
  have hshareAt : model.fillableQty r.remaining v inst = shareAt model r v inst := rfl
  unfold queueShare
  simp only [Bool.false_eq_true, if_false, hqueueAt, hshareAt, hshare.precision, hpaid, hnq, hfq,
    Prod.mk.injEq, Quantity.mk.injEq, and_true]
  omega

theorem queueShare_through (h : RestsAt p limit r) (hmodel : Queues model) :
    queueShare model inst r true v = (shareAt model r v inst, Quantity.zero p) := by
  obtain ⟨hshare, -⟩ : (shareAt model r v inst).Fits p ∧ _ := h.fits_shareAt hmodel
  rw [← hshare.precision]
  rfl

/-- What a bar that reaches the limit decides. -/
theorem RestsAt.verdict_eq (h : RestsAt p limit r) (hbar : tape.barVolume = some v)
    {through : Bool} (hthrough : through = true ↔ Through tape r.order.side limit)
    (hreach : Through tape r.order.side limit ∨ Touch tape r.order.side limit) :
    verdict model inst tape r = { decision := some ⟨limit, (queueShare model inst r through v).1,
      some (queueShare model inst r through v).2, .maker⟩ } := by
  have hlimit : ¬ (r.order.orderType ≠ .market ∧ r.order.orderType ≠ .limit) := by
    simp [h.orderType]
  simp only [verdict, h.waits, Bool.false_eq_true, if_false, if_neg hlimit, h.price]
  unfold Through Touch at hreach
  unfold Through at hthrough
  unfold limitVerdict
  cases hside : r.order.side with
  | buy =>
    rw [hside] at hreach hthrough
    have heq : decide (tape.low < limit) = through := by
      rw [Bool.eq_iff_iff, decide_eq_true_iff, hthrough]
    simp only [heq, decide_eq_true_eq]
    rw [if_pos (hreach.imp hthrough.mpr id), hbar]
  | sell =>
    rw [hside] at hreach hthrough
    have heq : decide (tape.high > limit) = through := by
      rw [Bool.eq_iff_iff, decide_eq_true_iff, hthrough]
    simp only [heq, decide_eq_true_eq]
    rw [if_pos (hreach.imp hthrough.mpr id), hbar]

/-- What is left of an order that a bar fills by `fill`, with a queue of `queue` in front of it. -/
def leftAfter (r : Resting) (fill queue : Quantity) : Option Resting :=
  if r.remaining.raw - fill.raw = 0 then none
  else some { r with
    remaining := ⟨r.remaining.raw - fill.raw, r.remaining.precision⟩
    queueAhead := some queue }

/-- **A bar that reaches the limit** fills by what the queue leaves of the share. -/
theorem RestsAt.reached (h : RestsAt p limit r) (hbar : tape.barVolume = some v)
    {through : Bool} (hthrough : through = true ↔ Through tape r.order.side limit)
    (hreach : Through tape r.order.side limit ∨ Touch tape r.order.side limit)
    {fill queue : Quantity} (hshare : queueShare model inst r through v = (fill, queue))
    (hfill : fill.Fits p) :
    ((offered model inst tape r.order.instrumentId r).map Decision.fillQty).toList
        = [fill].filter Quantity.isPositive ∧
      survivor model inst tape r.order.instrumentId r = leftAfter r fill queue := by
  have hverdict : verdict model inst tape r
      = { decision := some ⟨limit, fill, some queue, .maker⟩ } := by
    rw [h.verdict_eq hbar hthrough hreach, hshare]
  refine ⟨?_, ?_⟩
  · rw [offered, if_pos rfl, hverdict]
    cases hpos : fill.isPositive <;> simp [hpos]
  · have hsame : applyVerdict r { decision := some ⟨limit, fill, some queue, .maker⟩ } = r := rfl
    have hfilled : fillResting r ⟨limit, fill, some queue, .maker⟩ = { r with
        remaining := ⟨r.remaining.raw - fill.raw, r.remaining.precision⟩
        queueAhead := some queue } := by
      obtain ⟨raw, prec⟩ := fill
      obtain rfl : prec = p := hfill.precision
      have hsub := checkedSub_of_fits h.remaining h.le_maxPrecision hfill.le_max
      simp only at hsub
      simp only [fillResting, hsub, h.remaining.precision, Option.some_or]
      split_ifs with hpos
      · rfl
      · have hzero : raw = 0 := by simpa [Quantity.isPositive] using hpos
        rw [hzero, Nat.sub_zero, ← h.remaining.precision]
    rw [survivor, if_pos rfl, hverdict]
    simp only [hsame, hfilled, Quantity.isZero, beq_iff_eq]
    rfl

omit [DecimalWidth] in
theorem leftAfter_eq_some {fill queue : Quantity} (h : leftAfter r fill queue = some r') :
    r'.order = r.order ∧ r'.queueAhead = some queue := by
  unfold leftAfter at h
  split_ifs at h
  cases h
  exact ⟨rfl, rfl⟩

omit [DecimalWidth] in
theorem RestsAt.leftAfter (h : RestsAt p limit r) {fill queue : Quantity} (hqueue : queue.Fits p)
    (hr : leftAfter r fill queue = some r') : RestsAt p limit r' := by
  unfold SimulatedExecutionClient.leftAfter at hr
  split_ifs at hr
  cases hr
  refine ⟨h.orderType, h.waits, h.price, h.le_maxPrecision, ⟨h.remaining.precision, ?_⟩, ?_⟩
  · have hmax := h.remaining.le_max
    change ((r.remaining.raw - fill.raw : ℕ) : ℤ) ≤ i64Max
    omega
  · intro q hq
    cases hq
    exact hqueue

end SimulatedExecutionClient

namespace VenueSession

open SimulatedExecutionClient

variable [DecimalWidth] {model : BrokerageModel} {r r' : Resting} {p : ℕ} {limit : Price}
  {calls : List VenueCall}

/-! ## Many bars -/

/-- What a call offers the order is a bar that only touches its limit, with a volume at `p` decimal
places. -/
def TouchesOnly (p : ℕ) (o : Order) (limit : Price) (calls : List VenueCall) : Prop :=
  ∀ call ∈ calls, ∀ inst tape, offerFor o.instrumentId call = some (inst, tape) →
    Touch tape o.side limit ∧ ∃ v, tape.barVolume = some v ∧ v.precision = p

/-- The volume that a call offers an instrument. -/
def volumeFor (id : InstrumentId) (call : VenueCall) : Option (Instrument × Quantity) :=
  (offerFor id call).bind fun offer ↦ offer.2.barVolume.map (offer.1, ·)

/-- The shares that an order gets of the bars that reach it, as it evolves. -/
def sharesAlong (model : BrokerageModel) : List VenueCall → Resting → List Quantity
  | [], _ => []
  | call :: calls, r =>
    ((volumeFor r.order.instrumentId call).map
      fun offer ↦ shareAt model r offer.2 offer.1).toList ++
      match evolve model r call with
      | some r' => sharesAlong model calls r'
      | none => []

theorem sharesAlong_cons_some {call : VenueCall} (h : evolve model r call = some r')
    (calls : List VenueCall) : sharesAlong model (call :: calls) r
      = ((volumeFor r.order.instrumentId call).map fun offer ↦
        shareAt model r offer.2 offer.1).toList ++ sharesAlong model calls r' := by
  rw [sharesAlong, h]

theorem sharesAlong_cons_none {call : VenueCall} (h : evolve model r call = none)
    (calls : List VenueCall) : sharesAlong model (call :: calls) r
      = ((volumeFor r.order.instrumentId call).map fun offer ↦
        shareAt model r offer.2 offer.1).toList := by
  rw [sharesAlong, h, List.append_nil]

/-- The queue in front of an order: the recorded one, or the one that the first bar seeds. -/
def queueAlong (model : BrokerageModel) (calls : List VenueCall) (r : Resting) : Quantity :=
  match calls.findSome? (volumeFor r.order.instrumentId) with
  | some offer => queueAt model r offer.2 offer.1
  | none => r.queueAhead.getD (Quantity.zero r.remaining.precision)

/-- The sum of some quantities, in units of the last place. -/
def rawSum (qs : List Quantity) : ℕ := (qs.map Quantity.raw).sum

omit [DecimalWidth] in
theorem rawSum_append (qs qs' : List Quantity) : rawSum (qs ++ qs') = rawSum qs + rawSum qs' := by
  rw [rawSum, List.map_append, List.sum_append]
  rfl

omit [DecimalWidth] in
theorem rawSum_filter_isPositive (q : Quantity) :
    rawSum ([q].filter Quantity.isPositive) = q.raw := by
  by_cases hpos : 0 < q.raw
  · simp [rawSum, Quantity.isPositive, hpos]
  · have hzero : q.raw = 0 := by omega
    simp [rawSum, Quantity.isPositive, hzero]

omit [DecimalWidth] in
theorem queueAlong_of_some {q : Quantity} (h : r.queueAhead = some q) :
    queueAlong model calls r = q := by
  unfold queueAlong queueAt
  rw [h]
  cases calls.findSome? (volumeFor r.order.instrumentId) <;> rfl

/-- What some bars do to an order: its shares pay for the queue first, and then fill it. -/
structure PaysQueue (model : BrokerageModel) (p : ℕ) (limit : Price) (calls : List VenueCall)
    (r : Resting) : Prop where
  fills : ∀ q ∈ fillsAlong model calls r, q.precision = p
  shares : ∀ q ∈ sharesAlong model calls r, q.precision = p
  filled : rawSum (fillsAlong model calls r)
    = rawSum (sharesAlong model calls r) - (queueAlong model calls r).raw
  rests : ∀ r', evolution model calls r = some r' → RestsAt p limit r'
  /-- The queue is recorded from the first bar on. -/
  queue : ∀ r', evolution model calls r = some r' →
    r.queueAhead ≠ none ∨ sharesAlong model calls r ≠ [] → r'.queueAhead
      = some ⟨(queueAlong model calls r).raw - rawSum (sharesAlong model calls r), p⟩

theorem PaysQueue.cons_of_offerFor_eq_none {call : VenueCall}
    (h : PaysQueue model p limit calls r) (hoffer : offerFor r.order.instrumentId call = none) :
    PaysQueue model p limit (call :: calls) r := by
  have hvolume : volumeFor r.order.instrumentId call = none := by simp [volumeFor, hoffer]
  have hevolve : evolve model r call = some r := by rw [evolve_eq, hoffer]
  have hqueue : queueAlong model (call :: calls) r = queueAlong model calls r := by
    simp only [queueAlong, List.findSome?_cons, hvolume]
  have hfills : fillsAlong model (call :: calls) r = fillsAlong model calls r := by
    rw [fillsAlong_cons_some hevolve, fillAt, hoffer]
    rfl
  have hshares : sharesAlong model (call :: calls) r = sharesAlong model calls r := by
    rw [sharesAlong_cons_some hevolve, hvolume]
    rfl
  have hevolution : evolution model (call :: calls) r = evolution model calls r := by
    rw [evolution_cons, hevolve]
    rfl
  obtain ⟨h₁, h₂, h₃, h₄, h₅⟩ := h
  constructor <;> simp only [hfills, hshares, hqueue, hevolution] <;> assumption

/-- What a call does to an order when its bar only touches the limit: a share of `s` meets a queue
of `q`. -/
structure Touched (model : BrokerageModel) (p : ℕ) (call : VenueCall) (r : Resting) (s q : ℕ) :
    Prop where
  share_le : (s : ℤ) ≤ i64Max
  queue_le : (q : ℤ) ≤ i64Max
  share : ((volumeFor r.order.instrumentId call).map
    fun offer ↦ shareAt model r offer.2 offer.1).toList = [⟨s, p⟩]
  queue : ∀ calls, queueAlong model (call :: calls) r = ⟨q, p⟩
  fill : fillAt model r call = [(⟨s - q, p⟩ : Quantity)].filter Quantity.isPositive
  evolved : evolve model r call = leftAfter r ⟨s - q, p⟩ ⟨q - s, p⟩

theorem touched_of_offerFor (hwide : DecimalWidth.HoldsI64) (hmodel : Queues model)
    (h : RestsAt p limit r) {call : VenueCall} {inst : Instrument} {tape : Tape}
    (hoffer : offerFor r.order.instrumentId call = some (inst, tape))
    (htouch : Touch tape r.order.side limit) {v : Quantity} (hbar : tape.barVolume = some v)
    (hv : v.precision = p) : ∃ s q, Touched model p call r s q := by
  have hshare : (shareAt model r v inst).Fits p := (h.fits_shareAt hmodel).1
  have hqueue : (queueAt model r v inst).Fits p := h.fits_queueAt hmodel hv
  have hsplit : queueShare model inst r false v = _ := queueShare_touch h hwide hmodel hv
  have hnot : false = true ↔ Through tape r.order.side limit := by
    simpa using htouch.not_through
  have hvolume : volumeFor r.order.instrumentId call = some (inst, v) := by
    simp [volumeFor, hoffer, hbar]
  have hfits : (⟨(shareAt model r v inst).raw - (queueAt model r v inst).raw, p⟩ :
      Quantity).Fits p := by
    refine ⟨rfl, ?_⟩
    have hle := hshare.le_max
    simp only
    omega
  obtain ⟨hoffered, hsurvivor⟩ := h.reached hbar hnot (.inr htouch) hsplit hfits
  refine ⟨(shareAt model r v inst).raw, (queueAt model r v inst).raw, hshare.le_max,
    hqueue.le_max, ?_, ?_, ?_, ?_⟩
  · rw [hvolume, ← hshare.precision]
    rfl
  · intro calls
    simp only [queueAlong, List.findSome?_cons, hvolume]
    rw [← hqueue.precision]
  · rw [fillAt, hoffer]
    exact hoffered
  · rw [evolve_eq, hoffer]
    exact hsurvivor

namespace Touched

variable {call : VenueCall} {s q : ℕ}

theorem precision_of_mem_fillAt (ht : Touched model p call r s q) :
    ∀ fill ∈ fillAt model r call, fill.precision = p := by
  intro fill hfill
  rw [ht.fill] at hfill
  rw [List.mem_singleton.mp (List.mem_of_mem_filter hfill)]

theorem rawSum_fillAt (ht : Touched model p call r s q) :
    rawSum (fillAt model r call) = s - q := by
  rw [ht.fill, rawSum_filter_isPositive]

theorem paysQueue_of_none (ht : Touched model p call r s q)
    (hleft : leftAfter r ⟨s - q, p⟩ ⟨q - s, p⟩ = none) :
    PaysQueue model p limit (call :: calls) r := by
  have hnone : evolve model r call = none := ht.evolved.trans hleft
  have hshares : sharesAlong model (call :: calls) r = [⟨s, p⟩] := by
    rw [sharesAlong_cons_none hnone, ht.share]
  have hgone : evolution model (call :: calls) r = none := by
    rw [evolution_cons, hnone]
    rfl
  refine ⟨?_, ?_, ?_, ?_, ?_⟩
  · rw [fillsAlong_cons_none hnone]
    exact ht.precision_of_mem_fillAt
  · intro share hshare
    rw [hshares] at hshare
    rw [List.mem_singleton.mp hshare]
  · rw [fillsAlong_cons_none hnone, hshares, ht.queue, ht.rawSum_fillAt]
    simp [rawSum]
  · intro r' hr'
    cases hgone.symm.trans hr'
  · intro r' hr'
    cases hgone.symm.trans hr'

/-- The order rests on, with what is left of the queue in front of it. -/
theorem paysQueue_of_some {r₁ : Resting} (ht : Touched model p call r s q)
    (hleft : leftAfter r ⟨s - q, p⟩ ⟨q - s, p⟩ = some r₁)
    (hqueue : r₁.queueAhead = some ⟨q - s, p⟩) (hlater : PaysQueue model p limit calls r₁) :
    PaysQueue model p limit (call :: calls) r := by
  have hsome : evolve model r call = some r₁ := ht.evolved.trans hleft
  have hshares : sharesAlong model (call :: calls) r = ⟨s, p⟩ :: sharesAlong model calls r₁ := by
    rw [sharesAlong_cons_some hsome, ht.share]
    rfl
  have hsum : rawSum (sharesAlong model (call :: calls) r)
      = s + rawSum (sharesAlong model calls r₁) := by
    rw [hshares]
    simp [rawSum]
  have hevolution : evolution model (call :: calls) r = evolution model calls r₁ := by
    rw [evolution_cons, hsome]
    rfl
  obtain ⟨hfillsPrec, hsharesPrec, hfilled, hrests, hrecorded⟩ := hlater
  rw [queueAlong_of_some hqueue] at hfilled hrecorded
  refine ⟨?_, ?_, ?_, ?_, ?_⟩
  · rw [fillsAlong_cons_some hsome]
    exact List.forall_mem_append.mpr ⟨ht.precision_of_mem_fillAt, hfillsPrec⟩
  · rw [hshares]
    exact List.forall_mem_cons.mpr ⟨rfl, hsharesPrec⟩
  · rw [fillsAlong_cons_some hsome, rawSum_append, ht.rawSum_fillAt, hfilled, hsum, ht.queue]
    -- `(s - q) + (S - (q - s)) = (s + S) - q`: one of the two differences is zero
    simp only
    omega
  · rw [hevolution]
    exact hrests
  · intro r' hr' _
    rw [hevolution] at hr'
    rw [hrecorded r' hr' (.inl (by simp [hqueue])), ht.queue, hsum, Nat.sub_sub]

end Touched

/-- **The queue-position law.** -/
theorem paysQueue_of_touches (hwide : DecimalWidth.HoldsI64) (hmodel : Queues model)
    (h : RestsAt p limit r) (htouch : TouchesOnly p r.order limit calls) :
    PaysQueue model p limit calls r := by
  induction calls generalizing r with
  | nil =>
    refine ⟨(fun q hq ↦ nomatch hq), (fun q hq ↦ nomatch hq), (Nat.zero_sub _).symm, ?_, ?_⟩
    · intro r' hr'
      cases hr'
      exact h
    intro r' hr' hne
    cases hr'
    obtain ⟨q, hq⟩ := Option.ne_none_iff_exists'.mp (hne.resolve_right fun hne ↦ hne rfl)
    rw [queueAlong_of_some hq, hq, ← (h.queue q hq).precision]
    rfl
  | cons call calls ih =>
    have hlater : TouchesOnly p r.order limit calls := fun call' hcall' ↦
      htouch call' (List.mem_cons_of_mem call hcall')
    cases hoffer : offerFor r.order.instrumentId call with
    | none => exact (ih h hlater).cons_of_offerFor_eq_none hoffer
    | some offer =>
      obtain ⟨inst, tape⟩ := offer
      obtain ⟨htouched, v, hbar, hv⟩ := htouch call List.mem_cons_self inst tape hoffer
      obtain ⟨s, q, ht⟩ := touched_of_offerFor hwide hmodel h hoffer htouched hbar hv
      cases hleft : leftAfter r ⟨s - q, p⟩ ⟨q - s, p⟩ with
      | none => exact ht.paysQueue_of_none hleft
      | some r₁ =>
        have hqueue : (⟨q - s, p⟩ : Quantity).Fits p := by
          refine ⟨rfl, ?_⟩
          have hle := ht.queue_le
          simp only
          omega
        have hrests : RestsAt p limit r₁ := h.leftAfter hqueue hleft
        obtain ⟨horder, hahead⟩ := leftAfter_eq_some hleft
        exact ht.paysQueue_of_some hleft hahead (ih hrests (horder.symm ▸ hlater))

/-! ## Whole sessions -/

/-- The total of some quantities. -/
def total (qs : List Quantity) : Decimal := (qs.map Quantity.asDecimal).sum

omit [DecimalWidth] in
theorem total_append (qs qs' : List Quantity) : total (qs ++ qs') = total qs + total qs' := by
  rw [total, List.map_append, List.sum_append]
  rfl

omit [DecimalWidth] in
theorem total_eq {qs : List Quantity} (h : ∀ q ∈ qs, q.precision = p) :
    total qs = rawSum qs * ulp p := by
  induction qs with
  | nil => simp [total, rawSum]
  | cons q qs ih =>
    obtain ⟨hq, hqs⟩ := List.forall_mem_cons.mp h
    have htotal : total (q :: qs) = q.asDecimal + total qs := List.sum_cons
    have hraw : rawSum (q :: qs) = q.raw + rawSum qs := List.sum_cons
    rw [htotal, hraw, ih hqs, Quantity.asDecimal, hq]
    push_cast
    ring

omit [DecimalWidth] in
theorem natSub_mul_ulp (m n : ℕ) :
    ((m - n : ℕ) : ℚ) * ulp p = max 0 (m * ulp p - n * ulp p) := by
  have hulp := (ulp_pos p).le
  rcases le_total n m with hle | hle
  · have hmul : (n : ℚ) * ulp p ≤ m * ulp p :=
      mul_le_mul_of_nonneg_right (Nat.cast_le.mpr hle) hulp
    rw [max_eq_right (sub_nonneg.mpr hmul), Nat.cast_sub hle, sub_mul]
  · have hmul : (m : ℚ) * ulp p ≤ n * ulp p :=
      mul_le_mul_of_nonneg_right (Nat.cast_le.mpr hle) hulp
    rw [max_eq_left (sub_nonpos.mpr hmul), Nat.sub_eq_zero_of_le hle, Nat.cast_zero, zero_mul]

theorem sameOrder_of_evolution (h : evolution model calls r = some r') : SameOrder r r' :=
  of_evolution (P := fun r' ↦ SameOrder r r') h (.refl r) fun _ _ _ _ _ hr hr' ↦
    let hsame := sameOrder_of_survivor hr'
    ⟨hsame.clientOrderId.trans hr.clientOrderId, hsame.instrumentId.trans hr.instrumentId,
      hsame.side.trans hr.side, hsame.quantity.trans hr.quantity, hsame.price.trans hr.price,
      hsame.venueOrderId.trans hr.venueOrderId⟩

/-- How an order comes forward in its queue, over calls that touch its limit, and what a bar beyond
the limit does then. -/
structure QueueLaw (model : BrokerageModel) (p : ℕ) (limit : Price) (front calls : List VenueCall)
    (r : Resting) : Prop where
  filled : total ((run model (front ++ calls)).filledUnder r.venueOrderId)
      - total ((run model front).filledUnder r.venueOrderId)
    = max 0 (total (sharesAlong model calls r) - (queueAlong model calls r).asDecimal)
  queue : ∀ r' ∈ (run model (front ++ calls)).sim.resting, r'.venueOrderId = r.venueOrderId →
    sharesAlong model calls r ≠ [] → ∃ q, r'.queueAhead = some q ∧
      q.asDecimal = max 0 ((queueAlong model calls r).asDecimal - total (sharesAlong model calls r))
  antitone : ∀ calls₁ calls₂, calls = calls₁ ++ calls₂ →
    ∀ r₁ ∈ (run model (front ++ calls₁)).sim.resting, r₁.venueOrderId = r.venueOrderId →
    ∀ r' ∈ (run model (front ++ calls)).sim.resting, r'.venueOrderId = r.venueOrderId →
    ∀ q₁ q, r₁.queueAhead = some q₁ → r'.queueAhead = some q → q.asDecimal ≤ q₁.asDecimal
  swept : ∀ r' ∈ (run model (front ++ calls)).sim.resting, r'.venueOrderId = r.venueOrderId →
    ∀ cache now ev inst tape v, Offers cache ev inst tape →
      ev.instrumentId = r.order.instrumentId → tape.barVolume = some v →
      Through tape r.order.side limit →
        filledBy model (run model (front ++ calls)) r.venueOrderId (.market cache now ev)
            = [shareAt model r' v inst].filter Quantity.isPositive ∧
          ∀ r'' ∈ (run model (front ++ calls ++ [.market cache now ev])).sim.resting,
            r''.venueOrderId = r.venueOrderId → r''.queueAhead = some (Quantity.zero p)

omit [DecimalWidth] in
theorem TouchesOnly.volume {o : Order} (h : TouchesOnly p o limit calls) {inst : Instrument}
    {v : Quantity} {call : VenueCall} (hcall : call ∈ calls)
    (hvolume : volumeFor o.instrumentId call = some (inst, v)) : v.precision = p := by
  obtain ⟨⟨inst', tape⟩, hoffer, hmap⟩ := Option.bind_eq_some_iff.mp hvolume
  obtain ⟨-, v', hbar, hv⟩ := h call hcall inst' tape hoffer
  simp only [hbar, Option.map_some, Option.some.injEq, Prod.mk.injEq] at hmap
  exact hmap.2 ▸ hv

omit [DecimalWidth] in
theorem fits_queueAlong (h : RestsAt p limit r) (hmodel : Queues model)
    (htouch : TouchesOnly p r.order limit calls) : (queueAlong model calls r).Fits p := by
  unfold queueAlong
  cases hfind : calls.findSome? (volumeFor r.order.instrumentId) with
  | none =>
    cases hqueue : r.queueAhead with
    | none => exact ⟨h.remaining.precision, show ((0 : ℕ) : ℤ) ≤ i64Max by decide⟩
    | some q => exact h.queue q hqueue
  | some offer =>
    obtain ⟨call, hcall, hvolume⟩ := List.exists_of_findSome?_eq_some hfind
    exact h.fits_queueAt hmodel (htouch.volume hcall hvolume)

theorem queueLaw_of_touches (hwide : DecimalWidth.HoldsI64) (hmodel : Queues model)
    {front : List VenueCall} (hr : r ∈ (run model front).sim.resting) (h : RestsAt p limit r)
    (htouch : TouchesOnly p r.order limit calls)
    (hkeep : ∀ now, .cancel now r.order.clientOrderId ∉ calls) :
    QueueLaw model p limit front calls r := by
  have hpays := paysQueue_of_touches hwide hmodel h htouch
  have hshares := total_eq hpays.shares
  have hqueue : (queueAlong model calls r).asDecimal = (queueAlong model calls r).raw * ulp p := by
    rw [Quantity.asDecimal, (fits_queueAlong h hmodel htouch).precision]
  refine ⟨?_, ?_, ?_, ?_⟩
  · rw [filledUnder_append hr hkeep, total_append, add_sub_cancel_left, total_eq hpays.fills,
      hpays.filled, natSub_mul_ulp, hshares, hqueue]
  · intro r' hr' hid hne
    have hevolution := evolution_of_rests hr hr' hid
    refine ⟨_, hpays.queue r' hevolution (.inr hne), ?_⟩
    rw [Quantity.asDecimal, natSub_mul_ulp, hshares, hqueue]
  · rintro calls₁ calls₂ rfl r₁ hr₁ hid₁ r' hr' hid q₁ q hq₁ hq
    have htouch₁ : TouchesOnly p r.order limit calls₁ := fun call hcall ↦
      htouch call (List.mem_append_left _ hcall)
    have hevolution := evolution_of_rests hr hr₁ hid₁
    have hrests₁ := (paysQueue_of_touches hwide hmodel h htouch₁).rests r₁ hevolution
    have hsame := sameOrder_of_evolution hevolution
    have htouch₂ : TouchesOnly p r₁.order limit calls₂ := by
      rw [TouchesOnly, hsame.instrumentId, hsame.side]
      exact fun call hcall ↦ htouch call (List.mem_append_right _ hcall)
    rw [← List.append_assoc] at hr'
    have hpays₂ := paysQueue_of_touches hwide hmodel hrests₁ htouch₂
    have hleft := hpays₂.queue r' (evolution_of_rests hr₁ hr' (hid.trans hid₁.symm))
      (.inl (by simp [hq₁]))
    rw [queueAlong_of_some hq₁, hq, Option.some.injEq] at hleft
    have hprec : q.precision = q₁.precision := by
      rw [hleft, (hrests₁.queue q₁ hq₁).precision]
    rw [Quantity.asDecimal_le_iff hprec, hleft]
    exact Nat.sub_le _ _
  · intro r' hr' hid cache now ev inst tape v hoffers hev hbar hthrough
    have hevolution := evolution_of_rests hr hr' hid
    have hrests' := hpays.rests r' hevolution
    have hsame := sameOrder_of_evolution hevolution
    have hid' : r'.order.instrumentId = ev.instrumentId := hsame.instrumentId.trans hev.symm
    rw [← hsame.side] at hthrough
    obtain ⟨hoffered, hsurvivor⟩ := hrests'.reached hbar (iff_of_true rfl hthrough) (.inl hthrough)
      (queueShare_through hrests' hmodel) (hrests'.fits_shareAt hmodel).1
    rw [hid'] at hoffered hsurvivor
    refine ⟨?_, fun r'' hr'' hid'' ↦ ?_⟩
    · rw [← hid, filledBy_market hr' hoffers now, hoffered]
    · have hlast := evolution_of_rests hr' hr'' (hid''.trans hid.symm)
      rw [evolution_cons] at hlast
      obtain ⟨left, hleft, heq⟩ := Option.bind_eq_some_iff.mp hlast
      cases heq
      simp only [evolve, hoffers.1, hoffers.2] at hleft
      rw [hsurvivor] at hleft
      unfold leftAfter at hleft
      split_ifs at hleft
      cases hleft
      rfl

end VenueSession

/-! ## The default model -/

theorem DefaultBrokerageModel.queues [DecimalWidth] (m : DefaultBrokerageModel) :
    SimulatedExecutionClient.Queues m.brokerage := by
  refine ⟨m.neverOverfills, fun v inst ↦ ?_⟩
  have hzero : (Quantity.zero v.precision).Fits v.precision :=
    ⟨rfl, show ((0 : ℕ) : ℤ) ≤ i64Max by decide⟩
  simp only [brokerage, initialQueueAhead]
  split_ifs
  · exact hzero
  · split
    · rename_i q hq
      obtain ⟨h0, -, -, hmax, rfl⟩ := Quantity.fromDecimal_eq_ok_iff.mp hq
      refine ⟨rfl, ?_⟩
      change ((mantissa _ _).toNat : ℤ) ≤ i64Max
      rw [Int.toNat_of_nonneg (mantissa_nonneg h0 _)]
      exact hmax
    · exact hzero

namespace VenueSession

open SimulatedExecutionClient
open scoped RustDecimal

theorem holdsI64 : DecimalWidth.HoldsI64 := by
  intro m hm hmax
  have hwidth : (DecimalWidth.bound : Option ℕ) = some (2 ^ 96) := rfl
  rw [DecimalWidth.fits, hwidth]
  refine decide_eq_true ?_
  unfold i64Max at hmax
  omega

/-- **The queue-position law of the simulated venue.** -/
theorem queueLaw_run (m : DefaultBrokerageModel) {front calls : List VenueCall} {r : Resting}
    {p : ℕ} {limit : Price} (hr : r ∈ (run m.brokerage front).sim.resting)
    (h : RestsAt p limit r) (htouch : TouchesOnly p r.order limit calls)
    (hkeep : ∀ now, .cancel now r.order.clientOrderId ∉ calls) :
    QueueLaw m.brokerage p limit front calls r :=
  queueLaw_of_touches holdsI64 m.queues hr h htouch hkeep

/-! ## Instances -/

section Instances

/-- The model with a queue of half a bar's volume. -/
def queueing : DefaultBrokerageModel := { queueAheadFactor := 1 / 2 }

/-- A buy of five at 100. -/
def waitingOrder : Order := perpOrder "a" .buy .limit 5 (some 1000) none

def waiting : Resting where
  order := waitingOrder
  remaining := ⟨5, 0⟩
  queueAhead := none
  venueOrderId := simVenueId 1
  trail := none
  pendingOpen := false

/-- Three bars of eight touch 100: each gives a share of two, and the queue starts at four. -/
def touches : List VenueCall :=
  [.market listed 1 (perpBar 1000 1020 1010 1010 8),
    .market listed 2 (perpBar 1000 1020 1010 1010 8),
    .market listed 3 (perpBar 1000 1020 1010 1010 8)]

theorem queueLaw_touches :
    QueueLaw queueing.brokerage 0 ⟨1000, 1⟩ [.submit listed 0 waitingOrder] touches waiting ∧
      (sharesAlong queueing.brokerage touches waiting).map Quantity.raw = [2, 2, 2] ∧
      (queueAlong queueing.brokerage touches waiting).raw = 4 := by
  refine ⟨queueLaw_run queueing (by decide) ⟨rfl, rfl, rfl, by decide, ⟨rfl, by decide⟩,
    fun q hq ↦ nomatch hq⟩ ?_ ?_, by decide +kernel, by decide +kernel⟩
  · intro call hcall inst tape hoffer
    have hbar : offerFor (Position.perp false).id call
        = some (Position.perp false,
          ⟨⟨1000, 1⟩, ⟨1020, 1⟩, ⟨1010, 1⟩, ⟨1010, 1⟩, some ⟨8, 0⟩⟩) := by
      simp only [touches, List.mem_cons, List.not_mem_nil, or_false] at hcall
      rcases hcall with rfl | rfl | rfl <;> decide +kernel
    cases hbar.symm.trans hoffer
    exact ⟨rfl, _, rfl, rfl⟩
  · intro now hmem
    simp [touches] at hmem

end Instances

end VenueSession

end Coinext
