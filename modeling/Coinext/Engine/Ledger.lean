import Coinext.Engine.Exec
import Coinext.Model.Pnl
import Coinext.Support.Gather
import Coinext.Support.Run
import Mathlib.Algebra.BigOperators.Group.List.Basic

/-!
# The order log and the position agree

Along any sequence of engine calls, the position of an instrument is the sum of the fills recorded
in the logs of its orders, and no trade is recorded twice. Order log, trade-id set and position are
three stores that one report handler mutates with several early exits; `LedgerInv` ties them
together, and `step_inv` shows that every exit leaves them tied.

The calls are described once, by `applyToOrder_cases` and `applyFillReport_cases`; nothing below
them unfolds the engine again.
-/

namespace Coinext

namespace ExecutionEngine

variable [DecimalWidth]

/-! ## What the calls do -/

/-- Applying an event to a cached order: the order is unknown, or it accepts the event, or it
rejects it and is written back as it was. -/
theorem applyToOrder_cases (id : ClientOrderId) (ev : OrderEvent) (s : Oms) :
    (s.cache.order id = none ∧ applyToOrder id ev s = ([], s)) ∨
      (∃ o o', s.cache.order id = some o ∧ o.Accepts ev o' ∧
        applyToOrder id ev s = ([ev], s.setOrder id o')) ∨
      ∃ o, s.cache.order id = some o ∧ (∀ o', ¬ o.Accepts ev o') ∧
        applyToOrder id ev s = ([], s.setOrder id o) := by
  unfold applyToOrder
  rcases horder : s.cache.order id with _ | o
  · exact .inl ⟨rfl, rfl⟩
  · right
    rcases Order.apply_exec o ev with ⟨o', hexec, hacc⟩ | ⟨e, hexec, hrej⟩
    · exact .inl ⟨o, o', rfl, hacc, by simp only [hexec]; rfl⟩
    · exact .inr ⟨o, rfl, hrej, by simp only [hexec]; rfl⟩

theorem ledger_applyToOrder (id : ClientOrderId) (ev : OrderEvent) (s : Oms) :
    (applyToOrder id ev s).2.ledger = s.ledger := by
  unfold applyToOrder
  split <;> rfl

/-- A delivered fill is a repeat, or is for an unknown order, or is rejected by its order, or is
folded into the order and then into the position. -/
theorem applyFillReport_cases (f : Fill) (s : Oms) :
    (f.tradeId ∈ s.ledger.seenTradeIds ∧ applyFillReport f s = ([], s)) ∨
      f.tradeId ∉ s.ledger.seenTradeIds ∧
        ((s.cache.order f.clientOrderId = none ∧ applyFillReport f s = ([], markSeen f s)) ∨
        (∃ o, s.cache.order f.clientOrderId = some o ∧ (∀ o', ¬ o.Accepts (fillEvent o f) o') ∧
          applyFillReport f s = ([], (markSeen f s).setOrder f.clientOrderId o)) ∨
        ∃ o o', s.cache.order f.clientOrderId = some o ∧ o.Accepts (fillEvent o f) o' ∧
          applyFillReport f s = ([fillEvent o f],
            foldPosition f ((markSeen f s).setOrder f.clientOrderId o'))) := by
  have hcache : (markSeen f s).cache = s.cache := rfl
  by_cases hseen : f.tradeId ∈ s.ledger.seenTradeIds
  · exact .inl ⟨hseen, by rw [applyFillReport, if_pos hseen]⟩
  · refine .inr ⟨hseen, ?_⟩
    rcases horder : s.cache.order f.clientOrderId with _ | o
    · left
      simp only [applyFillReport, if_neg hseen, hcache, horder, and_self]
    · right
      rcases applyToOrder_cases f.clientOrderId (fillEvent o f) (markSeen f s) with
        ⟨hnone, -⟩ | ⟨p, o', hp, hacc, happ⟩ | ⟨p, hp, hrej, happ⟩
      · exact absurd (horder.symm.trans hnone) (by simp)
      · obtain rfl : o = p := Option.some.inj (horder.symm.trans hp)
        refine .inr ⟨o, o', rfl, hacc, ?_⟩
        simp only [applyFillReport, if_neg hseen, hcache, horder, happ, List.cons_ne_nil, if_false]
      · obtain rfl : o = p := Option.some.inj (horder.symm.trans hp)
        refine .inl ⟨o, rfl, hrej, ?_⟩
        simp only [applyFillReport, if_neg hseen, hcache, horder, happ, if_true]

omit [DecimalWidth] in
theorem seenTradeIds_priceLimitViolation (cache : Cache) (ledger : ExecLedger) (inst : Instrument)
    (order : Order) (now : UnixNanos) :
    (priceLimitViolation cache ledger inst order now).2.seenTradeIds = ledger.seenTradeIds := by
  unfold priceLimitViolation
  split_ifs
  · change (observeMark cache ledger order.instrumentId now).seenTradeIds = _
    unfold observeMark
    split <;> rfl
  · rfl

omit [DecimalWidth] in
theorem seenTradeIds_preCheck (portfolio : Portfolio) (inst : Instrument) (order : Order)
    (now : UnixNanos) (s : Oms) :
    (preCheck portfolio inst order now s).2.seenTradeIds = s.ledger.seenTradeIds := by
  unfold preCheck
  split_ifs
  · rfl
  · simp only
    split_ifs
    · rfl
    · exact seenTradeIds_priceLimitViolation ..

/-- Submitting does nothing, or tracks a new order with one event applied. Only an approved order
reaches the venue. -/
theorem submit_cases (risk : RiskEngine) (portfolio : Portfolio) (model : BrokerageModel)
    (clockNow : UnixNanos) (order : Order) (now : UnixNanos) (s : Oms) :
    submit risk portfolio model clockNow order now s = ([], s) ∨
      ∃ ev s', submit risk portfolio model clockNow order now s = ([ev], s') ∧
        s.cache.order order.clientOrderId = none ∧
        (∃ inst, s.cache.instrument order.instrumentId = some inst) ∧
        s'.cache = s.cache.addOrder (order.applied ev) ∧
        s'.ledger.seenTradeIds = s.ledger.seenTradeIds ∧
        ((∃ reason, ev = .denied reason now ∧ s'.sim = s.sim) ∨
          ev = .submitted now ∧ s'.sim = SimulatedExecutionClient.onSubmit model s'.cache clockNow
            (order.applied ev) s.sim) := by
  unfold submit
  by_cases htracked : (s.cache.order order.clientOrderId).isSome = true
  · exact .inl (if_pos htracked)
  rw [if_neg htracked]
  have hnone : s.cache.order order.clientOrderId = none := by simpa using htracked
  rcases hinst : s.cache.instrument order.instrumentId with _ | inst
  · exact .inl rfl
  right
  have hseen := seenTradeIds_preCheck portfolio inst order now s
  rcases hpre : preCheck portfolio inst order now s with ⟨_ | reason, ledger⟩
  · rw [hpre] at hseen
    simp only [hpre]
    rcases risk.check order portfolio inst with _ | reason
    · exact ⟨_, _, rfl, hnone, ⟨inst, rfl⟩, rfl, hseen, .inr ⟨rfl, rfl⟩⟩
    · exact ⟨_, _, rfl, hnone, ⟨inst, rfl⟩, rfl, hseen, .inl ⟨_, rfl, rfl⟩⟩
  · rw [hpre] at hseen
    simp only [hpre]
    exact ⟨_, _, rfl, hnone, ⟨inst, rfl⟩, rfl, hseen, .inl ⟨reason, rfl, rfl⟩⟩

/-! ### Folding a report, as a rule

A report writes one order back. A fill is also marked as seen, and is folded into a position. What
these three writes keep, every report keeps. -/

section Rule

variable {I : Oms → Prop} {s : Oms}

theorem applyToOrder_induction (hset : ∀ s id o, I s → I (s.setOrder id o)) (h : I s)
    (id : ClientOrderId) (ev : OrderEvent) : I (applyToOrder id ev s).2 := by
  obtain ⟨-, heq⟩ | ⟨o, o', -, -, heq⟩ | ⟨o, -, -, heq⟩ := applyToOrder_cases id ev s
  · rw [heq]
    exact h
  · rw [heq]
    exact hset s id o' h
  · rw [heq]
    exact hset s id o h

theorem applyReport_induction (hset : ∀ s id o, I s → I (s.setOrder id o))
    (hseen : ∀ s f, I s → I (markSeen f s)) (hfold : ∀ s f, I s → I (foldPosition f s)) (h : I s)
    (report : ExecutionReport) (now : UnixNanos) : I (applyReport report now s).2 := by
  cases report with
  | fill f =>
    change I (applyFillReport f s).2
    obtain ⟨-, heq⟩ | ⟨-, ⟨-, heq⟩ | ⟨o, -, -, heq⟩ | ⟨o, o', -, -, heq⟩⟩ :=
      applyFillReport_cases f s
    · rw [heq]
      exact h
    · rw [heq]
      exact hseen s f h
    · rw [heq]
      exact hset _ _ o (hseen s f h)
    · rw [heq]
      exact hfold _ f (hset _ _ o' (hseen s f h))
  | _ => exact applyToOrder_induction hset h _ _

end Rule

/-! ### The venue -/

theorem sim_applyToOrder (id : ClientOrderId) (ev : OrderEvent) (s : Oms) :
    (applyToOrder id ev s).2.sim = s.sim :=
  applyToOrder_induction (I := fun s' ↦ s'.sim = s.sim) (fun _ _ _ h ↦ h) rfl id ev

theorem sim_foldPosition (f : Fill) (s : Oms) : (foldPosition f s).sim = s.sim := by
  unfold foldPosition
  split <;> rfl

theorem sim_applyReport (report : ExecutionReport) (now : UnixNanos) (s : Oms) :
    (applyReport report now s).2.sim = s.sim :=
  applyReport_induction (I := fun s' ↦ s'.sim = s.sim) (fun _ _ _ h ↦ h) (fun _ _ h ↦ h)
    (fun s f h ↦ (sim_foldPosition f s).trans h) rfl report now

end ExecutionEngine

/-! ## The invariant -/

namespace Oms

/-- The fills in the logs of the cached orders of one instrument. -/
def recorded (s : Oms) (iid : InstrumentId) : List Fill :=
  s.cache.orders.gather fun o ↦ if o.instrumentId = iid then o.fills else []

/-- The fills in the logs of all cached orders. -/
def recordedAll (s : Oms) : List Fill := s.cache.orders.gather Order.fills

/-- The signed size held in an instrument, zero without a position. -/
def signed (s : Oms) (iid : InstrumentId) : Decimal :=
  match s.cache.position iid with
  | some pos => pos.signed
  | none => 0

/-- Positions are stored under their own instruments, which are known. -/
def Keyed (s : Oms) : Prop :=
  ∀ iid pos, s.cache.position iid = some pos → pos.instrumentId = iid ∧
    ∃ inst, s.cache.instrument iid = some inst ∧ Position.WellFormed inst pos

end Oms

/-- Positions add up to the recorded fills, on top of a `base` that came about otherwise, and
recorded trades have been seen, each once. -/
structure LedgerInv (base : InstrumentId → Decimal) (s : Oms) : Prop where
  keyed : s.Keyed
  sum : ∀ iid, s.signed iid = base iid + ((s.recorded iid).map Fill.signedQty).sum
  seen : ∀ f ∈ s.recordedAll, f.tradeId ∈ s.ledger.seenTradeIds
  nodup : (s.recordedAll.map Fill.tradeId).Nodup

namespace Oms

/-- Nothing was recorded or folded between `s` and `s'`: the positions are the same, and so are the
fills in the logs. -/
structure Quiet (s s' : Oms) : Prop where
  positions : s'.cache.positions = s.cache.positions
  instruments : s'.cache.instruments = s.cache.instruments
  logs : ∀ id o, s.cache.order id = some o →
    ∃ o', s'.cache.order id = some o' ∧ o'.fills = o.fills ∧ o'.instrumentId = o.instrumentId
  recorded : ∀ iid, (s'.recorded iid).Perm (s.recorded iid)
  recordedAll : s'.recordedAll.Perm s.recordedAll

namespace Quiet

variable {s s' t : Oms}

/-- Quietness is about the cache, and orders count through their logs. -/
theorem of_orders (hpos : s'.cache.positions = s.cache.positions)
    (hinst : s'.cache.instruments = s.cache.instruments)
    (horders : s'.cache.orders = s.cache.orders) : s.Quiet s' where
  positions := hpos
  instruments := hinst
  logs id o ho := ⟨o, by rw [Cache.order, horders]; exact ho, rfl, rfl⟩
  recorded iid := by rw [Oms.recorded, horders]; exact List.Perm.refl _
  recordedAll := by rw [Oms.recordedAll, horders]; exact List.Perm.refl _

theorem of_cache (h : s.Quiet s') (hcache : t.cache = s'.cache) : s.Quiet t where
  positions := by rw [hcache, h.positions]
  instruments := by rw [hcache, h.instruments]
  logs id o ho := by rw [hcache]; exact h.logs id o ho
  recorded iid := by rw [Oms.recorded, hcache]; exact h.recorded iid
  recordedAll := by rw [Oms.recordedAll, hcache]; exact h.recordedAll

theorem addOrder {o : Order} (hnone : s.cache.order o.clientOrderId = none) (hfills : o.fills = [])
    (hcache : s'.cache = s.cache.addOrder o) : s.Quiet s' where
  positions := by rw [hcache]; rfl
  instruments := by rw [hcache]; rfl
  logs id p hp := by
    have hne : id ≠ o.clientOrderId := fun heq ↦ by
      rw [heq, hnone] at hp
      cases hp
    refine ⟨p, ?_, rfl, rfl⟩
    rw [hcache, Cache.order, Cache.addOrder, AList.lookup_insert_ne hne]
    exact hp
  recorded iid := by
    rw [Oms.recorded, hcache, Cache.addOrder, AList.gather_insert_of_lookup_eq_none hnone, hfills,
      ite_self, List.nil_append]
    exact List.Perm.refl _
  recordedAll := by
    rw [Oms.recordedAll, hcache, Cache.addOrder, AList.gather_insert_of_lookup_eq_none hnone,
      hfills, List.nil_append]
    exact List.Perm.refl _

/-- Writing an order back without a new fill. -/
theorem setOrder {id : ClientOrderId} {o o' : Order} (ho : s.cache.order id = some o)
    (hinst : o'.instrumentId = o.instrumentId) (hfills : o'.fills = o.fills) :
    s.Quiet (s.setOrder id o') where
  positions := rfl
  instruments := rfl
  logs id' p hp := by
    by_cases hid : id' = id
    · subst hid
      obtain rfl : o = p := Option.some.inj (ho.symm.trans hp)
      exact ⟨o', AList.lookup_insert _, hfills, hinst⟩
    · exact ⟨p, (AList.lookup_insert_ne hid).trans hp, rfl, rfl⟩
  recorded iid := by
    have hg : (if o'.instrumentId = iid then o'.fills else [])
        = (if o.instrumentId = iid then o.fills else []) ++ [] := by
      rw [hinst, hfills, List.append_nil]
    have hperm := AList.gather_insert_of_lookup
      (g := fun o ↦ if o.instrumentId = iid then o.fills else []) ho hg
    rwa [List.append_nil] at hperm
  recordedAll := by
    have hg : o'.fills = o.fills ++ [] := by rw [hfills, List.append_nil]
    have hperm := AList.gather_insert_of_lookup (g := Order.fills) ho hg
    rwa [List.append_nil] at hperm

end Quiet

end Oms

theorem LedgerInv.of_quiet {base : InstrumentId → Decimal} {s s' : Oms}
    (h : LedgerInv base s) (hquiet : s.Quiet s')
    (hseen : s.ledger.seenTradeIds ⊆ s'.ledger.seenTradeIds) : LedgerInv base s' := by
  have hposition : ∀ iid, s'.cache.position iid = s.cache.position iid := fun iid ↦ by
    rw [Cache.position, hquiet.positions, Cache.position]
  refine ⟨?_, ?_, ?_, ?_⟩
  · intro iid pos hp
    rw [hposition] at hp
    rw [Cache.instrument, hquiet.instruments]
    exact h.keyed iid pos hp
  · intro iid
    rw [Oms.signed, hposition, ← Oms.signed, h.sum,
      ((hquiet.recorded iid).map Fill.signedQty).sum_eq]
  · exact fun f hf ↦ hseen (h.seen f (hquiet.recordedAll.mem_iff.mp hf))
  · exact ((hquiet.recordedAll.map Fill.tradeId).nodup_iff).mpr h.nodup

/-- What the engine folds a fill into: the position of a known instrument, flat if there is none. -/
theorem Oms.Keyed.positionOrFlat {s : Oms} (h : s.Keyed) {iid : InstrumentId} {inst : Instrument}
    (hinst : s.cache.instrument iid = some inst) :
    (s.positionOrFlat iid inst).instrumentId = iid ∧
      Position.WellFormed inst (s.positionOrFlat iid inst) ∧
      (s.positionOrFlat iid inst).signed = s.signed iid := by
  unfold Oms.positionOrFlat Oms.signed
  rcases hpos : s.cache.position iid with _ | pos
  · exact ⟨rfl, Position.wellFormed_flat _ _ inst, rfl⟩
  · obtain ⟨hid, inst', hinst', hwf⟩ := h iid pos hpos
    obtain rfl : inst' = inst := Option.some.inj (hinst'.symm.trans hinst)
    exact ⟨hid, hwf, rfl⟩

/-- What is assumed of a fill that order `o` takes: it is for the order's instrument, at that
instrument's size precision, and the conversions of the position fold do not overflow. -/
def FillOk [DecimalWidth] (s : Oms) (o : Order) (f : Fill) : Prop :=
  f.instrumentId = o.instrumentId ∧ ∃ inst ∈ s.cache.instrument f.instrumentId,
    f.lastQty.precision = inst.sizePrecision ∧
    Position.Books inst (s.positionOrFlat f.instrumentId inst) f

instance [DecimalWidth] (s : Oms) (o : Order) (f : Fill) : Decidable (FillOk s o f) :=
  inferInstanceAs (Decidable (_ ∧ ∃ inst ∈ s.cache.instrument f.instrumentId, _ ∧ _))

section Fold

variable [DecimalWidth] {base : InstrumentId → Decimal} {s : Oms} {o o' : Order}
  {ev : OrderEvent} {f : Fill}

open ExecutionEngine

theorem foldPosition_of_instrument {inst : Instrument}
    (hinst : s.cache.instrument f.instrumentId = some inst) :
    foldPosition f s = { s with
      ledger := recordBuy inst f s.ledger
      cache := s.cache.upsertPosition
        ((s.positionOrFlat f.instrumentId inst).applied inst f) } := by
  simp only [foldPosition, hinst]

/-- A fold leaves every position but the one it is for, which moves by the signed quantity. -/
theorem foldPosition_spec (h : s.Keyed) (hok : FillOk s o f) :
    ∃ inst pos, s.cache.instrument f.instrumentId = some inst ∧
      Position.WellFormed inst pos ∧ pos.instrumentId = f.instrumentId ∧
      pos.signed = s.signed f.instrumentId + f.signedQty ∧
      (foldPosition f s).cache.positions = s.cache.positions.insert f.instrumentId pos := by
  obtain ⟨-, inst, (hinst : s.cache.instrument f.instrumentId = some inst), hprec, hbooks⟩ := hok
  obtain ⟨hid, hwf, hsigned⟩ := h.positionOrFlat hinst
  have hgrid : OnGrid f.signedQty inst.sizePrecision :=
    Fill.onGrid_signedQty (hprec ▸ f.lastQty.onGrid_asDecimal)
  rw [foldPosition_of_instrument hinst]
  refine ⟨inst, (s.positionOrFlat f.instrumentId inst).applied inst f, hinst, hwf.applied f,
    ?_, ?_, ?_⟩
  · rw [Position.instrumentId_applied, hid]
  · rw [hwf.signed_applied hbooks hgrid, hsigned]
  · rw [Cache.upsertPosition, Position.instrumentId_applied, hid]

/-- The state once order `o` has taken `f` and become `o'`. -/
def folded (s : Oms) (f : Fill) (o' : Order) : Oms :=
  foldPosition f ((markSeen f s).setOrder f.clientOrderId o')

theorem applyFillReport_of_unseen (ho : s.cache.order f.clientOrderId = some o)
    (hunseen : f.tradeId ∉ s.ledger.seenTradeIds) (htakes : ∃ o', o.Accepts (fillEvent o f) o') :
    ∃ o', o.Accepts (fillEvent o f) o' ∧ (applyFillReport f s).2 = folded s f o' := by
  rcases applyFillReport_cases f s with ⟨hseen, -⟩ | ⟨-, ⟨hnone, -⟩ | ⟨p, hp, hrej, -⟩ |
    ⟨p, p', hp, hacc, heq⟩⟩
  · exact absurd hseen hunseen
  · rw [ho] at hnone
    cases hnone
  · obtain rfl : o = p := Option.some.inj (ho.symm.trans hp)
    exact absurd htakes.choose_spec (hrej _)
  · obtain rfl : o = p := Option.some.inj (ho.symm.trans hp)
    exact ⟨p', hacc, by rw [heq]; rfl⟩

omit [DecimalWidth] in
theorem seenTradeIds_recordBuy (inst : Instrument) (f : Fill) (ledger : ExecLedger) :
    (recordBuy inst f ledger).seenTradeIds = ledger.seenTradeIds := by
  unfold recordBuy
  split_ifs <;> rfl

theorem orders_folded (s : Oms) (f : Fill) (o' : Order) :
    (folded s f o').cache.orders = s.cache.orders.insert f.clientOrderId o' := by
  unfold folded foldPosition
  split <;> rfl

theorem instruments_folded (s : Oms) (f : Fill) (o' : Order) :
    (folded s f o').cache.instruments = s.cache.instruments := by
  unfold folded foldPosition
  split <;> rfl

theorem seenTradeIds_folded (s : Oms) (f : Fill) (o' : Order) :
    (folded s f o').ledger.seenTradeIds = insert f.tradeId s.ledger.seenTradeIds := by
  unfold folded foldPosition
  split
  · rfl
  · exact seenTradeIds_recordBuy ..

theorem recordedAll_folded (ho : s.cache.order f.clientOrderId = some o)
    (hacc : o.Accepts (fillEvent o f) o') :
    (folded s f o').recordedAll.Perm (s.recordedAll ++ [f]) := by
  have hfills : o'.fills = o.fills ++ [f] := hacc.fills_of_fill (fill?_fillEvent o f)
  unfold Oms.recordedAll
  rw [orders_folded]
  exact AList.gather_insert_of_lookup ho hfills

theorem recorded_folded (ho : s.cache.order f.clientOrderId = some o)
    (hacc : o.Accepts (fillEvent o f) o') (hiid : f.instrumentId = o.instrumentId)
    (iid : InstrumentId) :
    ((folded s f o').recorded iid).Perm
      (s.recorded iid ++ if f.instrumentId = iid then [f] else []) := by
  unfold Oms.recorded
  rw [orders_folded]
  refine AList.gather_insert_of_lookup
    (g := fun o ↦ if o.instrumentId = iid then o.fills else []) ho ?_
  rw [hacc.sameTerms.instrumentId, hiid, hacc.fills, fill?_fillEvent]
  split_ifs <;> simp

theorem LedgerInv.folded (h : LedgerInv base s) (ho : s.cache.order f.clientOrderId = some o)
    (hacc : o.Accepts (fillEvent o f) o') (hnew : f.tradeId ∉ s.ledger.seenTradeIds)
    (hok : FillOk s o f) : LedgerInv base (folded s f o') := by
  have hall := recordedAll_folded ho hacc
  have hseen := seenTradeIds_folded s f o'
  have hrec := recorded_folded ho hacc hok.1
  obtain ⟨inst, pos, hinst, hwf, hid, hsigned, hpositions⟩ :=
    foldPosition_spec (s := (markSeen f s).setOrder f.clientOrderId o') h.keyed hok
  have hposition : ∀ iid, (Coinext.folded s f o').cache.position iid
      = if iid = f.instrumentId then some pos else s.cache.position iid := by
    intro iid
    rw [Cache.position, Coinext.folded, hpositions]
    by_cases hiid : iid = f.instrumentId
    · rw [if_pos hiid, hiid, AList.lookup_insert]
    · rw [if_neg hiid, AList.lookup_insert_ne hiid]
      rfl
  have hinstrument : ∀ iid,
      (Coinext.folded s f o').cache.instrument iid = s.cache.instrument iid := fun iid ↦ by
    rw [Cache.instrument, instruments_folded]
    rfl
  refine ⟨?_, ?_, ?_, ?_⟩
  · intro iid p hp
    rw [hposition] at hp
    rw [hinstrument]
    split_ifs at hp with hiid
    · cases hp
      exact hiid ▸ ⟨hid, inst, hinst, hwf⟩
    · exact h.keyed iid p hp
  · intro iid
    rw [((hrec iid).map Fill.signedQty).sum_eq, List.map_append, List.sum_append, ← add_assoc,
      ← h.sum iid, Oms.signed, hposition]
    by_cases hiid : iid = f.instrumentId
    · rw [if_pos hiid, if_pos hiid.symm, hiid]
      rw [List.map_singleton, List.sum_singleton]
      exact hsigned
    · rw [if_neg hiid, if_neg (Ne.symm hiid)]
      simp [Oms.signed]
  · intro g hg
    have hmem : g ∈ s.recordedAll ++ [f] := hall.mem_iff.mp hg
    rw [hseen]
    rcases List.mem_append.mp hmem with hold | hnewest
    · exact Finset.mem_insert_of_mem (h.seen g hold)
    · rw [List.mem_singleton.mp hnewest]
      exact Finset.mem_insert_self _ _
  · rw [(hall.map Fill.tradeId).nodup_iff, List.map_append, List.nodup_append]
    refine ⟨h.nodup, List.nodup_singleton _, ?_⟩
    rintro a ha b hb rfl
    obtain ⟨g, hg, rfl⟩ := List.mem_map.mp ha
    -- a trade that is recorded has been seen, and this one has not
    have htrade : g.tradeId = f.tradeId := by simpa using hb
    exact hnew (htrade ▸ h.seen g hg)

end Fold

/-! ## Whole runs -/

/-- A call of the engine, with everything it is given. The risk gate and the portfolio it reads may
differ from call to call. -/
inductive EngineCall where
  | submit (risk : RiskEngine) (portfolio : Portfolio) (clockNow : UnixNanos) (order : Order)
      (now : UnixNanos)
  | cancel (clockNow : UnixNanos) (id : ClientOrderId) (now : UnixNanos)
  | report (r : ExecutionReport) (now : UnixNanos)
  /-- No call of the engine: the data engine writes a market event into the shared cache. -/
  | market (ev : MarketEvent)

namespace EngineCall

variable [DecimalWidth]

open ExecutionEngine

/-- The engine after a call. -/
def step (model : BrokerageModel) (s : Oms) : EngineCall → Oms
  | submit risk portfolio clockNow order now =>
    (ExecutionEngine.submit risk portfolio model clockNow order now s).2
  | cancel clockNow id now => (ExecutionEngine.cancel model clockNow id now s).2
  | report r now => (applyReport r now s).2
  | market ev => { s with cache := s.cache.process ev }

/-- The order a call submits. -/
def order? : EngineCall → Option Order
  | submit _ _ _ order _ => some order
  | cancel .. | report .. | market _ => none

/-- The fill a call delivers. -/
def fill? : EngineCall → Option Fill
  | report r _ => r.fill?
  | submit .. | cancel .. | market _ => none

/-- What is assumed of a call: a submitted order has no fills yet, and a fill that an order takes
is one that the order's instrument can produce. -/
def Ok (s : Oms) (call : EngineCall) : Prop :=
  (∀ o ∈ call.order?, o.fills = []) ∧ ∀ f ∈ call.fill?, ∀ o ∈ s.cache.order f.clientOrderId,
    (∃ o', o.Accepts (fillEvent o f) o') → FillOk s o f

instance (s : Oms) (call : EngineCall) : Decidable (call.Ok s) :=
  inferInstanceAs (Decidable (_ ∧ ∀ f ∈ call.fill?, ∀ o ∈ s.cache.order f.clientOrderId,
    (∃ o', Order.Accepts o _ o') → _))

end EngineCall

/-- The order of a delivered fill is tracked and accepts it. -/
def Oms.Takes [DecimalWidth] (s : Oms) (f : Fill) : Prop :=
  ∃ o ∈ s.cache.order f.clientOrderId, ∃ o', o.Accepts (ExecutionEngine.fillEvent o f) o'

instance [DecimalWidth] (s : Oms) (f : Fill) : Decidable (s.Takes f) :=
  inferInstanceAs (Decidable (∃ o ∈ s.cache.order f.clientOrderId, ∃ o', Order.Accepts o _ o'))

section Run

variable [DecimalWidth] {base : InstrumentId → Decimal} {s : Oms}

open ExecutionEngine

theorem Oms.quiet_applyToOrder (s : Oms) (id : ClientOrderId) {ev : OrderEvent}
    (hev : ev.fill? = none) : s.Quiet (applyToOrder id ev s).2 := by
  rcases applyToOrder_cases id ev s with ⟨-, heq⟩ | ⟨o, o', ho, hacc, heq⟩ | ⟨o, ho, -, heq⟩
  · rw [heq]
    exact .of_orders rfl rfl rfl
  · rw [heq]
    refine .setOrder ho hacc.sameTerms.instrumentId ?_
    rw [hacc.fills, hev]
    exact List.append_nil _
  · rw [heq]
    exact .setOrder ho rfl rfl

theorem Oms.quiet_submit (risk : RiskEngine) (portfolio : Portfolio) (model : BrokerageModel)
    (clockNow : UnixNanos) {order : Order} (now : UnixNanos) (s : Oms) (hfills : order.fills = []) :
    let s' := (submit risk portfolio model clockNow order now s).2
    s.Quiet s' ∧ s'.ledger.seenTradeIds = s.ledger.seenTradeIds := by
  rcases submit_cases risk portfolio model clockNow order now s with
    heq | ⟨ev, s', heq, hnone, -, hcache, hseen, hev⟩
  · rw [heq]
    exact ⟨.of_orders rfl rfl rfl, rfl⟩
  · have hfill : ev.fill? = none := by
      rcases hev with ⟨reason, rfl, -⟩ | ⟨rfl, -⟩ <;> rfl
    have hid := (order.sameTerms_applied ev).clientOrderId
    rw [heq]
    refine ⟨.addOrder (hid.symm ▸ hnone) ?_ hcache, hseen⟩
    rw [Order.fills_applied order hfill, hfills]

/-- **What a call does to the ledger.** It records nothing, unless it delivers a trade for the first
time. Then the trade is seen from here on, and is folded if the order takes it. -/
theorem EngineCall.step_cases (model : BrokerageModel) (call : EngineCall)
    (hnew : ∀ o ∈ call.order?, o.fills = []) :
    (s.Quiet (call.step model s) ∧
        (call.step model s).ledger.seenTradeIds = s.ledger.seenTradeIds ∧
        ∀ f ∈ call.fill?, f.tradeId ∈ s.ledger.seenTradeIds) ∨
      ∃ f, call.fill? = some f ∧ f.tradeId ∉ s.ledger.seenTradeIds ∧
        ((¬ s.Takes f ∧ s.Quiet (call.step model s) ∧
            (call.step model s).ledger.seenTradeIds = insert f.tradeId s.ledger.seenTradeIds) ∨
          ∃ o o', s.cache.order f.clientOrderId = some o ∧ o.Accepts (fillEvent o f) o' ∧
            call.step model s = folded s f o') := by
  have hquiet (id : ClientOrderId) (ev : OrderEvent) (hev : ev.fill? = none) :
      s.Quiet (applyToOrder id ev s).2 ∧
        (applyToOrder id ev s).2.ledger.seenTradeIds = s.ledger.seenTradeIds :=
    ⟨s.quiet_applyToOrder id hev, by rw [ledger_applyToOrder]⟩
  cases call with
  | submit risk portfolio clockNow order now =>
    obtain ⟨hq, hseen⟩ := s.quiet_submit risk portfolio model clockNow now (hnew order rfl)
    exact .inl ⟨hq, hseen, fun f hf ↦ (by cases hf)⟩
  | cancel clockNow id now =>
    -- the venue's own state is no part of the ledger
    obtain ⟨hq, hseen⟩ := hquiet id (.pendingCancel now) rfl
    exact .inl ⟨hq.of_cache rfl, hseen, fun f hf ↦ (by cases hf)⟩
  | market ev =>
    obtain ⟨hinsts, horders, hpositions, -⟩ := s.cache.process_frame ev
    exact .inl ⟨.of_orders hpositions hinsts horders, rfl, fun f hf ↦ (by cases hf)⟩
  | report r now =>
    cases r with
    | fill f =>
      have hstep : EngineCall.step model s (.report (.fill f) now) = (applyFillReport f s).2 := rfl
      rw [hstep]
      rcases applyFillReport_cases f s with ⟨hseen, heq⟩ | ⟨hunseen, ⟨hnone, heq⟩ |
        ⟨o, ho, hrej, heq⟩ | ⟨o, o', ho, hacc, heq⟩⟩
      · rw [heq]
        exact .inl ⟨.of_orders rfl rfl rfl, rfl, fun g hg ↦ (by cases hg; exact hseen)⟩
      · rw [heq]
        refine .inr ⟨f, rfl, hunseen, .inl ⟨?_, .of_orders rfl rfl rfl, rfl⟩⟩
        rintro ⟨o, ho, -⟩
        rw [hnone] at ho
        cases ho
      · rw [heq]
        have hq : s.Quiet (s.setOrder f.clientOrderId o) := .setOrder ho rfl rfl
        refine .inr ⟨f, rfl, hunseen, .inl ⟨?_, hq.of_cache rfl, rfl⟩⟩
        rintro ⟨p, hp, p', hacc⟩
        obtain rfl : o = p := Option.some.inj (ho.symm.trans hp)
        exact hrej p' hacc
      · rw [heq]
        exact .inr ⟨f, rfl, hunseen, .inr ⟨o, o', ho, hacc, rfl⟩⟩
    | _ =>
      refine .inl ⟨(hquiet _ _ ?_).1, (hquiet _ _ ?_).2, fun f hf ↦ (by cases hf)⟩ <;> rfl

/-- **What a call does to the orders.** It leaves them, or writes one back on the same terms and
with a log of fills that has only grown, or tracks a new one of a known instrument. -/
theorem EngineCall.orders_cases (model : BrokerageModel) (call : EngineCall) :
    (call.step model s).cache.orders = s.cache.orders ∨
      (∃ id p p', s.cache.order id = some p ∧ Order.SameTerms p p' ∧ p.fills <+: p'.fills ∧
        (call.step model s).cache.orders = s.cache.orders.insert id p') ∨
      ∃ p inst, s.cache.order p.clientOrderId = none ∧
        s.cache.instrument p.instrumentId = some inst ∧
        (call.step model s).cache.orders = s.cache.orders.insert p.clientOrderId p := by
  have happlied (id : ClientOrderId) (ev : OrderEvent) :
      (applyToOrder id ev s).2.cache.orders = s.cache.orders ∨
        ∃ id' p p', s.cache.order id' = some p ∧ Order.SameTerms p p' ∧ p.fills <+: p'.fills ∧
          (applyToOrder id ev s).2.cache.orders = s.cache.orders.insert id' p' := by
    rcases applyToOrder_cases id ev s with ⟨-, heq⟩ | ⟨p, p', hp, hacc, heq⟩ | ⟨p, hp, -, heq⟩
    · exact .inl (by rw [heq])
    · exact .inr ⟨id, p, p', hp, hacc.sameTerms, hacc.fills ▸ List.prefix_append _ _,
        by rw [heq]; rfl⟩
    · exact .inr ⟨id, p, p, hp, .refl p, List.prefix_rfl, by rw [heq]; rfl⟩
  cases call with
  | submit risk portfolio clockNow order now =>
    rw [EngineCall.step]
    rcases submit_cases risk portfolio model clockNow order now s with
      heq | ⟨ev, s', heq, hnone, ⟨inst, hinst⟩, hcache, -⟩
    · exact .inl (by rw [heq])
    · have hterms := order.sameTerms_applied ev
      refine .inr (.inr ⟨order.applied ev, inst, ?_, ?_, by rw [heq, hcache]; rfl⟩)
      · rw [hterms.clientOrderId]
        exact hnone
      · rw [hterms.instrumentId]
        exact hinst
  | cancel clockNow id now => exact (happlied id (.pendingCancel now)).imp_right .inl
  | market ev => exact .inl (s.cache.process_frame ev).2.1
  | report r now =>
    cases r with
    | fill f =>
      rw [show EngineCall.step model s (.report (.fill f) now) = (applyFillReport f s).2 from rfl]
      rcases applyFillReport_cases f s with ⟨-, heq⟩ | ⟨-, ⟨-, heq⟩ | ⟨p, hp, -, heq⟩ |
        ⟨p, p', hp, hacc, heq⟩⟩
      · exact .inl (by rw [heq])
      · exact .inl (by rw [heq]; rfl)
      · exact .inr (.inl ⟨_, p, p, hp, .refl p, List.prefix_rfl, by rw [heq]; rfl⟩)
      · exact .inr (.inl ⟨_, p, p', hp, hacc.sameTerms, hacc.fills ▸ List.prefix_append _ _,
          by rw [heq]; exact orders_folded s f p'⟩)
    | _ => exact (happlied _ _).imp_right .inl

/-- A tracked order stays tracked, on the same terms, and its log of fills only grows. -/
theorem EngineCall.order_step (model : BrokerageModel) (call : EngineCall) {id : ClientOrderId}
    {o : Order} (ho : s.cache.order id = some o) :
    ∃ o', (call.step model s).cache.order id = some o' ∧ Order.SameTerms o o' ∧
      o.fills <+: o'.fills := by
  rcases call.orders_cases model (s := s) with heq | ⟨id', p, p', hp, hterms, hfills, heq⟩ |
    ⟨p, inst, hnone, -, heq⟩
  · exact ⟨o, by rw [Cache.order, heq]; exact ho, .refl o, List.prefix_rfl⟩
  · rw [Cache.order, heq]
    by_cases hid : id = id'
    · subst hid
      obtain rfl : o = p := Option.some.inj (ho.symm.trans hp)
      exact ⟨p', AList.lookup_insert _, hterms, hfills⟩
    · exact ⟨o, (AList.lookup_insert_ne hid).trans ho, .refl o, List.prefix_rfl⟩
  · have hid : id ≠ p.clientOrderId := by
      rintro rfl
      rw [hnone] at ho
      cases ho
    rw [Cache.order, heq]
    exact ⟨o, (AList.lookup_insert_ne hid).trans ho, .refl o, List.prefix_rfl⟩

theorem EngineCall.instruments_step (model : BrokerageModel) (call : EngineCall) :
    (call.step model s).cache.instruments = s.cache.instruments := by
  have happlied (id : ClientOrderId) (ev : OrderEvent) :
      (applyToOrder id ev s).2.cache.instruments = s.cache.instruments := by
    unfold applyToOrder
    split <;> rfl
  cases call with
  | submit risk portfolio clockNow order now =>
    rw [EngineCall.step]
    rcases submit_cases risk portfolio model clockNow order now s with
      heq | ⟨ev, s', heq, -, -, hcache, -⟩
    · rw [heq]
    · rw [heq, hcache]
      rfl
  | cancel clockNow id now => exact happlied id (.pendingCancel now)
  | market ev => exact (s.cache.process_frame ev).1
  | report r now =>
    cases r with
    | fill f =>
      rw [show EngineCall.step model s (.report (.fill f) now) = (applyFillReport f s).2 from rfl]
      rcases applyFillReport_cases f s with ⟨-, heq⟩ | ⟨-, ⟨-, heq⟩ | ⟨p, -, -, heq⟩ |
        ⟨p, p', -, -, heq⟩⟩
      · rw [heq]
      · rw [heq]
        rfl
      · rw [heq]
        rfl
      · rw [heq]
        exact instruments_folded s f p'
    | _ => exact happlied _ _

/-- The tracked orders are for known instruments. -/
def Oms.Listed (s : Oms) : Prop :=
  ∀ id o, s.cache.order id = some o → ∃ inst, s.cache.instrument o.instrumentId = some inst

theorem Oms.Listed.step (model : BrokerageModel) (call : EngineCall) (h : s.Listed) :
    (call.step model s).Listed := by
  intro id o ho
  rw [Cache.instrument, call.instruments_step]
  rcases call.orders_cases model (s := s) with heq | ⟨id', p, p', hp, hterms, -, heq⟩ |
    ⟨p, inst, -, hinst, heq⟩
  · rw [Cache.order, heq] at ho
    exact h id o ho
  · rw [Cache.order, heq] at ho
    by_cases hid : id = id'
    · rw [hid, AList.lookup_insert] at ho
      cases ho
      rw [hterms.instrumentId]
      exact h id' p hp
    · rw [AList.lookup_insert_ne hid] at ho
      exact h id o ho
  · rw [Cache.order, heq] at ho
    by_cases hid : id = p.clientOrderId
    · rw [hid, AList.lookup_insert] at ho
      cases ho
      exact ⟨inst, hinst⟩
    · rw [AList.lookup_insert_ne hid] at ho
      exact h id o ho

/-- What is delivered is seen, and nothing else becomes so. -/
theorem EngineCall.mem_seenTradeIds_step (model : BrokerageModel) (call : EngineCall)
    {id : TradeId} : id ∈ (call.step model s).ledger.seenTradeIds ↔
      id ∈ s.ledger.seenTradeIds ∨ ∃ f ∈ call.fill?, f.tradeId = id := by
  have hnone {s' : Oms} (hseen : s'.ledger.seenTradeIds = s.ledger.seenTradeIds)
      (hfill : call.fill? = none) : id ∈ s'.ledger.seenTradeIds ↔
        id ∈ s.ledger.seenTradeIds ∨ ∃ f ∈ call.fill?, f.tradeId = id := by
    rw [hseen, hfill]
    simp
  cases call with
  | submit risk portfolio clockNow order now =>
    refine hnone ?_ rfl
    rw [EngineCall.step]
    rcases submit_cases risk portfolio model clockNow order now s with
      heq | ⟨ev, s', heq, -, -, -, hseen, -⟩
    · rw [heq]
    · rw [heq]
      exact hseen
  | cancel clockNow id' now =>
    have hledger := ledger_applyToOrder id' (.pendingCancel now) s
    exact hnone (congrArg ExecLedger.seenTradeIds hledger) rfl
  | market ev => exact hnone rfl rfl
  | report r now =>
    cases r with
    | fill f =>
      have hinsert : (EngineCall.step model s (.report (.fill f) now)).ledger.seenTradeIds
          = insert f.tradeId s.ledger.seenTradeIds := by
        change (applyFillReport f s).2.ledger.seenTradeIds = _
        rcases applyFillReport_cases f s with ⟨hseen, heq⟩ | ⟨-, ⟨-, heq⟩ | ⟨o, -, -, heq⟩ |
          ⟨o, o', -, -, heq⟩⟩
        · rw [heq, Finset.insert_eq_of_mem hseen]
        · rw [heq]
          rfl
        · rw [heq]
          rfl
        · rw [heq]
          exact seenTradeIds_folded s f o'
      rw [hinsert, Finset.mem_insert, or_comm]
      refine or_congr_right ⟨fun h ↦ ⟨f, rfl, h.symm⟩, ?_⟩
      rintro ⟨g, hg, rfl⟩
      cases hg
      rfl
    | _ => exact hnone (congrArg ExecLedger.seenTradeIds (ledger_applyToOrder ..)) rfl

theorem LedgerInv.step (model : BrokerageModel) (call : EngineCall) (h : LedgerInv base s)
    (hok : call.Ok s) : LedgerInv base (call.step model s) := by
  rcases call.step_cases model (s := s) hok.1 with ⟨hq, hseen, -⟩ | ⟨f, hf, hunseen, htaken⟩
  · exact h.of_quiet hq hseen.ge
  · rcases htaken with ⟨-, hq, hseen⟩ | ⟨o, o', ho, hacc, heq⟩
    · exact h.of_quiet hq (hseen ▸ Finset.subset_insert _ _)
    · rw [heq]
      exact h.folded ho hacc hunseen (hok.2 f hf o ho ⟨o', hacc⟩)

/-- An engine that has not traded: no orders and no positions. -/
def Oms.Fresh (s : Oms) : Prop := s.cache.orders = ∅ ∧ s.cache.positions = ∅

omit [DecimalWidth] in
theorem Oms.Fresh.ledgerInv (h : s.Fresh) : LedgerInv 0 s := by
  obtain ⟨horders, hpositions⟩ := h
  have hposition : ∀ iid, s.cache.position iid = none := fun iid ↦ by
    rw [Cache.position, hpositions, AList.lookup_empty]
  have hall : s.recordedAll = [] := by rw [Oms.recordedAll, horders, AList.gather_empty]
  refine ⟨?_, ?_, ?_, ?_⟩
  · intro iid pos hpos
    rw [hposition] at hpos
    cases hpos
  · intro iid
    rw [Oms.signed, hposition, Oms.recorded, horders, AList.gather_empty]
    simp
  · rw [hall]
    exact fun f hf ↦ absurd hf List.not_mem_nil
  · rw [hall]
    exact List.nodup_nil

/-- **Bookkeeping.** After any run of submits, cancels and reports, whatever their order and however
often a report is repeated, a position is the sum of the fills recorded in the logs of its
instrument's orders, and no trade is recorded twice. -/
theorem positions_eq_recorded (model : BrokerageModel) (calls : List EngineCall) (s₀ : Oms)
    (hfresh : s₀.Fresh) (hrun : Along (EngineCall.step model) EngineCall.Ok s₀ calls) :
    let s := calls.foldl (EngineCall.step model) s₀
    (∀ iid pos, s.cache.position iid = some pos →
        pos.signed = ((s.recorded iid).map Fill.signedQty).sum) ∧
      (s.recordedAll.map Fill.tradeId).Nodup := by
  have hinv := hrun.induction (fun s call h hok ↦ h.step model call hok) hfresh.ledgerInv
  refine ⟨fun iid pos hpos ↦ ?_, hinv.nodup⟩
  have hsum := hinv.sum iid
  rw [Oms.signed, hpos, Pi.zero_apply, zero_add] at hsum
  exact hsum

end Run

section Instances

open scoped RustDecimal

/-- An engine that knows one perpetual and has not traded. -/
def deskOms : Oms := ⟨Cache.new.addInstrument (Position.perp false), .new, .new⟩

/-- A limit buy of three contracts of the perpetual. -/
def deskOrder : Order :=
  Order.new ⟨"S"⟩ ⟨"S-1"⟩ (Position.perp false).id .buy .limit ⟨3, 0⟩ (some ⟨100, 1⟩) none .gtc {} 0

def deskFill (tradeId : String) (qty : ℕ) : Fill :=
  { Position.perpFill false .buy 100 qty 1 with
    tradeId := ⟨tradeId⟩
    clientOrderId := ⟨"S-1"⟩ }

/-- Submit `deskOrder` past an open risk gate. -/
def deskSubmit : EngineCall :=
  .submit ⟨fun _ _ _ ↦ .approved⟩ ⟨fun _ ↦ none, Money.zero ⟨"USDT", 2, two_le_maxPrecision⟩,
    Money.zero ⟨"USDT", 2, two_le_maxPrecision⟩⟩ 0 deskOrder 0

def deskModel : BrokerageModel := ({} : DefaultBrokerageModel).brokerage

/-- Two fills, one of them delivered twice, a cancel, and a fill that comes after it. -/
def deskCalls : List EngineCall :=
  [deskSubmit, .report (.accepted ⟨"S-1"⟩ ⟨"V-1"⟩) 1, .report (.fill (deskFill "T-1" 1)) 2,
    .report (.fill (deskFill "T-1" 1)) 3, .report (.fill (deskFill "T-2" 1)) 4,
    .cancel 5 ⟨"S-1"⟩ 5, .report (.canceled ⟨"S-1"⟩) 6, .report (.fill (deskFill "T-3" 1)) 7]

theorem positions_eq_recorded_desk :
    let s := deskCalls.foldl (EngineCall.step deskModel) deskOms
    (s.cache.position (Position.perp false).id).map Position.signed = some 2 ∧
      ((∀ iid pos, s.cache.position iid = some pos →
          pos.signed = ((s.recorded iid).map Fill.signedQty).sum) ∧
        (s.recordedAll.map Fill.tradeId).Nodup) :=
  ⟨by decide +kernel, positions_eq_recorded deskModel deskCalls deskOms ⟨rfl, rfl⟩
    (by decide +kernel)⟩

end Instances

end Coinext
