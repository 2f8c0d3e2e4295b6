import Coinext.Sim.Session
import Mathlib.Algebra.BigOperators.Ring.Finset
import Mathlib.Algebra.BigOperators.Ring.List

/-!
# No quantity is lost or filled twice

The fills of an order and what is left of it add up to its quantity for as long as it rests. It
leaves the resting orders when it has filled, or when it is cancelled; from then on nothing is
scheduled for it. `Life` says this of one order, in terms of the reports and the resting orders that
carry its client order id. Orders have different ids, so one call changes the life of one order, or
matches each order by itself: the `Ledger` of a session holds the lives of all its orders.
-/

namespace Coinext

namespace SimulatedExecutionClient

variable [DecimalWidth] {model : BrokerageModel} {now : UnixNanos} {inst : Instrument} {tape : Tape}
  {id : InstrumentId} {r r' : Resting}

/-! ## One order, one event -/

omit [DecimalWidth] in
theorem checkedSub_of_le {q o : Quantity} (hprec : o.precision = q.precision)
    (hle : o.raw ≤ q.raw) (hmax : q.precision ≤ maxPrecision) :
    q.checkedSub o = .ok ⟨q.raw - o.raw, q.precision⟩ := by
  have hmin : i64Min ≤ (q.raw : ℤ) - o.raw := by
    unfold i64Min
    omega
  have htoNat : (max ((q.raw : ℤ) - o.raw) 0).toNat = q.raw - o.raw := by omega
  refine Except.bind_eq_ok_iff.mpr ⟨(), Quantity.samePrecision_eq_ok_iff.mpr hprec.symm, ?_⟩
  rw [if_pos hmin, Quantity.fromRaw_eq_ok_iff, htoNat]
  exact ⟨hmax, by omega, rfl⟩

/-- **An event and one order:** it keeps all of it, or takes a part and keeps the rest, or takes all
of it. -/
theorem survivor_cases (hmodel : model.NeverOverfills) (inst : Instrument) (tape : Tape)
    (id : InstrumentId) (hpos : 0 < r.remaining.raw) (hmax : r.remaining.precision ≤ maxPrecision) :
    (offered model inst tape id r = none ∧ ∃ r', survivor model inst tape id r = some r' ∧
      r'.remaining = r.remaining) ∨
    ∃ d, offered model inst tape id r = some d ∧ 0 < d.fillQty.raw ∧ Within r d.fillQty ∧
      ((d.fillQty.raw = r.remaining.raw ∧ survivor model inst tape id r = none) ∨
        ∃ r', survivor model inst tape id r = some r' ∧
          r'.remaining = ⟨r.remaining.raw - d.fillQty.raw, r.remaining.precision⟩ ∧
          0 < r'.remaining.raw) := by
  unfold offered survivor
  by_cases hid : r.order.instrumentId = id
  · simp only [hid, if_true]
    cases hdecision : (verdict model inst tape r).decision with
    | none => exact .inl ⟨rfl, _, rfl, rfl⟩
    | some d =>
      have hwithin := within_of_verdict hmodel hdecision
      by_cases hfill : d.fillQty.isPositive = true
      · right
        refine ⟨d, by simp [hfill], of_decide_eq_true hfill, hwithin, ?_⟩
        have hsub := checkedSub_of_le hwithin.1 hwithin.2 hmax
        have hleft : (fillResting (applyVerdict r (verdict model inst tape r)) d).remaining
            = ⟨r.remaining.raw - d.fillQty.raw, r.remaining.precision⟩ := by
          simp only [fillResting, hfill, if_true]
          rw [show (applyVerdict r (verdict model inst tape r)).remaining = r.remaining from rfl,
            hsub]
        have hle := hwithin.2
        by_cases hzero : r.remaining.raw - d.fillQty.raw = 0
        · refine .inl ⟨by omega, ?_⟩
          simp [hleft, Quantity.isZero, hzero]
        · refine .inr ⟨fillResting (applyVerdict r (verdict model inst tape r)) d, ?_, hleft, ?_⟩
          · simp [hleft, Quantity.isZero, hzero]
          · rw [hleft]
            exact Nat.pos_of_ne_zero hzero
      · left
        have hkept : (fillResting (applyVerdict r (verdict model inst tape r)) d).remaining
            = r.remaining := by
          simp only [fillResting, hfill]
          rfl
        refine ⟨by simp [hfill], fillResting (applyVerdict r (verdict model inst tape r)) d, ?_,
          hkept⟩
        have hne : ¬ r.remaining.raw = 0 := by omega
        simp [hkept, Quantity.isZero, hne]
  · rw [if_neg hid, if_neg hid]
    exact .inl ⟨rfl, r, rfl, rfl⟩

/-! ## One client order id, one event -/

/-- The orders that rest under an id. -/
def restingOf (i : ClientOrderId) (rs : List Resting) : List Resting :=
  rs.filter fun r ↦ r.order.clientOrderId = i

/-- The fills under an id. -/
def fillsOf (i : ClientOrderId) (fills : List Fill) : List Fill :=
  fills.filter fun f ↦ f.clientOrderId = i

theorem restingOf_filterMap_survivor (i : ClientOrderId) (rs : List Resting) :
    restingOf i (rs.filterMap (survivor model inst tape id))
      = (restingOf i rs).filterMap (survivor model inst tape id) := by
  induction rs with
  | nil => rfl
  | cons r rs ih =>
    rw [List.filterMap_cons, restingOf, restingOf, List.filter_cons]
    cases hr : survivor model inst tape id r with
    | none =>
      split_ifs
      · rw [List.filterMap_cons, hr]
        exact ih
      · exact ih
    | some r' =>
      have hsame := (sameOrder_of_survivor hr).clientOrderId
      simp only [List.filter_cons, hsame]
      split_ifs
      · rw [List.filterMap_cons, hr]
        exact congrArg (r' :: ·) ih
      · exact ih

/-- The fills of an event under an id are those of the orders that rest under it. -/
theorem fillsOf_eventFills (model : BrokerageModel) (now : UnixNanos) (inst : Instrument)
    (tape : Tape) (id : InstrumentId) (i : ClientOrderId) (n : ℕ) (rs : List Resting) :
    (restingOf i rs = [] → fillsOf i (eventFills model now inst tape id n rs) = []) ∧
      ∀ r, restingOf i rs = [r] →
        ∃ k, fillsOf i (eventFills model now inst tape id n rs)
          = eventFills model now inst tape id k [r] := by
  induction rs generalizing n with
  | nil => exact ⟨fun _ ↦ rfl, fun r hr ↦ absurd hr.symm (List.cons_ne_nil r [])⟩
  | cons a rs ih =>
    have hall : ∀ f ∈ eventFills model now inst tape id n [a],
        f.clientOrderId = a.order.clientOrderId := by
      intro f hf
      simp only [eventFills] at hf
      split at hf
      · rw [List.mem_singleton.mp hf]
        rfl
      · cases hf
    obtain ⟨hnone, hone⟩ := ih (n + (eventFills model now inst tape id n [a]).length)
    rw [eventFills_cons, fillsOf, List.filter_append]
    by_cases ha : a.order.clientOrderId = i
    · have hkeep : (eventFills model now inst tape id n [a]).filter (fun f ↦ f.clientOrderId = i)
          = eventFills model now inst tape id n [a] :=
        List.filter_eq_self.mpr fun f hf ↦ decide_eq_true ((hall f hf).trans ha)
      have hcons : restingOf i (a :: rs) = a :: restingOf i rs :=
        List.filter_cons_of_pos (by simpa using ha)
      rw [hcons]
      refine ⟨(fun h ↦ absurd h (List.cons_ne_nil _ _)), fun r hr ↦ ⟨n, ?_⟩⟩
      obtain ⟨rfl, hrest⟩ := List.cons.inj hr
      rw [hkeep]
      exact (congrArg (_ ++ ·) (hnone hrest)).trans (List.append_nil _)
    · have hdrop : (eventFills model now inst tape id n [a]).filter (fun f ↦ f.clientOrderId = i)
          = [] :=
        List.filter_eq_nil_iff.mpr fun f hf ↦ by simpa [hall f hf] using ha
      have hcons : restingOf i (a :: rs) = restingOf i rs :=
        List.filter_cons_of_neg (by simpa using ha)
      rw [hcons, hdrop, List.nil_append]
      exact ⟨hnone, hone⟩

end SimulatedExecutionClient

namespace VenueSession

open SimulatedExecutionClient

/-! ## The life of an order -/

/-- The units filled under an id. -/
def filledRaw (i : ClientOrderId) (log : List ExecutionReport) : ℕ :=
  ((fillsOf i (log.filterMap ExecutionReport.fill?)).map fun f ↦ f.lastQty.raw).sum

/-- Where an order of quantity `q` stands. -/
inductive Stage (i : ClientOrderId) (q : Quantity) (log : List ExecutionReport)
    (rs : List Resting) : Prop
  | working (r : Resting) : rs = [r] → r.remaining.precision = q.precision →
    filledRaw i log + r.remaining.raw = q.raw → 0 < r.remaining.raw →
    ExecutionReport.canceled i ∉ log → Stage i q log rs
  | filled : rs = [] → filledRaw i log = q.raw → ExecutionReport.canceled i ∉ log → Stage i q log rs
  | canceled (front back : List ExecutionReport) : rs = [] → filledRaw i log < q.raw →
    log = front ++ .canceled i :: back → ExecutionReport.canceled i ∉ front →
    fillsOf i (back.filterMap ExecutionReport.fill?) = [] → ExecutionReport.canceled i ∉ back →
    Stage i q log rs

/-- The life of an order: its fills are at its precision, and it stands somewhere. -/
structure Life (i : ClientOrderId) (q : Quantity) (log : List ExecutionReport)
    (rs : List Resting) : Prop where
  precision : ∀ f ∈ fillsOf i (log.filterMap ExecutionReport.fill?),
    f.lastQty.precision = q.precision
  stage : Stage i q log rs

/-- Nothing is known of an id. -/
structure Unused (i : ClientOrderId) (log : List ExecutionReport) (rs : List Resting) : Prop where
  fills : fillsOf i (log.filterMap ExecutionReport.fill?) = []
  resting : rs = []
  canceled : ExecutionReport.canceled i ∉ log

theorem filledRaw_append (i : ClientOrderId) (log new : List ExecutionReport) :
    filledRaw i (log ++ new) = filledRaw i log + filledRaw i new := by
  simp only [filledRaw, fillsOf, List.filterMap_append, List.filter_append, List.map_append,
    List.sum_append]

theorem filledRaw_eq_zero {i : ClientOrderId} {log : List ExecutionReport}
    (h : fillsOf i (log.filterMap ExecutionReport.fill?) = []) : filledRaw i log = 0 := by
  rw [filledRaw, h]
  rfl

variable {i : ClientOrderId} {q : Quantity} {log new : List ExecutionReport} {rs rs' : List Resting}

theorem fillsOf_append (i : ClientOrderId) (log new : List ExecutionReport) :
    fillsOf i ((log ++ new).filterMap ExecutionReport.fill?)
      = fillsOf i (log.filterMap ExecutionReport.fill?)
        ++ fillsOf i (new.filterMap ExecutionReport.fill?) := by
  rw [List.filterMap_append, fillsOf, List.filter_append]
  rfl

theorem Life.frame (h : Life i q log rs)
    (hfills : fillsOf i (new.filterMap ExecutionReport.fill?) = [])
    (hcanceled : ExecutionReport.canceled i ∉ new) : Life i q (log ++ new) rs := by
  have hraw : filledRaw i (log ++ new) = filledRaw i log := by
    rw [filledRaw_append, filledRaw_eq_zero hfills, Nat.add_zero]
  have hnot (hlog : ExecutionReport.canceled i ∉ log) : ExecutionReport.canceled i ∉ log ++ new :=
    fun hmem ↦ (List.mem_append.mp hmem).elim hlog hcanceled
  refine ⟨?_, ?_⟩
  · rw [fillsOf_append, hfills, List.append_nil]
    exact h.precision
  · rcases h.stage with ⟨r, hrs, hprec, hsum, hpos, hlog⟩ | ⟨hrs, hsum, hlog⟩ |
      ⟨front, back, hrs, hlt, heq, hfront, hback, hlast⟩
    · exact .working r hrs hprec (by rw [hraw]; exact hsum) hpos (hnot hlog)
    · exact .filled hrs (by rw [hraw]; exact hsum) (hnot hlog)
    · refine .canceled front (back ++ new) hrs (by rw [hraw]; exact hlt) ?_ hfront ?_ ?_
      · rw [heq, List.append_assoc, List.cons_append]
      · rw [fillsOf_append, hback, hfills]
        rfl
      · exact fun hmem ↦ (List.mem_append.mp hmem).elim hlast hcanceled

theorem Unused.frame (h : Unused i log rs)
    (hfills : fillsOf i (new.filterMap ExecutionReport.fill?) = [])
    (hcanceled : ExecutionReport.canceled i ∉ new) : Unused i (log ++ new) rs := by
  refine ⟨?_, h.resting, fun hmem ↦ (List.mem_append.mp hmem).elim h.canceled hcanceled⟩
  rw [fillsOf_append, h.fills, hfills]
  rfl

/-- **A new order** is working. -/
theorem Unused.placed (h : Unused i log rs) {r : Resting} (hr : r.remaining = q)
    (hpos : 0 < q.raw) (hfills : fillsOf i (new.filterMap ExecutionReport.fill?) = [])
    (hcanceled : ExecutionReport.canceled i ∉ new) (hrs : rs' = [r]) :
    Life i q (log ++ new) rs' := by
  have hunused := h.frame hfills hcanceled
  refine ⟨fun f hf ↦ ?_, .working r hrs (by rw [hr]) ?_ (by rw [hr]; exact hpos) hunused.canceled⟩
  · rw [hunused.fills] at hf
    cases hf
  · rw [filledRaw_eq_zero hunused.fills, Nat.zero_add, hr]

/-- **A cancelled order** rests no more. -/
theorem Life.cancel (h : Life i q log rs) (hrs : rs ≠ []) :
    Life i q (log ++ [.canceled i]) [] := by
  have hfills : fillsOf i ([ExecutionReport.canceled i].filterMap ExecutionReport.fill?) = [] := rfl
  refine ⟨?_, ?_⟩
  · rw [fillsOf_append, hfills, List.append_nil]
    exact h.precision
  · rcases h.stage with ⟨r, -, -, hsum, hpos, hlog⟩ | ⟨hnil, -, -⟩ | ⟨front, back, hnil, -⟩
    · refine .canceled log [] rfl ?_ rfl hlog rfl List.not_mem_nil
      rw [filledRaw_append, filledRaw_eq_zero hfills]
      omega
    · exact absurd hnil hrs
    · exact absurd hnil hrs

theorem Life.length_le (h : Life i q log rs) : rs.length ≤ 1 := by
  rcases h.stage with ⟨r, hrs, -⟩ | ⟨hrs, -, -⟩ | ⟨front, back, hrs, -⟩ <;> simp [hrs]

/-! ## The ledger -/

/-- Every order that was placed stands somewhere, and nothing is known of any other id. -/
structure Ledger (orders : List Order) (log : List ExecutionReport) (rs : List Resting) :
    Prop where
  lives : ∀ o ∈ orders, Life o.clientOrderId o.quantity log (restingOf o.clientOrderId rs)
  unused : ∀ i, i ∉ orders.map Order.clientOrderId → Unused i log (restingOf i rs)

variable {orders : List Order}

theorem Ledger.length_le (h : Ledger orders log rs) (i : ClientOrderId) :
    (restingOf i rs).length ≤ 1 := by
  by_cases hi : i ∈ orders.map Order.clientOrderId
  · obtain ⟨o, ho, rfl⟩ := List.mem_map.mp hi
    exact (h.lives o ho).length_le
  · rw [(h.unused i hi).resting]
    exact Nat.zero_le 1

theorem ledger_nil : Ledger [] [] [] :=
  ⟨(fun _ ho ↦ nomatch ho), fun _ _ ↦ ⟨rfl, rfl, List.not_mem_nil⟩⟩

/-- **An order is placed** under a new id. -/
theorem Ledger.place (h : Ledger orders log rs) {o : Order} {r : Resting} (v : VenueOrderId)
    (hnew : o.clientOrderId ∉ orders.map Order.clientOrderId) (hpos : 0 < o.quantity.raw)
    (horder : r.order.clientOrderId = o.clientOrderId) (hremaining : r.remaining = o.quantity) :
    Ledger (orders ++ [o]) (log ++ [.accepted o.clientOrderId v]) (rs ++ [r]) := by
  have hother (i : ClientOrderId) (hi : o.clientOrderId ≠ i) :
      restingOf i (rs ++ [r]) = restingOf i rs := by
    rw [restingOf, List.filter_append, List.filter_singleton, horder]
    simp [hi, restingOf]
  refine ⟨fun o' ho' ↦ ?_, fun i hi ↦ ?_⟩
  · rcases List.mem_append.mp ho' with ho' | ho'
    · have hne : o.clientOrderId ≠ o'.clientOrderId :=
        fun heq ↦ hnew (heq ▸ List.mem_map_of_mem ho')
      rw [hother _ hne]
      exact (h.lives o' ho').frame rfl (by simp)
    · rw [List.mem_singleton.mp ho']
      have hunused := h.unused _ hnew
      refine hunused.placed hremaining hpos rfl (by simp) ?_
      have hnil : rs.filter (fun r ↦ r.order.clientOrderId = o.clientOrderId) = [] :=
        hunused.resting
      rw [restingOf, List.filter_append, hnil, List.filter_singleton, horder]
      simp
  · rw [List.map_append, List.mem_append, not_or] at hi
    rw [hother i fun heq ↦ hi.2 (heq ▸ List.mem_singleton_self _)]
    exact (h.unused i hi.1).frame rfl (by simp)

/-- **The order under an id is cancelled.** -/
theorem Ledger.cancel (h : Ledger orders log rs) {i : ClientOrderId} (hrs : restingOf i rs ≠ []) :
    Ledger orders (log ++ [.canceled i]) (rs.eraseP fun r ↦ r.order.clientOrderId = i) := by
  have hother (j : ClientOrderId) (hj : i ≠ j) :
      restingOf j (rs.eraseP fun r ↦ r.order.clientOrderId = i) = restingOf j rs :=
    filter_eraseP_of_disjoint (fun r hr ↦ by
      rw [decide_eq_true_eq] at hr
      simpa [hr] using hj) rs
  have hsame : restingOf i (rs.eraseP fun r ↦ r.order.clientOrderId = i) = [] :=
    filter_eraseP_of_length_le (h.length_le i)
  refine ⟨fun o ho ↦ ?_, fun j hj ↦ ?_⟩
  · by_cases hi : i = o.clientOrderId
    · subst hi
      rw [hsame]
      exact (h.lives o ho).cancel hrs
    · rw [hother _ hi]
      exact (h.lives o ho).frame rfl (by simpa using fun heq ↦ hi heq.symm)
  · have hi : i ≠ j := fun heq ↦ hrs (heq ▸ (h.unused j hj).resting)
    rw [hother _ hi]
    exact (h.unused j hj).frame rfl (by simpa using fun heq ↦ hi heq.symm)

/-! ## Events -/

variable [DecimalWidth] {model : BrokerageModel} {now : UnixNanos} {inst : Instrument} {tape : Tape}
  {id : InstrumentId}

/-- **A matched order** is filled in part or in whole, or left alone. -/
theorem Life.event (hmodel : model.NeverOverfills) (hmax : q.precision ≤ maxPrecision)
    {all : List Resting} (h : Life i q log (restingOf i all)) (n : ℕ) :
    Life i q (log ++ (eventFills model now inst tape id n all).map .fill)
      (restingOf i (all.filterMap (survivor model inst tape id))) := by
  have hcanceled : ExecutionReport.canceled i
      ∉ (eventFills model now inst tape id n all).map ExecutionReport.fill := by
    intro hmem
    obtain ⟨f, -, hf⟩ := List.mem_map.mp hmem
    cases hf
  obtain ⟨hnone, hone⟩ := fillsOf_eventFills model now inst tape id i n all
  have hquiet (hrs : restingOf i all = []) : fillsOf i (((eventFills model now inst tape id n
      all).map ExecutionReport.fill).filterMap ExecutionReport.fill?) = [] := by
    rw [ExecutionReport.filterMap_map_fill, hnone hrs]
  rw [restingOf_filterMap_survivor]
  rcases h.stage with ⟨r, hrs, hprec, hsum, hpos, hlog⟩ | ⟨hrs, hsum, hlog⟩ |
    ⟨front, back, hrs, hlt, heq, hfront, hback', hlast⟩
  · obtain ⟨k, hk⟩ := hone r hrs
    have hfills : fillsOf i (((eventFills model now inst tape id n all).map
        ExecutionReport.fill).filterMap ExecutionReport.fill?)
          = eventFills model now inst tape id k [r] := by
        rw [ExecutionReport.filterMap_map_fill, hk]
    have hnot : ExecutionReport.canceled i
        ∉ log ++ (eventFills model now inst tape id n all).map ExecutionReport.fill :=
      fun hmem ↦ (List.mem_append.mp hmem).elim hlog hcanceled
    rcases survivor_cases hmodel inst tape id hpos (hprec ▸ hmax) with
      ⟨hoffered, r', hsurvivor, hleft⟩ | ⟨d, hoffered, hfill, hwithin, hleft⟩
    · have hidle : eventFills model now inst tape id k [r] = [] := by
        simp only [eventFills, hoffered]
      rw [hidle] at hfills
      have hframe := h.frame hfills hcanceled
      refine ⟨hframe.precision, .working r' ?_ (hleft ▸ hprec) ?_ (hleft ▸ hpos) hnot⟩
      · rw [hrs, List.filterMap_cons_some hsurvivor, List.filterMap_nil]
      · rw [filledRaw_append, filledRaw_eq_zero hfills, Nat.add_zero, hleft]
        exact hsum
    · set f := makeFill model inst r (k + 1) d (saturatingAddNs now (model.latencyNs .submit))
        with hf
      have hone' : eventFills model now inst tape id k [r] = [f] := by
        simp only [eventFills, hoffered, hf]
      rw [hone'] at hfills
      have hraw : filledRaw i (log ++ (eventFills model now inst tape id n all).map
          ExecutionReport.fill) = filledRaw i log + d.fillQty.raw := by
        rw [filledRaw_append, filledRaw, filledRaw, hfills]
        simp [hf, makeFill]
      refine ⟨fun g hg ↦ ?_, ?_⟩
      · rw [fillsOf_append, hfills, List.mem_append] at hg
        rcases hg with hg | hg
        · exact h.precision g hg
        · rw [List.mem_singleton.mp hg]
          exact hwithin.1.trans hprec
      · have hle := hwithin.2
        rcases hleft with ⟨hall, hsurvivor⟩ | ⟨r', hsurvivor, hleft, hpos'⟩
        · refine .filled ?_ ?_ hnot
          · rw [hrs, List.filterMap_cons_none hsurvivor, List.filterMap_nil]
          · omega
        · have hrest : r'.remaining.raw = r.remaining.raw - d.fillQty.raw := by rw [hleft]
          refine .working r' ?_ ?_ ?_ hpos' hnot
          · rw [hrs, List.filterMap_cons_some hsurvivor, List.filterMap_nil]
          · rw [hleft]
            exact hprec
          · omega
  · rw [hrs] at h ⊢
    exact h.frame (hquiet hrs) hcanceled
  · rw [hrs] at h ⊢
    exact h.frame (hquiet hrs) hcanceled

theorem Unused.event {all : List Resting} (h : Unused i log (restingOf i all)) (n : ℕ) :
    Unused i (log ++ (eventFills model now inst tape id n all).map .fill)
      (restingOf i (all.filterMap (survivor model inst tape id))) := by
  obtain ⟨hnone, -⟩ := fillsOf_eventFills model now inst tape id i n all
  rw [restingOf_filterMap_survivor]
  have hrs := h.resting
  have hquiet : fillsOf i (((eventFills model now inst tape id n all).map
      ExecutionReport.fill).filterMap ExecutionReport.fill?) = [] := by
    rw [ExecutionReport.filterMap_map_fill, hnone hrs]
  rw [hrs] at h ⊢
  refine h.frame hquiet fun hmem ↦ ?_
  obtain ⟨f, -, hf⟩ := List.mem_map.mp hmem
  cases hf

theorem Ledger.event (hmodel : model.NeverOverfills)
    (hmax : ∀ o ∈ orders, o.quantity.precision ≤ maxPrecision) {all : List Resting}
    (h : Ledger orders log all) (n : ℕ) :
    Ledger orders (log ++ (eventFills model now inst tape id n all).map .fill)
      (all.filterMap (survivor model inst tape id)) :=
  ⟨fun o ho ↦ (h.lives o ho).event hmodel (hmax o ho) n, fun i hi ↦ (h.unused i hi).event n⟩

/-! ## Whole sessions -/

/-- The order that a call submits. -/
def submission? : VenueCall → Option Order
  | .submit _ _ order => some order
  | _ => none

/-- Orders of positive quantities are submitted, under different client order ids. -/
structure Submissions (calls : List VenueCall) : Prop where
  distinct : ((calls.filterMap submission?).map Order.clientOrderId).Nodup
  positive : ∀ o ∈ calls.filterMap submission?, 0 < o.quantity.raw
  precision_le : ∀ o ∈ calls.filterMap submission?, o.quantity.precision ≤ maxPrecision

theorem placed_sublist (calls : List VenueCall) :
    (run model calls).placed.Sublist (calls.filterMap submission?) := by
  induction calls using List.reverseRecOn with
  | nil => exact .refl _
  | append_singleton calls call ih =>
    rw [run_concat, List.filterMap_append]
    cases call with
    | submit cache now order =>
      simp only [step]
      split_ifs
      · exact ih.append (.refl _)
      · exact ih.trans (List.sublist_append_left _ _)
    | cancel now id => exact ih.trans (List.sublist_append_left _ _)
    | market cache now ev => exact ih.trans (List.sublist_append_left _ _)
    | drain frontier => exact ih.trans (List.sublist_append_left _ _)

/-- **The ledger of a session.** -/
theorem ledger_run (hmodel : model.NeverOverfills) {calls : List VenueCall}
    (h : Submissions calls) :
    Ledger (run model calls).placed (run model calls).log (run model calls).sim.resting := by
  induction calls using List.reverseRecOn with
  | nil => exact ledger_nil
  | append_singleton calls call ih =>
    have hsubmitted := h.distinct
    rw [List.filterMap_append, List.map_append, List.nodup_append] at hsubmitted
    have hledger := ih ⟨hsubmitted.1,
      fun o ho ↦ h.positive o (by rw [List.filterMap_append]; exact List.mem_append_left _ ho),
      fun o ho ↦ h.precision_le o (by rw [List.filterMap_append]; exact List.mem_append_left _ ho)⟩
    have hmax (o : Order) (ho : o ∈ (run model calls).placed) :
        o.quantity.precision ≤ maxPrecision := by
      refine h.precision_le o ?_
      rw [List.filterMap_append]
      exact List.mem_append_left _ ((placed_sublist calls).subset ho)
    obtain ⟨-, hlog⟩ := log_step model (sound_run calls).numbered call
    rw [run_concat, hlog, resting_step]
    cases call with
    | submit cache now order =>
      simp only [step, reports, restingAfter]
      split_ifs with hknown
      · refine hledger.place _ (fun hmem ↦ ?_) (h.positive order (by simp [submission?])) rfl rfl
        obtain ⟨o, ho, heq⟩ := List.mem_map.mp hmem
        exact hsubmitted.2.2 _ (List.mem_map_of_mem ((placed_sublist calls).subset ho)) _
          (List.mem_singleton_self _) heq
      · rw [List.append_nil]
        exact hledger
    | cancel now id =>
      simp only [step, reports, restingAfter]
      split_ifs with hany
      · refine hledger.cancel fun hnil ↦ ?_
        obtain ⟨r, hr, hid⟩ := List.any_eq_true.mp hany
        have hmem : r ∈ restingOf id (run model calls).sim.resting := List.mem_filter.mpr ⟨hr, hid⟩
        rw [hnil] at hmem
        cases hmem
      · rw [List.append_nil, List.eraseP_of_forall_not (by simpa using hany)]
        exact hledger
    | market cache now ev =>
      rcases offers_or_idle model cache now ev (run model calls) with
        ⟨inst, tape, -, -, hfills, hresting⟩ | ⟨hfills, hresting, -⟩
      · simp only [step, reports, hfills, hresting]
        exact hledger.event hmodel hmax _
      · simp only [step, reports, hfills, hresting]
        rw [List.map_nil, List.append_nil]
        exact hledger
    | drain frontier =>
      simp only [step, reports, restingAfter]
      rw [List.append_nil]
      exact hledger

/-! ## What is conserved -/

/-- The quantity filled under an id. -/
def filled (s : VenueSession) (i : ClientOrderId) : Decimal :=
  ((fillsOf i s.logFills).map fun f ↦ f.lastQty.asDecimal).sum

/-- An order rests under the id. -/
def Rests (s : VenueSession) (i : ClientOrderId) : Prop :=
  ∃ r ∈ s.sim.resting, r.order.clientOrderId = i

/-- No quantity of an order is lost or filled twice. -/
structure Conserves (s : VenueSession) (o : Order) : Prop where
  /-- While it rests, its fills and what remains add up to its quantity. -/
  balance : ∀ r ∈ s.sim.resting, r.order.clientOrderId = o.clientOrderId →
    s.filled o.clientOrderId + r.remaining.asDecimal = o.quantity.asDecimal
  /-- It rests until it has filled or has been cancelled. -/
  rests_iff : s.Rests o.clientOrderId ↔ s.filled o.clientOrderId ≠ o.quantity.asDecimal ∧
    ExecutionReport.canceled o.clientOrderId ∉ s.log
  filled_le : s.filled o.clientOrderId ≤ o.quantity.asDecimal
  /-- Nothing is filled once it has been cancelled. -/
  silent : ∀ front back, s.log = front ++ .canceled o.clientOrderId :: back →
    ∀ f, ExecutionReport.fill f ∈ back → f.clientOrderId ≠ o.clientOrderId

variable {s : VenueSession}

omit [DecimalWidth] in
theorem rests_iff_ne_nil : s.Rests i ↔ restingOf i s.sim.resting ≠ [] := by
  simp only [Rests, restingOf, ne_eq, List.filter_eq_nil_iff, decide_eq_true_eq, not_forall,
    not_not, exists_prop]

omit [DecimalWidth] in
theorem Life.filled_eq (h : Life i q s.log rs) :
    s.filled i = filledRaw i s.log * ulp q.precision := by
  have hmap : (fillsOf i s.logFills).map (fun f ↦ f.lastQty.asDecimal)
      = (fillsOf i s.logFills).map fun f ↦ (f.lastQty.raw : ℚ) * ulp q.precision := by
    refine List.map_congr_left fun f hf ↦ ?_
    rw [Quantity.asDecimal, h.precision f hf]
  rw [filled, hmap, filledRaw, Nat.cast_list_sum, List.map_map, ← List.sum_map_mul_right]
  rfl

omit [DecimalWidth] in
theorem asDecimal_of_raw {n : ℕ} {q : Quantity} :
    (n : Decimal) * ulp q.precision = q.asDecimal ↔ n = q.raw := by
  rw [Quantity.asDecimal, mul_left_inj' (ulp_pos _).ne', Nat.cast_inj]

omit [DecimalWidth] in
theorem Life.conserves {o : Order}
    (h : Life o.clientOrderId o.quantity s.log (restingOf o.clientOrderId s.sim.resting)) :
    Conserves s o := by
  have hfilled := h.filled_eq
  have hle (hraw : filledRaw o.clientOrderId s.log ≤ o.quantity.raw) :
      s.filled o.clientOrderId ≤ o.quantity.asDecimal := by
    rw [hfilled]
    exact mul_le_mul_of_nonneg_right (by exact_mod_cast hraw) (ulp_pos _).le
  have hmem (r : Resting) (hr : r ∈ s.sim.resting) (hid : r.order.clientOrderId = o.clientOrderId) :
      r ∈ restingOf o.clientOrderId s.sim.resting :=
    List.mem_filter.mpr ⟨hr, decide_eq_true hid⟩
  rcases h.stage with ⟨r, hrs, hprec, hsum, hpos, hlog⟩ | ⟨hrs, hsum, hlog⟩ |
    ⟨front, back, hrs, hlt, heq, hfront, hback, hlast⟩
  · refine ⟨fun r' hr' hid ↦ ?_, ?_, hle (by omega), fun front back heq ↦ ?_⟩
    · have hr := hmem r' hr' hid
      rw [hrs] at hr
      rw [List.mem_singleton.mp hr, hfilled, Quantity.asDecimal, Quantity.asDecimal, hprec,
        ← add_mul, ← Nat.cast_add, hsum]
    · rw [rests_iff_ne_nil, hrs, hfilled, ne_eq, ne_eq, asDecimal_of_raw]
      exact ⟨fun _ ↦ ⟨by omega, hlog⟩, fun _ hnil ↦ absurd hnil (List.cons_ne_nil r [])⟩
    · exact absurd (heq ▸ List.mem_append_right _ List.mem_cons_self) hlog
  · refine ⟨fun r' hr' hid ↦ ?_, ?_, hle hsum.le, fun front back heq ↦ ?_⟩
    · have hr := hmem r' hr' hid
      rw [hrs] at hr
      cases hr
    · rw [rests_iff_ne_nil, hrs, hfilled, ne_eq, ne_eq, asDecimal_of_raw]
      exact ⟨fun hne ↦ absurd rfl hne, fun hne ↦ absurd hsum hne.1⟩
    · exact absurd (heq ▸ List.mem_append_right _ List.mem_cons_self) hlog
  · refine ⟨fun r' hr' hid ↦ ?_, ?_, hle hlt.le, fun front' back' heq' f hf hid ↦ ?_⟩
    · have hr := hmem r' hr' hid
      rw [hrs] at hr
      cases hr
    · rw [rests_iff_ne_nil, hrs, heq]
      exact ⟨fun hne ↦ absurd rfl hne,
        fun hne ↦ absurd (List.mem_append_right _ List.mem_cons_self) hne.2⟩
    · obtain ⟨-, -, rfl⟩ :=
        (List.append_cons_inj_of_notMem hfront hlast).mp (heq.symm.trans heq')
      have hof : f ∈ fillsOf o.clientOrderId (back.filterMap ExecutionReport.fill?) :=
        List.mem_filter.mpr ⟨List.mem_filterMap.mpr ⟨_, hf, rfl⟩, decide_eq_true hid⟩
      rw [hback] at hof
      cases hof

/-- **A cancellation is reported** when a cancel finds the order resting, and only then. -/
theorem canceled_mem_log_iff (calls : List VenueCall) (i : ClientOrderId) :
    ExecutionReport.canceled i ∈ (run model calls).log ↔
      ∃ front now back, calls = front ++ .cancel now i :: back ∧ (run model front).Rests i := by
  induction calls using List.reverseRecOn with
  | nil =>
    refine ⟨(fun hmem ↦ absurd hmem List.not_mem_nil), ?_⟩
    rintro ⟨front, now, back, heq, -⟩
    exact absurd heq.symm (by simp)
  | append_singleton calls call ih =>
    obtain ⟨-, hlog⟩ := log_step model (sound_run calls).numbered call
    have hcall : ExecutionReport.canceled i ∈ reports model (run model calls) call ↔
        ∃ now, call = .cancel now i ∧ (run model calls).Rests i := by
      cases call with
      | submit cache now order =>
        simp only [reports]
        split_ifs <;> simp
      | cancel now id =>
        simp only [reports, Rests]
        split_ifs with hany
        · obtain ⟨r, hr, hid⟩ := List.any_eq_true.mp hany
          rw [decide_eq_true_eq] at hid
          simp only [List.mem_singleton, ExecutionReport.canceled.injEq, VenueCall.cancel.injEq]
          refine ⟨?_, ?_⟩
          · rintro rfl
            exact ⟨now, ⟨rfl, rfl⟩, r, hr, hid⟩
          · rintro ⟨now, ⟨rfl, rfl⟩, -⟩
            rfl
        · refine ⟨(fun hmem ↦ absurd hmem List.not_mem_nil), ?_⟩
          rintro ⟨now, heq, r, hr, hid⟩
          cases heq
          exact absurd (List.any_eq_true.mpr ⟨r, hr, decide_eq_true hid⟩) hany
      | market cache now ev => simp [reports]
      | drain frontier => simp [reports]
    rw [run_concat, hlog, List.mem_append, ih, hcall]
    refine ⟨?_, ?_⟩
    · rintro (⟨front, now, back, rfl, hrests⟩ | ⟨now, rfl, hrests⟩)
      · exact ⟨front, now, back ++ [call], by simp, hrests⟩
      · exact ⟨calls, now, [], rfl, hrests⟩
    · rintro ⟨front, now, back, heq, hrests⟩
      rcases List.eq_nil_or_concat back with rfl | ⟨back, last, rfl⟩
      · obtain ⟨rfl, hlast⟩ := List.append_inj' heq rfl
        exact .inr ⟨now, List.singleton_inj.mp hlast, hrests⟩
      · rw [List.concat_eq_append, ← List.cons_append, ← List.append_assoc] at heq
        obtain ⟨rfl, -⟩ := List.append_inj' heq rfl
        exact .inl ⟨front, now, back, rfl, hrests⟩

omit [DecimalWidth] in
theorem Sound.nodup (h : Sound s) :
    ((s.log.filterMap acceptance?).map Prod.snd).Nodup ∧ (s.logFills.map Fill.tradeId).Nodup := by
  refine ⟨?_, ?_⟩
  · have hids : (s.placed.mapIdx fun k o ↦ (o.clientOrderId, simVenueId (k + 1))).map Prod.snd
        = (List.range' 1 s.placed.length).map simVenueId := by
      refine List.ext_getElem (by simp) fun k _ _ ↦ ?_
      simp [Nat.add_comm 1]
    rw [h.acceptances, hids]
    exact (List.nodup_range' 1).map simVenueId_injective
  · rw [h.tradeIds]
    exact (List.nodup_range' 1).map simTradeId_injective

/-- **The venue never over-fills.** -/
theorem conserves_run (m : DefaultBrokerageModel) {calls : List VenueCall}
    (h : Submissions calls) :
    (∀ o ∈ (run m.brokerage calls).placed, Conserves (run m.brokerage calls) o) ∧
      (∀ i, ExecutionReport.canceled i ∈ (run m.brokerage calls).log ↔
        ∃ front now back, calls = front ++ .cancel now i :: back ∧
          (run m.brokerage front).Rests i) ∧
      (((run m.brokerage calls).log.filterMap acceptance?).map Prod.snd).Nodup ∧
      ((run m.brokerage calls).logFills.map Fill.tradeId).Nodup :=
  ⟨fun o ho ↦ ((ledger_run m.neverOverfills h).lives o ho).conserves,
    canceled_mem_log_iff calls, (sound_run calls).nodup⟩

end VenueSession

/-! ## Instances -/

namespace VenueSession

section Instances

open scoped RustDecimal

/-- Two bars fill an order in parts; it is cancelled before the third. -/
def partlyFilled : List VenueCall :=
  [.submit listed 0 (perpOrder "a" .buy .market 5 none none),
    .market listed 1 (perpBar 990 1010 1000 1000 8), .drain 1000000,
    .market listed 2 (perpBar 990 1010 1000 1000 4), .cancel 3 ⟨"a"⟩,
    .market listed 4 (perpBar 990 1010 1000 1000 100)]

theorem conserves_partlyFilled :
    (run ({} : DefaultBrokerageModel).brokerage partlyFilled).filled ⟨"a"⟩ = 3 ∧
      ∀ o ∈ (run ({} : DefaultBrokerageModel).brokerage partlyFilled).placed,
        Conserves (run ({} : DefaultBrokerageModel).brokerage partlyFilled) o :=
  ⟨by decide +kernel,
    (conserves_run {} ⟨by decide, by decide, by decide⟩).1⟩

end Instances

end VenueSession

end Coinext
