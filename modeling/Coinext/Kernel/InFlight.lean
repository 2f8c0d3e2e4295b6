import Coinext.Model.OrderLog
import Coinext.Engine.Exec
import Coinext.Sim.Matching

/-!
# Reports in flight

An order and the reports about it that the venue has scheduled and the kernel has not folded yet are
one thing: which of the reports will take effect depends on the status of the order and on their
order. A `Slice` is what is under way for one order id: the drained reports, the queued reports, and
the order as it rests at the venue.

`Folds` says that every fill of a sequence of reports meets an order that takes it. `SliceInv` adds
the quantities: what is filled, in flight and resting never exceeds the order. The lemmas of this
module say what one report, one cancellation and one new fill do to a slice.
-/

namespace Coinext

/-! ## Phases -/

/-- What a fill would meet: an order that is not acknowledged yet, one that takes fills, or one that
does not. -/
inductive Phase where
  | fresh | live | done
deriving DecidableEq

def OrderStatus.phase : OrderStatus → Phase
  | .submitted => .fresh
  | .accepted | .partiallyFilled => .live
  | _ => .done

/-- The phase after a report of the venue. A fill that completes the order is accounted for by the
quantities, not here. -/
def Phase.next : Phase → ExecutionReport → Phase
  | .fresh, .accepted .. => .live
  | .live, .canceled _ => .done
  | p, _ => p

def Phase.after (p : Phase) (w : List ExecutionReport) : Phase := w.foldl Phase.next p

@[simp] theorem Phase.after_cons (p : Phase) (r : ExecutionReport) (w : List ExecutionReport) :
    p.after (r :: w) = (p.next r).after w := rfl

/-- The reports the simulated venue emits. -/
def ExecutionReport.IsSim : ExecutionReport → Prop
  | .accepted .. | .fill _ | .canceled _ => True
  | _ => False

/-- Every fill of the sequence meets an order that takes it. -/
def Folds : Phase → List ExecutionReport → Prop
  | _, [] => True
  | p, r :: w => r.IsSim ∧ (r.fill?.isSome = true → p = .live) ∧ Folds (p.next r) w

theorem folds_append {p : Phase} {w w' : List ExecutionReport} :
    Folds p (w ++ w') ↔ Folds p w ∧ Folds (p.after w) w' := by
  induction w generalizing p with
  | nil => simp [Folds, Phase.after]
  | cons r w ih =>
    rw [List.cons_append, Folds, Folds, ih, Phase.after_cons]
    tauto

theorem Phase.after_append (p : Phase) (w w' : List ExecutionReport) :
    p.after (w ++ w') = (p.after w).after w' := List.foldl_append

theorem folds_of_no_fill {p : Phase} {w : List ExecutionReport} (hsim : ∀ r ∈ w, r.IsSim)
    (hfill : ∀ r ∈ w, r.fill? = none) : Folds p w := by
  induction w generalizing p with
  | nil => exact trivial
  | cons r w ih =>
    refine ⟨hsim r List.mem_cons_self, ?_, ih (fun x hx ↦ hsim x (List.mem_cons_of_mem r hx))
      fun x hx ↦ hfill x (List.mem_cons_of_mem r hx)⟩
    rw [hfill r List.mem_cons_self]
    exact fun h ↦ (by cases h)

theorem Folds.isSim {p : Phase} {w : List ExecutionReport} (h : Folds p w) : ∀ r ∈ w, r.IsSim := by
  induction w generalizing p with
  | nil => exact fun r hr ↦ absurd hr List.not_mem_nil
  | cons r w ih =>
    intro x hx
    rcases List.mem_cons.mp hx with rfl | hx
    · exact h.1
    · exact ih h.2.2 x hx

theorem Phase.after_fresh {w : List ExecutionReport} (h : ∀ r ∈ w, r.isAccepted = false) :
    Phase.fresh.after w = .fresh := by
  induction w with
  | nil => rfl
  | cons r w ih =>
    have hnext : Phase.fresh.next r = .fresh := by
      cases r with
      | accepted id v =>
        exact absurd (h _ List.mem_cons_self) (by simp [ExecutionReport.isAccepted])
      | _ => rfl
    rw [Phase.after_cons, hnext]
    exact ih fun x hx ↦ h x (List.mem_cons_of_mem r hx)

/-! ## Slices -/

/-- What is under way for one client order id. -/
structure Slice where
  pending : List ExecutionReport
  queued : List (Timed ExecutionReport)
  resting : List Resting

namespace Slice

/-- The reports in the order in which they will be folded. -/
def word (sl : Slice) : List ExecutionReport := sl.pending ++ sl.queued.map Timed.item

def fills (sl : Slice) : List Fill := sl.word.filterMap ExecutionReport.fill?

def fillsRaw (sl : Slice) : ℕ := (sl.fills.map fun f ↦ f.lastQty.raw).sum

def restingRaw (sl : Slice) : ℕ := (sl.resting.map fun r ↦ r.remaining.raw).sum

end Slice

/-- The order is for a known instrument, at its size precision, its fills are its own, and its
filled quantity is their sum. -/
structure Order.Sound (insts : Map InstrumentId Instrument) (id : ClientOrderId) (o : Order) :
    Prop where
  known : ∃ inst, insts.lookup o.instrumentId = some inst ∧
    o.quantity.precision = inst.sizePrecision
  precision_le : o.quantity.precision ≤ maxPrecision
  range : (o.quantity.raw : ℤ) ≤ i64Max
  filled : Order.FilledBySum o.quantity.precision o
  own : ∀ f ∈ o.fills, f.clientOrderId = id ∧ f.instrumentId = o.instrumentId

/-- What holds of a tracked order and its reports. `bound` is when a fill scheduled now is due. -/
structure TrackedInv (insts : Map InstrumentId Instrument) (bound : ℕ) (id : ClientOrderId)
    (sl : Slice) (o : Order) : Prop where
  sound : o.Sound insts id
  fills : ∀ f ∈ sl.fills, f.clientOrderId = id ∧ f.instrumentId = o.instrumentId ∧
    f.lastQty.precision = o.quantity.precision ∧ 0 < f.lastQty.raw
  resting : ∀ r ∈ sl.resting, r.order.instrumentId = o.instrumentId ∧
    r.remaining.precision = o.quantity.precision
  one : sl.resting.length ≤ 1
  budget : o.filledQty.raw + sl.fillsRaw + sl.restingRaw ≤ o.quantity.raw
  folds : Folds o.status.phase sl.word
  /-- A fill of a resting order comes after everything that is queued, and will be taken. -/
  ready : ∀ r ∈ sl.resting, 0 < r.remaining.raw →
    o.status.phase.after sl.word = .live ∧ ∀ e ∈ sl.queued, e.due ≤ bound

/-- An id that is not tracked has no reports and no resting order. -/
structure SliceInv (insts : Map InstrumentId Instrument) (bound : ℕ) (id : ClientOrderId)
    (order : Option Order) (sl : Slice) : Prop where
  untracked : order = none → sl.pending = [] ∧ sl.queued = [] ∧ sl.resting = []
  tracked : ∀ o ∈ order, TrackedInv insts bound id sl o

/-! ## Orders whose quantities stay put -/

/-- The fields the invariant reads, the status excepted. -/
structure SameBalance (o o' : Order) : Prop where
  instrumentId : o'.instrumentId = o.instrumentId
  quantity : o'.quantity = o.quantity
  filledQty : o'.filledQty = o.filledQty
  fills : o'.fills = o.fills

theorem Order.Sound.of_same {insts : Map InstrumentId Instrument} {id : ClientOrderId}
    {o o' : Order}
    (h : o.Sound insts id) (hsame : SameBalance o o') : o'.Sound insts id := by
  refine ⟨?_, ?_, ?_, ?_, ?_⟩
  · rw [hsame.instrumentId, hsame.quantity]
    exact h.known
  · rw [hsame.quantity]
    exact h.precision_le
  · rw [hsame.quantity]
    exact h.range
  · rw [hsame.quantity]
    exact ⟨hsame.fills ▸ h.filled.precision_eq,
      by rw [hsame.filledQty, hsame.fills]; exact h.filled.filledQty_eq⟩
  · rw [hsame.fills, hsame.instrumentId]
    exact h.own

namespace Order

variable [DecimalWidth] {o : Order}

theorem sameBalance_applied {ev : OrderEvent} (hfill : ev.fill? = none)
    (hamend : ev.amendedQty? = none) : SameBalance o (o.applied ev) := by
  rcases o.applied_cases ev with hacc | hsame
  · refine ⟨hacc.sameTerms.instrumentId, ?_, (hacc.filledQty_of_fill?_eq_none hfill).1, ?_⟩
    · obtain ⟨p, -, heff, hp⟩ := hacc
      rw [hp]
      cases ev with
      | initialized => cases heff
      | partiallyFilled f | filled f => cases hfill
      | updated q px ts =>
        cases heff
        cases q with
        | none => rfl
        | some q => cases hamend
      | _ =>
        cases heff
        rfl
    · rw [hacc.fills, hfill]
      exact List.append_nil _
  · rw [hsame]
    exact ⟨rfl, rfl, rfl, rfl⟩

/-- A fill that is taken adds to the filled quantity and completes the order when nothing is
left. -/
theorem Sound.of_fill {insts : Map InstrumentId Instrument} {id : ClientOrderId} {o' : Order}
    {ev : OrderEvent} {f : Fill} (h : o.Sound insts id) (hacc : o.Accepts ev o')
    (hev : ev.fill? = some f) (hown : f.clientOrderId = id ∧ f.instrumentId = o.instrumentId) :
    o'.Sound insts id ∧ o'.instrumentId = o.instrumentId ∧ o'.quantity = o.quantity ∧
      o'.filledQty.raw = o.filledQty.raw + f.lastQty.raw ∧
      o'.status = if o'.quantity.raw ≤ o'.filledQty.raw then .filled else .partiallyFilled := by
  obtain ⟨-, hadd, hqty, hstatus⟩ := hacc.of_fill hev
  obtain ⟨-, hmax, -, hsum⟩ := Quantity.checkedAdd_eq_ok_iff.mp hadd
  have hterms := hacc.sameTerms.instrumentId
  have hraw : o'.filledQty.raw = o.filledQty.raw + f.lastQty.raw := by rw [hsum]
  have hfilled : FilledBySum o.quantity.precision o' := by
    have happlied := h.filled.applied ev
    rwa [applied, apply_eq_ok_iff.mpr hacc] at happlied
  have hleaves : o'.leavesQty = ⟨o'.quantity.raw - o'.filledQty.raw, o'.quantity.precision⟩ := by
    refine leavesQty_eq (hqty ▸ h.precision_le) ?_ ?_
    · rw [hfilled.filledQty_eq, hqty]
    · rw [hraw]
      exact_mod_cast hmax
  refine ⟨⟨?_, hqty ▸ h.precision_le, hqty ▸ h.range, hqty ▸ hfilled, ?_⟩, hterms, hqty, hraw, ?_⟩
  · rw [hterms, hqty]
    exact h.known
  · intro g hg
    rw [hacc.fills, hev, Option.toList_some, List.mem_append, List.mem_singleton] at hg
    rw [hterms]
    rcases hg with hg | rfl
    · exact h.own g hg
    · exact hown
  · rw [hstatus, hleaves, Quantity.isZero]
    simp only [beq_iff_eq, Nat.sub_eq_zero_iff_le]

theorem phase_applied_accepted (v : VenueOrderId) (ts : UnixNanos) (id : ClientOrderId) :
    (o.applied (.accepted v ts)).status.phase = o.status.phase.next (.accepted id v) := by
  rcases o.apply_exec (.accepted v ts) with ⟨o', hexec, p, hmem, heff, hp⟩ | ⟨e, hexec, hno⟩
  · rw [applied, hexec, hp, List.mem_singleton.mp hmem]
    cases heff
    rfl
  · have hne : o.status ≠ .submitted := fun hs ↦
      hno _ ⟨_, List.mem_singleton.mpr hs, rfl, rfl⟩
    rw [applied, hexec]
    cases hs : o.status <;> first
      | rfl
      | exact absurd hs hne

theorem phase_applied_canceled (ts : UnixNanos) (id : ClientOrderId) :
    (o.applied (.canceled ts)).status.phase = o.status.phase.next (.canceled id) := by
  rcases o.apply_exec (.canceled ts) with ⟨o', hexec, p, hmem, heff, hp⟩ | ⟨e, hexec, hno⟩
  · rw [applied, hexec, hp]
    cases heff
    simp only [OrderEvent.allowedFrom, List.mem_cons, List.not_mem_nil, or_false] at hmem
    rcases hmem with hs | hs | hs <;> rw [hs] <;> rfl
  · have hno' : o.status ∉ [OrderStatus.accepted, .partiallyFilled, .pendingCancel] := fun hs ↦
      hno _ ⟨_, hs, rfl, rfl⟩
    rw [applied, hexec]
    cases hs : o.status <;> first
      | rfl
      | exact absurd (by simp [hs]) hno'

end Order

/-! ## What happens to a slice -/

namespace TrackedInv

variable {insts : Map InstrumentId Instrument} {bound bound' : ℕ} {sl sl' : Slice} {o o' : Order}
  {ev : OrderEvent} {id : ClientOrderId}

/-- Time passes and reports are drained: the sequence of reports stays as it is. -/
theorem of_word (h : TrackedInv insts bound id sl o) (hbound : bound ≤ bound')
    (hword : sl'.word = sl.word) (hresting : sl'.resting = sl.resting)
    (hqueued : ∀ e ∈ sl'.queued, e ∈ sl.queued) : TrackedInv insts bound' id sl' o := by
  have hfills : sl'.fills = sl.fills := by rw [Slice.fills, hword, Slice.fills]
  refine ⟨h.sound, ?_, ?_, ?_, ?_, ?_, ?_⟩
  · rw [hfills]
    exact h.fills
  · rw [hresting]
    exact h.resting
  · rw [hresting]
    exact h.one
  · rw [Slice.fillsRaw, hfills, ← Slice.fillsRaw, Slice.restingRaw, hresting, ← Slice.restingRaw]
    exact h.budget
  · rw [hword]
    exact h.folds
  · rw [hword, hresting]
    intro r hr hpos
    obtain ⟨hlive, hdue⟩ := h.ready r hr hpos
    exact ⟨hlive, fun e he ↦ (hdue e (hqueued e he)).trans hbound⟩

/-- The next report is folded, and it is no fill. -/
theorem deliver (h : TrackedInv insts bound id sl o) {r : ExecutionReport}
    {rest : List ExecutionReport} (hp : sl.pending = r :: rest) (hfill : r.fill? = none)
    (hsame : SameBalance o o') (hphase : o'.status.phase = o.status.phase.next r) :
    TrackedInv insts bound id { sl with pending := rest } o' := by
  have hword : sl.word = r :: (rest ++ sl.queued.map Timed.item) := by
    rw [Slice.word, hp, List.cons_append]
  have hfills : sl.fills = Slice.fills { sl with pending := rest } := by
    rw [Slice.fills, hword, List.filterMap_cons_none hfill]
    rfl
  refine ⟨h.sound.of_same hsame, ?_, ?_, h.one, ?_, ?_, ?_⟩
  · rw [← hfills, hsame.instrumentId, hsame.quantity]
    exact h.fills
  · rw [hsame.instrumentId, hsame.quantity]
    exact h.resting
  · rw [hsame.filledQty, hsame.quantity, Slice.fillsRaw, ← hfills]
    exact h.budget
  · have hfolds := h.folds
    rw [hword] at hfolds
    rw [hphase]
    exact hfolds.2.2
  · intro q hq hpos
    obtain ⟨hlive, hdue⟩ := h.ready q hq hpos
    rw [hword, Phase.after_cons] at hlive
    exact ⟨by rw [hphase]; exact hlive, hdue⟩

/-- No fill is in flight or will be: any reports will do. -/
theorem of_no_fill (h : TrackedInv insts bound id sl o) (hsame : SameBalance o o')
    (hword : ∀ r ∈ sl'.word, r.IsSim ∧ r.fill? = none) (hresting : sl'.resting = []) :
    TrackedInv insts bound id sl' o' := by
  have hfills : sl'.fills = [] := List.filterMap_eq_nil_iff.mpr fun r hr ↦ (hword r hr).2
  have hle := h.budget
  refine ⟨h.sound.of_same hsame, ?_, ?_, ?_, ?_, ?_, ?_⟩
  · rw [hfills]
    exact fun f hf ↦ absurd hf List.not_mem_nil
  · rw [hresting]
    exact fun r hr ↦ absurd hr List.not_mem_nil
  · rw [hresting]
    exact Nat.zero_le _
  · rw [Slice.fillsRaw, hfills, Slice.restingRaw, hresting, hsame.filledQty, hsame.quantity]
    simp only [List.map_nil, List.sum_nil]
    omega
  · exact folds_of_no_fill (fun r hr ↦ (hword r hr).1) fun r hr ↦ (hword r hr).2
  · rw [hresting]
    exact fun r hr ↦ absurd hr List.not_mem_nil

/-- A cancellation is queued for an order that is not acknowledged yet. No fill is missed if the
cancellation comes after all fills, or before the acknowledgement, when the order ignores it. -/
theorem cancel_fresh (h : TrackedInv insts bound id sl o) (hstatus : o.status = .submitted)
    {q₁ q₂ : List (Timed ExecutionReport)} {e : Timed ExecutionReport}
    (he : e.item = .canceled id) (hqueued : sl.queued = q₁ ++ q₂)
    (hplace : (∀ e ∈ q₂, e.item.fill? = none) ∨
      ∀ r ∈ sl.pending ++ q₁.map Timed.item, r.isAccepted = false) :
    TrackedInv insts bound id { sl with queued := q₁ ++ e :: q₂, resting := [] } o := by
  have hword : sl.word = (sl.pending ++ q₁.map Timed.item) ++ q₂.map Timed.item := by
    rw [Slice.word, hqueued, List.map_append, List.append_assoc]
  have hword' : Slice.word { sl with queued := q₁ ++ e :: q₂, resting := [] }
      = (sl.pending ++ q₁.map Timed.item) ++ .canceled id :: q₂.map Timed.item := by
    rw [Slice.word, List.map_append, List.map_cons, he, List.append_assoc]
  have hfills : Slice.fills { sl with queued := q₁ ++ e :: q₂, resting := [] } = sl.fills := by
    simp only [Slice.fills, hword', hword, List.filterMap_append,
      List.filterMap_cons_none (show (ExecutionReport.canceled id).fill? = none from rfl)]
  have hle := h.budget
  refine ⟨h.sound, ?_, fun r hr ↦ absurd hr List.not_mem_nil, Nat.zero_le _, ?_, ?_,
    fun r hr ↦ absurd hr List.not_mem_nil⟩
  · rw [hfills]
    exact h.fills
  · rw [Slice.fillsRaw, hfills, ← Slice.fillsRaw, Slice.restingRaw, List.map_nil, List.sum_nil]
    omega
  · have hfolds := h.folds
    rw [hword, folds_append] at hfolds
    rw [hword', folds_append]
    refine ⟨hfolds.1, trivial, fun hs ↦ (by cases hs), ?_⟩
    rcases hplace with hlast | hearly
    · refine folds_of_no_fill hfolds.2.isSim fun r hr ↦ ?_
      obtain ⟨e', he', rfl⟩ := List.mem_map.mp hr
      exact hlast e' he'
    · rw [hstatus] at hfolds ⊢
      have hfresh := Phase.after_fresh hearly
      rw [OrderStatus.phase, hfresh] at hfolds ⊢
      exact hfolds.2

section Venue

open SimulatedExecutionClient

variable {r : Resting} {kept : List Resting} {q : ℕ}

theorem sum_remaining_le (hlen : kept.length ≤ 1) (hkept : ∀ r' ∈ kept, Continues r q r') :
    (kept.map fun r ↦ r.remaining.raw).sum ≤ r.remaining.raw - q := by
  rcases kept with _ | ⟨r', _ | ⟨r'', l⟩⟩
  · exact Nat.zero_le _
  · rw [List.map_singleton, List.sum_singleton]
    exact (hkept r' List.mem_cons_self).raw_le
  · simp at hlen

theorem keep (h : TrackedInv insts bound id sl o) (hr : sl.resting = [r]) (hlen : kept.length ≤ 1)
    (hkept : ∀ r' ∈ kept, Continues r 0 r') :
    TrackedInv insts bound id { sl with resting := kept } o := by
  have hmem : r ∈ sl.resting := hr ▸ List.mem_cons_self
  have hsum := sum_remaining_le hlen hkept
  have hbudget := h.budget
  rw [Slice.restingRaw, hr, List.map_singleton, List.sum_singleton] at hbudget
  refine ⟨h.sound, h.fills, ?_, hlen, ?_, h.folds, ?_⟩
  · intro r' hr'
    obtain ⟨hinst, hprec⟩ := h.resting r hmem
    exact ⟨(hkept r' hr').instrumentId.trans hinst, (hkept r' hr').precision.trans hprec⟩
  · change o.filledQty.raw + sl.fillsRaw + (kept.map fun r ↦ r.remaining.raw).sum ≤ _
    omega
  · intro r' hr' hpos
    have hle := (hkept r' hr').raw_le
    exact h.ready r hmem (by omega)

/-- The venue schedules a fill of the resting order, behind all its reports. -/
theorem schedule (h : TrackedInv insts bound id sl o) (hr : sl.resting = [r])
    (hlen : kept.length ≤ 1) {f : Fill} {e : Timed ExecutionReport} (he : e.item = .fill f)
    (hdue : e.due ≤ bound) (hid : f.clientOrderId = id)
    (hinst : f.instrumentId = r.order.instrumentId)
    (hpos : 0 < f.lastQty.raw) (hwithin : Within r f.lastQty)
    (hkept : ∀ r' ∈ kept, Continues r f.lastQty.raw r') :
    TrackedInv insts bound id { sl with queued := sl.queued ++ [e], resting := kept } o := by
  have hmem : r ∈ sl.resting := hr ▸ List.mem_cons_self
  obtain ⟨hrinst, hrprec⟩ := h.resting r hmem
  obtain ⟨hlive, hdues⟩ := h.ready r hmem (hpos.trans_le hwithin.2)
  set sl' : Slice := { sl with queued := sl.queued ++ [e], resting := kept }
  have hword : sl'.word = sl.word ++ [.fill f] := by
    rw [Slice.word, Slice.word, List.append_assoc, List.map_append, List.map_singleton, he]
  have hfills : sl'.fills = sl.fills ++ [f] := by
    rw [Slice.fills, hword, List.filterMap_append]
    rfl
  refine ⟨h.sound, ?_, ?_, hlen, ?_, ?_, ?_⟩
  · intro g hg
    rw [hfills, List.mem_append, List.mem_singleton] at hg
    rcases hg with hg | rfl
    · exact h.fills g hg
    · exact ⟨hid, hinst.trans hrinst, hwithin.1.trans hrprec, hpos⟩
  · intro r' hr'
    exact ⟨(hkept r' hr').instrumentId.trans hrinst, (hkept r' hr').precision.trans hrprec⟩
  · have hsum := sum_remaining_le hlen hkept
    have hbudget := h.budget
    have hle := hwithin.2
    rw [Slice.restingRaw, hr, List.map_singleton, List.sum_singleton] at hbudget
    have hraw : sl'.fillsRaw = sl.fillsRaw + f.lastQty.raw := by
      rw [Slice.fillsRaw, hfills, List.map_append, List.sum_append]
      simp [Slice.fillsRaw]
    change o.filledQty.raw + sl'.fillsRaw + (kept.map fun r ↦ r.remaining.raw).sum ≤ _
    omega
  · rw [hword, folds_append, hlive]
    exact ⟨h.folds, trivial, fun _ ↦ rfl, trivial⟩
  · intro r' hr' _
    rw [hword, Phase.after_append, hlive]
    refine ⟨rfl, fun e' he' ↦ ?_⟩
    rcases List.mem_append.mp he' with he' | he'
    · exact hdues e' he'
    · rw [List.mem_singleton.mp he']
      exact hdue

theorem idle (hsound : o.Sound insts id) (hfilled : o.filledQty.raw = 0)
    (hpending : sl.pending = [])
    (hqueued : sl.queued = []) (hresting : sl.resting = []) : TrackedInv insts bound id sl o := by
  have hword : sl.word = [] := by rw [Slice.word, hpending, hqueued]; rfl
  have hfills : sl.fills = [] := by rw [Slice.fills, hword]; rfl
  refine ⟨hsound, ?_, ?_, ?_, ?_, ?_, ?_⟩
  · rw [hfills]
    exact fun f hf ↦ absurd hf List.not_mem_nil
  · rw [hresting]
    exact fun r hr ↦ absurd hr List.not_mem_nil
  · rw [hresting]
    exact Nat.zero_le _
  · simp [Slice.fillsRaw, Slice.restingRaw, hfills, hresting, hfilled]
  · rw [hword]
    exact trivial
  · rw [hresting]
    exact fun r hr ↦ absurd hr List.not_mem_nil

/-- An order that has just been routed: its acknowledgement is queued, and it rests in full. -/
theorem placed (hsound : o.Sound insts id) (hfilled : o.filledQty.raw = 0)
    (hstatus : o.status = .submitted) {e : Timed ExecutionReport} {v : VenueOrderId}
    (he : e.item = .accepted id v) (hdue : e.due ≤ bound)
    (hinst : r.order.instrumentId = o.instrumentId) (hremaining : r.remaining = o.quantity)
    (hpending : sl.pending = []) (hqueued : sl.queued = [e]) (hresting : sl.resting = [r]) :
    TrackedInv insts bound id sl o := by
  have hword : sl.word = [.accepted id v] := by
    rw [Slice.word, hpending, hqueued, List.map_singleton, he]
    rfl
  have hfills : sl.fills = [] := by rw [Slice.fills, hword]; rfl
  refine ⟨hsound, ?_, ?_, ?_, ?_, ?_, ?_⟩
  · rw [hfills]
    exact fun f hf ↦ absurd hf List.not_mem_nil
  · rw [hresting]
    intro r' hr'
    rw [List.mem_singleton.mp hr']
    exact ⟨hinst, by rw [hremaining]⟩
  · rw [hresting]
    exact le_rfl
  · simp [Slice.fillsRaw, Slice.restingRaw, hfills, hresting, hfilled, hremaining]
  · rw [hword]
    exact ⟨trivial, fun h ↦ (by cases h), trivial⟩
  · intro _ _ _
    rw [hword, hstatus, hqueued]
    refine ⟨rfl, fun e' he' ↦ ?_⟩
    rw [List.mem_singleton.mp he']
    exact hdue

end Venue

section Fill

variable [DecimalWidth] {f : Fill} {rest : List ExecutionReport}

open ExecutionEngine

omit [DecimalWidth] in
theorem fills_cons (hp : sl.pending = .fill f :: rest) :
    sl.fills = f :: Slice.fills { sl with pending := rest } := by
  rw [Slice.fills, Slice.word, hp]
  rfl

omit [DecimalWidth] in
/-- The next report is a fill: the order is live, and the fill is within what is left. -/
theorem next_fill (h : TrackedInv insts bound id sl o) (hp : sl.pending = .fill f :: rest) :
    o.status.phase = .live ∧ f.clientOrderId = id ∧ f.instrumentId = o.instrumentId ∧
      f.lastQty.precision = o.quantity.precision ∧
      o.filledQty.raw + f.lastQty.raw + Slice.fillsRaw { sl with pending := rest }
        + sl.restingRaw ≤ o.quantity.raw := by
  have hfolds := h.folds
  rw [Slice.word, hp, List.cons_append] at hfolds
  have hfills := fills_cons hp
  obtain ⟨hid, hinst, hprec, -⟩ := h.fills f (by rw [hfills]; exact List.mem_cons_self)
  refine ⟨hfolds.2.1 rfl, hid, hinst, hprec, ?_⟩
  have hbudget := h.budget
  rw [Slice.fillsRaw, hfills, List.map_cons, List.sum_cons] at hbudget
  rw [Slice.fillsRaw]
  omega

/-- The filled quantity after the fill. -/
def newFilled (o : Order) (f : Fill) : Quantity :=
  ⟨o.filledQty.raw + f.lastQty.raw, o.filledQty.precision⟩

/-- **The order takes the fill**, if the average price can be represented. -/
theorem accepts_fill (h : TrackedInv insts bound id sl o) (hp : sl.pending = .fill f :: rest)
    (havg : ∃ px, Price.fromDecimal (o.fillAverage f (newFilled o f)) f.lastPx.precision = .ok px) :
    ∃ o', o.Accepts (fillEvent o f) o' := by
  obtain ⟨hlive, -, -, hprec, hle⟩ := h.next_fill hp
  obtain ⟨px, hpx⟩ := havg
  have hprecision : o.filledQty.precision = o.quantity.precision := by
    rw [h.sound.filled.filledQty_eq]
  have hadd : o.filledQty.checkedAdd f.lastQty = .ok (newFilled o f) := by
    refine Quantity.checkedAdd_eq_ok_iff.mpr ⟨hprecision.trans hprec.symm, ?_, ?_, rfl⟩
    · have := h.sound.range
      omega
    · rw [hprecision]
      exact h.sound.precision_le
  have hmem : o.status ∈ (fillEvent o f).allowedFrom := by
    rw [allowedFrom_fillEvent]
    cases hs : o.status <;> rw [hs] at hlive <;> first
      | (cases hlive; done)
      | decide
  obtain ⟨p, heffect⟩ : ∃ p, o.fillEffect f = .ok p :=
    ⟨_, Order.fillEffect_eq_ok_iff.mpr ⟨newFilled o f, px, hadd, hpx, rfl⟩⟩
  exact ⟨_, p, hmem, by rw [effect_fillEvent, heffect], rfl⟩

theorem deliver_fill (h : TrackedInv insts bound id sl o) (hp : sl.pending = .fill f :: rest)
    (hev : ev.fill? = some f) (hacc : o.Accepts ev o') :
    TrackedInv insts bound id { sl with pending := rest } o' := by
  obtain ⟨hlive, hid, hinst, -, hle⟩ := h.next_fill hp
  obtain ⟨hsound, hterms, hqty, hraw, hstatus⟩ := h.sound.of_fill hacc hev ⟨hid, hinst⟩
  set sl' : Slice := { sl with pending := rest }
  have hbudget : o'.filledQty.raw + sl'.fillsRaw + sl'.restingRaw ≤ o'.quantity.raw := by
    rw [hraw, hqty]
    exact hle
  have hfills : ∀ g ∈ sl'.fills, g.clientOrderId = id ∧ g.instrumentId = o'.instrumentId ∧
      g.lastQty.precision = o'.quantity.precision ∧ 0 < g.lastQty.raw := by
    rw [hterms, hqty]
    exact fun g hg ↦ h.fills g (fills_cons hp ▸ List.mem_cons_of_mem f hg)
  have hfolds := h.folds
  rw [Slice.word, hp, List.cons_append] at hfolds
  have htail := hfolds.2.2
  have hnext : o.status.phase.next (.fill f) = .live := by rw [hlive]; rfl
  refine ⟨hsound, hfills, ?_, h.one, hbudget, ?_, ?_⟩
  · rw [hterms, hqty]
    exact h.resting
  · -- a fill that completes the order leaves no room for another one
    by_cases hfull : o'.quantity.raw ≤ o'.filledQty.raw
    · have hnone : sl'.fills = [] := by
        refine List.eq_nil_iff_forall_not_mem.mpr fun g hg ↦ ?_
        have hpos := (hfills g hg).2.2.2
        have hgle : g.lastQty.raw ≤ sl'.fillsRaw :=
          List.single_le_sum (fun _ _ ↦ Nat.zero_le _) _ (List.mem_map_of_mem hg)
        omega
      exact folds_of_no_fill htail.isSim (List.filterMap_eq_nil_iff.mp hnone)
    · rw [hstatus, if_neg hfull]
      rw [hnext] at htail
      exact htail
  · intro r hr hpos
    obtain ⟨hafter, hdue⟩ := h.ready r hr hpos
    rw [Slice.word, hp, List.cons_append, Phase.after_cons, hnext] at hafter
    have hrle : r.remaining.raw ≤ sl'.restingRaw :=
      List.single_le_sum (fun _ _ ↦ Nat.zero_le _) _ (List.mem_map_of_mem hr)
    rw [hstatus, if_neg (by omega)]
    exact ⟨hafter, hdue⟩

end Fill

end TrackedInv

end Coinext
