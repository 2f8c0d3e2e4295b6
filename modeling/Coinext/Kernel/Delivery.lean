import Coinext.Engine.Ledger
import Coinext.Kernel.Replay

/-!
# The delivery of reports

The venue schedules its reports in a delayed queue; the loop drains the queue at its frontier and
folds what it drained. A `History` is a run of the core with a record of this: every entry that was
scheduled, those that are drained and wait, and those that were folded, each with the time on the
clock.

An operation is timely when it moves the clock only past nothing, and drains only what the clock has
come to. Along a run of timely operations an entry is in one place at a time, and reports are folded
at the time they are due, in the order of their due times and then of their scheduling
(`History.Inv.step`, `History.Inv.delivered`).
-/

namespace Coinext

open SimulatedExecutionClient

/-! ## What the venue schedules -/

section Schedule

theorem le_saturatingAddNs {now : UnixNanos} (h : now ≤ u64Max) (ns : ℕ) :
    now ≤ saturatingAddNs now ns := le_min (Nat.le_add_right now ns) h

theorem saturatingAddNs_le (now : UnixNanos) (ns : ℕ) : saturatingAddNs now ns ≤ u64Max :=
  min_le_right _ _

variable {model : BrokerageModel} {now : UnixNanos} {s : SimState}

theorem DueQueue.Extends.schedule {q q' : DueQueue ExecutionReport}
    (h : q.Extends now u64Max q') (hnow : now ≤ u64Max) (ns : ℕ) (r : ExecutionReport) :
    q.Extends now u64Max (q'.push (saturatingAddNs now ns) r) :=
  h.push r (le_saturatingAddNs hnow ns) (saturatingAddNs_le now ns)

theorem extends_onSubmit (cache : Cache) (hnow : now ≤ u64Max) (order : Order) :
    s.queue.Extends now u64Max (onSubmit model cache now order s).queue := by
  unfold onSubmit
  split
  · exact .refl
  · exact DueQueue.Extends.refl.schedule hnow _ _

theorem extends_onCancel (hnow : now ≤ u64Max) (id : ClientOrderId) :
    s.queue.Extends now u64Max (onCancel model now id s).queue := by
  unfold onCancel
  split
  · exact DueQueue.Extends.refl.schedule hnow _ _
  · exact .refl

variable [DecimalWidth]

theorem extends_matchOne (hnow : now ≤ u64Max) (inst : Instrument) (tape : Tape)
    (id : InstrumentId) (r : Resting) {q : DueQueue ExecutionReport}
    (h : q.Extends now u64Max s.queue) :
    q.Extends now u64Max (matchOne model now inst tape id s r).queue := by
  unfold matchOne
  split
  · exact h
  · cases hdecision : (verdict model inst tape r).decision with
    | none => simpa only [hdecision] using h
    | some d =>
      have hscheduled : q.Extends now u64Max (schedule model now inst r d s).queue := by
        unfold schedule
        split
        · exact h.schedule hnow _ _
        · exact h
      simp only [hdecision]
      split
      · exact hscheduled
      · exact hscheduled

theorem extends_onMarket (cache : Cache) (hnow : now ≤ u64Max) (ev : MarketEvent) :
    s.queue.Extends now u64Max (onMarket model cache now ev s).queue := by
  unfold onMarket
  split
  · refine foldl_induction (I := fun s' ↦ s.queue.Extends now u64Max (SimState.queue s'))
      (fun s' r h ↦ extends_matchOne hnow _ _ _ r h) ?_ s.resting
    have hremember : (rememberBar ev s).queue = s.queue := by
      cases ev <;> rfl
    exact hremember ▸ .refl
  · exact .refl

end Schedule

/-! ## What an operation does to the queue -/

section Ops

variable [DecimalWidth] (model : BrokerageModel)

/-- An operation that neither moves the clock nor drains nor folds. -/
def CoreOp.IsPlain : CoreOp → Prop
  | .advance _ | .drain _ | .applyNext => False
  | _ => True

omit [DecimalWidth] in
theorem CoreOp.IsQuiet.isPlain {op : CoreOp} (h : op.IsQuiet) : op.IsPlain := by
  cases op <;> first | exact h | exact trivial

/-- **Plain operations.** The clock stays, what is drained stays, and the queue grows by reports
that are due no earlier than now. -/
theorem Core.step_of_isPlain {op : CoreOp} (hop : op.IsPlain) (c : Core) :
    (c.step model op).pending = c.pending ∧ (c.step model op).clock.now = c.clock.now
      ∧ (c.clock.now ≤ u64Max → c.oms.sim.queue.Extends c.clock.now u64Max
        (c.step model op).oms.sim.queue) := by
  cases op with
  | advance | drain | applyNext => exact absurd hop id
  | submit risk portfolio order now =>
    refine ⟨rfl, rfl, fun hnow ↦ ?_⟩
    change c.oms.sim.queue.Extends _ _ (ExecutionEngine.submit ..).2.sim.queue
    obtain heq | ⟨ev, s', heq, -, -, -, -, ⟨reason, -, hsim⟩ | ⟨-, hsim⟩⟩ :=
      ExecutionEngine.submit_cases risk portfolio model c.clock.now order now c.oms
    · rw [heq]
      exact .refl
    · rw [heq, hsim]
      exact .refl
    · rw [heq, hsim]
      exact extends_onSubmit _ hnow _
  | cancel id now =>
    refine ⟨rfl, rfl, fun hnow ↦ ?_⟩
    have hsim := ExecutionEngine.sim_applyToOrder id (.pendingCancel now) c.oms
    change c.oms.sim.queue.Extends _ _ (onCancel model c.clock.now id
      (ExecutionEngine.applyToOrder id (.pendingCancel now) c.oms).2.sim).queue
    rw [hsim]
    exact extends_onCancel hnow id
  | process ev => exact ⟨rfl, rfl, fun _ ↦ .refl⟩
  | onMarket ev => exact ⟨rfl, rfl, fun hnow ↦ extends_onMarket _ hnow ev⟩
  | closeAt iid px now tagSuffix =>
    have hsame : (c.step model (.closeAt iid px now tagSuffix)).pending = c.pending
        ∧ (c.step model (.closeAt iid px now tagSuffix)).clock = c.clock
        ∧ (c.step model (.closeAt iid px now tagSuffix)).oms.sim = c.oms.sim := by
      cases hclosing : c.oms.closing iid px now tagSuffix with
      | none => simp [Core.step, Core.exec, hclosing]
      | some x => simp [Core.step, Core.exec, hclosing]
    rw [hsame.1, hsame.2.1, hsame.2.2]
    exact ⟨rfl, rfl, fun _ ↦ .refl⟩
  | setTimer name ts => exact ⟨rfl, rfl, fun _ ↦ .refl⟩
  | cancelTimer id => exact ⟨rfl, rfl, fun _ ↦ .refl⟩
  | popDue frontier => exact ⟨rfl, HistoricalClock.now_popDue _ _, fun _ ↦ .refl⟩

/-- Folding takes the first drained report, and leaves the clock and the venue alone. -/
theorem Core.step_applyNext (c : Core) :
    (c.step model .applyNext).pending = c.pending.tail
      ∧ (c.step model .applyNext).clock = c.clock
      ∧ (c.step model .applyNext).oms.sim = c.oms.sim := by
  cases hpending : c.pending with
  | nil => simp [Core.step, Core.exec, hpending]
  | cons r rest => simp [Core.step, Core.exec, hpending, ExecutionEngine.sim_applyReport]

theorem Core.now_le_step (c : Core) (op : CoreOp) :
    c.clock.now ≤ (c.step model op).clock.now := by
  by_cases hop : op.IsPlain
  · exact (Core.step_of_isPlain model hop c).2.1.ge
  · cases op with
    | advance ts => exact HistoricalClock.now_le_advanceTo _ _
    | drain frontier => exact le_rfl
    | applyNext => exact (congrArg HistoricalClock.now (Core.step_applyNext model c).2.1).ge
    | _ => exact absurd trivial hop

end Ops

/-! ## Histories -/

/-- A run of the core, with what has become of the entries of the venue's queue. -/
structure History where
  core : Core
  /-- Drained and not folded yet. -/
  waiting : List (Timed ExecutionReport)
  /-- Folded, with the time on the clock. -/
  delivered : List (Timed ExecutionReport × UnixNanos)
  /-- Everything that was ever scheduled. -/
  scheduled : List (Timed ExecutionReport)

namespace History

variable [DecimalWidth] (model : BrokerageModel)

/-- Nothing has happened. -/
def start (c : Core) : History := ⟨c, [], [], []⟩

abbrev queue (h : History) : DueQueue ExecutionReport := h.core.oms.sim.queue

abbrev now (h : History) : UnixNanos := h.core.clock.now

def step (h : History) (op : CoreOp) : History where
  core := h.core.step model op
  waiting := match op with
    | .drain frontier => h.waiting ++ h.queue.due frontier
    | .applyNext => h.waiting.tail
    | _ => h.waiting
  delivered := match op with
    | .applyNext => h.delivered ++ h.waiting.head?.toList.map fun e ↦ (e, h.now)
    | _ => h.delivered
  scheduled := h.scheduled ++ h.queue.news (h.core.step model op).oms.sim.queue

/-- Every scheduled entry is in one place: folded, drained or in the queue. It is folded when the
clock shows the time it is due at, and entries are folded in the order in which they are popped. -/
structure Delivered (h : History) : Prop where
  /-- The drained reports are those of the core. -/
  pending : h.waiting.map Timed.item = h.core.pending
  once : (h.delivered.map Prod.fst ++ h.waiting ++ h.queue.entries).Perm h.scheduled
  distinct : (h.scheduled.map Timed.seq).Nodup
  onTime : ∀ x ∈ h.delivered, x.2 = x.1.due
  sorted : (h.delivered.map Prod.fst).Pairwise Timed.Before

omit [DecimalWidth] in
theorem Delivered.nodup {h : History} (hd : h.Delivered) :
    ((h.delivered.map Prod.fst).map Timed.seq).Nodup := by
  have hall := ((hd.once.map Timed.seq).nodup_iff).mpr hd.distinct
  rw [List.append_assoc, List.map_append] at hall
  exact hall.of_append_left

/-! ## The invariant -/

/-- Where the entries are, and when they are due. -/
structure Inv (h : History) : Prop where
  pending : h.waiting.map Timed.item = h.core.pending
  once : (h.delivered.map Prod.fst ++ h.waiting ++ h.queue.entries).Perm h.scheduled
  distinct : (h.scheduled.map Timed.seq).Nodup
  onTime : ∀ x ∈ h.delivered, x.2 = x.1.due
  order : (h.delivered.map Prod.fst ++ h.waiting ++ h.queue.entries).Pairwise Timed.Before
  numbered : ∀ e ∈ h.scheduled, e.seq ≤ h.queue.seq
  past : ∀ e ∈ h.delivered.map Prod.fst, e.due ≤ h.now
  present : ∀ e ∈ h.waiting, e.due = h.now
  ahead : ∀ e ∈ h.queue.entries, h.now ≤ e.due ∧ e.due ≤ u64Max
  now_le : h.now ≤ u64Max

/-- The operation does not move the clock past a report, and drains only what the clock has come
to. -/
def Timely (c : Core) : CoreOp → Prop
  | .advance ts => ts ≤ u64Max ∧ c.pending = [] ∧ ∀ e ∈ c.oms.sim.queue.entries, ts ≤ e.due
  | .drain frontier => frontier ≤ c.clock.now
  | _ => True

variable {model} {h : History}

omit [DecimalWidth] in
theorem Inv.delivered (hinv : h.Inv) : h.Delivered where
  pending := hinv.pending
  once := hinv.once
  distinct := hinv.distinct
  onTime := hinv.onTime
  sorted := by
    have horder := hinv.order
    rw [List.append_assoc] at horder
    exact (List.pairwise_append.mp horder).1

theorem Inv.plain (hinv : h.Inv) {op : CoreOp} (hop : op.IsPlain) : (h.step model op).Inv := by
  obtain ⟨hpending, hnow, hextends⟩ := Core.step_of_isPlain model hop h.core
  obtain ⟨hseq, hperm, hrange, hnodup⟩ := (hextends hinv.now_le).spec
  have hwaiting : (h.step model op).waiting = h.waiting := by
    cases op <;> first | rfl | exact absurd hop id
  have hdelivered : (h.step model op).delivered = h.delivered := by
    cases op <;> first | rfl | exact absurd hop id
  have hnew : ∀ e ∈ h.queue.news (h.step model op).queue, h.queue.seq < e.seq := by
    intro e he
    simpa using (List.mem_filter.mp he).2
  have honce : (h.delivered.map Prod.fst ++ h.waiting ++ (h.step model op).queue.entries).Perm
      (h.step model op).scheduled := by
    have hsplit := hperm.append_left (h.delivered.map Prod.fst ++ h.waiting)
    rw [← List.append_assoc] at hsplit
    exact hsplit.trans (hinv.once.append_right _)
  refine ⟨?_, ?_, ?_, ?_, ?_, ?_, ?_, ?_, ?_, ?_⟩
  · rw [hwaiting, hinv.pending]
    exact hpending.symm
  · rw [hwaiting, hdelivered]
    exact honce
  · change ((h.scheduled ++ h.queue.news (h.step model op).queue).map Timed.seq).Nodup
    rw [List.map_append, List.nodup_append]
    refine ⟨hinv.distinct, hnodup, ?_⟩
    rintro a ha b hb rfl
    obtain ⟨e, he, rfl⟩ := List.mem_map.mp ha
    obtain ⟨e', he', heq⟩ := List.mem_map.mp hb
    have hold := hinv.numbered e he
    have hlt := hnew e' he'
    omega
  · rw [hdelivered]
    exact hinv.onTime
  · have horder := List.pairwise_append.mp hinv.order
    rw [hwaiting, hdelivered]
    refine List.pairwise_append.mpr ⟨horder.1, (h.step model op).queue.sorted, ?_⟩
    intro a ha e he
    rcases List.mem_append.mp (hperm.subset he) with hold | hfresh
    · exact horder.2.2 a ha e hold
    · -- folded and drained entries are due by now, and have lower numbers
      have hdue : a.due ≤ h.now := (List.mem_append.mp ha).elim (hinv.past a)
        fun hw ↦ (hinv.present a hw).le
      have hnumber := hinv.numbered a (hinv.once.subset (List.mem_append_left _ ha))
      have hlate : a.due ≤ e.due := hdue.trans (hrange e hfresh).1
      have hlt := hnew e hfresh
      unfold Timed.Before
      omega
  · intro e he
    rcases List.mem_append.mp he with hold | hfresh
    · exact (hinv.numbered e hold).trans hseq
    · exact (h.step model op).queue.seq_le e (List.mem_of_mem_filter hfresh)
  · rw [hdelivered, show (h.step model op).now = h.now from hnow]
    exact hinv.past
  · rw [hwaiting, show (h.step model op).now = h.now from hnow]
    exact hinv.present
  · rw [show (h.step model op).now = h.now from hnow]
    intro e he
    exact (List.mem_append.mp (hperm.subset he)).elim (hinv.ahead e) (hrange e)
  · rw [show (h.step model op).now = h.now from hnow]
    exact hinv.now_le

theorem Inv.advance (hinv : h.Inv) {ts : UnixNanos} (htimely : Timely h.core (.advance ts)) :
    (h.step model (.advance ts)).Inv := by
  obtain ⟨hmax, hpending, hle⟩ := htimely
  have hmono : h.now ≤ (h.step model (.advance ts)).now := HistoricalClock.now_le_advanceTo _ _
  have hcase : (h.step model (.advance ts)).now = ts
      ∨ (h.step model (.advance ts)).now = h.now := by
    change (h.core.clock.advanceTo ts).now = ts ∨ (h.core.clock.advanceTo ts).now = h.now
    unfold HistoricalClock.advanceTo
    split_ifs
    · exact .inl rfl
    · exact .inr rfl
  have hnone : h.waiting = [] := by
    have hmap := hinv.pending
    rwa [hpending, List.map_eq_nil_iff] at hmap
  have hnews : (h.step model (.advance ts)).scheduled = h.scheduled := by
    change h.scheduled ++ h.queue.news h.queue = h.scheduled
    rw [DueQueue.news_self, List.append_nil]
  refine ⟨hinv.pending, ?_, ?_, hinv.onTime, hinv.order, ?_, ?_, ?_, ?_, ?_⟩
  · exact hnews ▸ hinv.once
  · exact hnews ▸ hinv.distinct
  · exact hnews ▸ hinv.numbered
  · exact fun e he ↦ (hinv.past e he).trans hmono
  · rw [show (h.step model (.advance ts)).waiting = [] from hnone]
    exact fun e he ↦ absurd he List.not_mem_nil
  · intro e he
    refine ⟨?_, (hinv.ahead e he).2⟩
    rcases hcase with heq | heq
    · exact heq.trans_le (hle e he)
    · exact heq.trans_le (hinv.ahead e he).1
  · rcases hcase with heq | heq
    · exact heq.trans_le hmax
    · exact heq.trans_le hinv.now_le

theorem Inv.drain (hinv : h.Inv) {frontier : UnixNanos}
    (htimely : Timely h.core (.drain frontier)) : (h.step model (.drain frontier)).Inv := by
  have hsplit := h.queue.entries_eq_append frontier
  have hlist : h.delivered.map Prod.fst ++ (h.waiting ++ h.queue.due frontier)
      ++ (h.queue.rest frontier).entries
      = h.delivered.map Prod.fst ++ h.waiting ++ h.queue.entries := by
    rw [hsplit]
    simp only [List.append_assoc]
  have hnews : (h.step model (.drain frontier)).scheduled = h.scheduled := by
    change h.scheduled ++ h.queue.news (h.queue.rest frontier) = h.scheduled
    have hnone : h.queue.news (h.queue.rest frontier) = [] := by
      rw [DueQueue.news, List.filter_eq_nil_iff]
      intro e he
      have hle : e.seq ≤ h.queue.seq := (h.queue.rest frontier).seq_le e he
      rw [decide_eq_true_eq, not_lt]
      exact hle
    rw [hnone, List.append_nil]
  refine ⟨?_, ?_, ?_, hinv.onTime, ?_, ?_, hinv.past, ?_, ?_, hinv.now_le⟩
  · change (h.waiting ++ h.queue.due frontier).map Timed.item
      = h.core.pending ++ (h.queue.due frontier).map Timed.item
    rw [List.map_append, hinv.pending]
  · rw [hnews]
    exact hlist ▸ hinv.once
  · exact hnews ▸ hinv.distinct
  · exact hlist ▸ hinv.order
  · exact hnews ▸ hinv.numbered
  · intro e he
    rcases List.mem_append.mp he with hold | hdue
    · exact hinv.present e hold
    · have hle := DueQueue.due_le_of_mem_due hdue
      have hmem : e ∈ h.queue.entries := hsplit ▸ List.mem_append_left _ hdue
      have hge := (hinv.ahead e hmem).1
      exact le_antisymm (hle.trans htimely) hge
  · intro e he
    exact hinv.ahead e (hsplit ▸ List.mem_append_right _ he)

theorem Inv.applyNext (hinv : h.Inv) : (h.step model .applyNext).Inv := by
  obtain ⟨hpending, hclock, hsim⟩ := Core.step_applyNext model h.core
  have hqueue : (h.step model .applyNext).queue = h.queue := congrArg SimState.queue hsim
  have hnow : (h.step model .applyNext).now = h.now := congrArg HistoricalClock.now hclock
  have hnews : (h.step model .applyNext).scheduled = h.scheduled := by
    change h.scheduled ++ h.queue.news (h.step model .applyNext).queue = h.scheduled
    rw [hqueue, DueQueue.news_self, List.append_nil]
  have hlist : (h.step model .applyNext).delivered.map Prod.fst ++ (h.step model .applyNext).waiting
      = h.delivered.map Prod.fst ++ h.waiting := by
    change (h.delivered ++ h.waiting.head?.toList.map fun e ↦ (e, h.now)).map Prod.fst
      ++ h.waiting.tail = _
    cases h.waiting <;> simp
  have hlast : ∀ x ∈ (h.step model .applyNext).delivered,
      x ∈ h.delivered ∨ x.1 ∈ h.waiting ∧ x.2 = h.now := by
    intro x hx
    rcases List.mem_append.mp hx with hx | hx
    · exact .inl hx
    · obtain ⟨e, he, rfl⟩ := List.mem_map.mp hx
      exact .inr ⟨List.mem_of_mem_head? (Option.mem_toList.mp he), rfl⟩
  refine ⟨?_, ?_, ?_, ?_, ?_, ?_, ?_, ?_, ?_, ?_⟩
  · change h.waiting.tail.map Timed.item = _
    rw [List.map_tail, hinv.pending]
    exact hpending.symm
  · rw [hlist, hqueue, hnews]
    exact hinv.once
  · rw [hnews]
    exact hinv.distinct
  · intro x hx
    rcases hlast x hx with hold | ⟨hw, heq⟩
    · exact hinv.onTime x hold
    · rw [heq, hinv.present x.1 hw]
  · rw [hlist, hqueue]
    exact hinv.order
  · rw [hnews, hqueue]
    exact hinv.numbered
  · rw [hnow]
    intro e he
    obtain ⟨x, hx, rfl⟩ := List.mem_map.mp he
    rcases hlast x hx with hold | ⟨hw, -⟩
    · exact hinv.past x.1 (List.mem_map_of_mem hold)
    · exact (hinv.present x.1 hw).le
  · rw [hnow]
    exact fun e he ↦ hinv.present e (List.mem_of_mem_tail he)
  · rw [hqueue, hnow]
    exact hinv.ahead
  · rw [hnow]
    exact hinv.now_le

/-- **One timely operation.** -/
theorem Inv.step (hinv : h.Inv) {op : CoreOp} (htimely : Timely h.core op) :
    (h.step model op).Inv := by
  by_cases hop : op.IsPlain
  · exact hinv.plain hop
  · cases op with
    | advance ts => exact hinv.advance htimely
    | drain frontier => exact hinv.drain htimely
    | applyNext => exact hinv.applyNext
    | _ => exact absurd trivial hop

omit [DecimalWidth] in
theorem inv_start {c : Core} (hpending : c.pending = []) (hqueue : c.oms.sim.queue.entries = [])
    (hnow : c.clock.now ≤ u64Max) : (start c).Inv where
  pending := hpending.symm
  once := by simp [start, queue, hqueue]
  distinct := List.nodup_nil
  onTime := fun x hx ↦ absurd hx List.not_mem_nil
  order := by simp [start, queue, hqueue]
  numbered := fun e he ↦ absurd he List.not_mem_nil
  past := fun e he ↦ absurd he List.not_mem_nil
  present := fun e he ↦ absurd he List.not_mem_nil
  ahead := fun e he ↦ by
    rw [start, queue, hqueue] at he
    cases he
  now_le := hnow

end History

end Coinext
