import Coinext.Kernel.Transcript
import Coinext.Model.Pnl

/-!
# Cancelled timers

A strategy cancels a timer by its id. The clock notes the id, and drops the timer when it is popped.
Ids are not used twice, so a timer that was cancelled before it is popped does not fire: as long as
it is in the heap, or has yet to be set, its cancellation is on note (`TimersKept`).

The timers due at one frontier are popped together, before the first of their handlers runs. What a
handler cancels then is out of the heap already and fires all the same. `cancelled_iff` says that
this is the only way in which a cancelled timer fires.
-/

namespace Coinext

/-- The timer an entry cancels. -/
def Entry.cancel? : Entry → Option TimerId
  | .other (.cancelTimer id) => some id
  | _ => none

/-- The timers are popped. -/
def Entry.isPop : Entry → Bool
  | .other op | .routed op => op.isPop
  | _ => false

theorem Entry.op?_of_cancel? {e : Entry} {id : TimerId} (h : e.cancel? = some id) :
    e.op? = some (.cancelTimer id) := by
  unfold Entry.cancel? at h
  split at h
  · cases h
    rfl
  · cases h

theorem Entry.exists_of_isPop {e : Entry} (h : e.isPop = true) :
    ∃ op, e.op? = some op ∧ op.isPop = true := by
  cases e with
  | routed op | other op => exact ⟨op, rfl, h⟩
  | _ => cases h

/-- The timers that are cancelled. -/
def cancels (es : List Entry) : List TimerId := es.filterMap Entry.cancel?

/-- The entries since the timers were last popped. -/
def sincePop (es : List Entry) : List Entry := (es.reverse.takeWhile fun e ↦ !e.isPop).reverse

theorem sincePop_append {es es' : List Entry} {e : Entry} (he : e.isPop = true)
    (hes' : ∀ e ∈ es', e.isPop = false) : sincePop (es ++ e :: es') = es' := by
  have htake : (es'.reverse ++ e :: es.reverse).takeWhile (fun e ↦ !e.isPop)
      = es'.reverse ++ (e :: es.reverse).takeWhile fun e ↦ !e.isPop := by
    refine List.takeWhile_append_of_pos fun e he ↦ ?_
    rw [hes' e (List.mem_reverse.mp he)]
    rfl
  rw [sincePop, List.reverse_append, List.reverse_cons, List.append_assoc, List.singleton_append,
    htake, List.takeWhile_cons_of_neg (by rw [he]; decide), List.append_nil, List.reverse_reverse]

theorem sincePop_suffix (es : List Entry) : sincePop es <:+ es := by
  have hprefix := List.takeWhile_prefix (l := es.reverse) fun e ↦ !e.isPop
  rw [← List.reverse_suffix, List.reverse_reverse] at hprefix
  exact hprefix

/-! ## The clock -/

/-- The timers in the heap have ids of their own, and a cancellation of one that is in the heap, or
is not set yet, is on note. -/
structure TimersKept (c : HistoricalClock) (ops : List CoreOp) : Prop where
  set : ∀ id ∈ c.heap.items, id.value < c.nextId
  nodup : c.heap.items.Nodup
  cancelled : ∀ id, id ∈ c.heap.items ∨ c.nextId ≤ id.value → .cancelTimer id ∈ ops →
    id ∈ c.cancelled

namespace TimersKept

variable {c c' : HistoricalClock} {ops : List CoreOp} {op : CoreOp}

theorem congr (h : TimersKept c ops) (hheap : c'.heap = c.heap) (hnext : c'.nextId = c.nextId)
    (hcancelled : c'.cancelled = c.cancelled) (hop : ∀ id, op ≠ .cancelTimer id) :
    TimersKept c' (ops ++ [op]) := by
  refine ⟨?_, ?_, ?_⟩
  · rw [hheap, hnext]
    exact h.set
  · rw [hheap]
    exact h.nodup
  · intro id hid hmem
    rw [hheap, hnext] at hid
    rw [hcancelled]
    rcases List.mem_append.mp hmem with hmem | hmem
    · exact h.cancelled id hid hmem
    · exact absurd (List.mem_singleton.mp hmem).symm (hop id)

theorem setTimer (h : TimersKept c ops) (name : String) (ts : UnixNanos) :
    TimersKept (c.setTimer name ts).2 (ops ++ [.setTimer name ts]) := by
  have hperm : (c.setTimer name ts).2.heap.items.Perm (⟨c.nextId⟩ :: c.heap.items) :=
    (List.perm_orderedInsert _ _ _).map Timed.item
  have hnew : (⟨c.nextId⟩ : TimerId) ∉ c.heap.items := fun hmem ↦ (h.set _ hmem).false
  refine ⟨?_, ?_, ?_⟩
  · intro id hid
    rcases List.mem_cons.mp (hperm.mem_iff.mp hid) with rfl | hid
    · exact Nat.lt_succ_self _
    · exact (h.set id hid).trans (Nat.lt_succ_self _)
  · rw [hperm.nodup_iff]
    exact List.nodup_cons.mpr ⟨hnew, h.nodup⟩
  · intro id hid hmem
    have hmem' : .cancelTimer id ∈ ops := by simpa using hmem
    refine h.cancelled id ?_ hmem'
    rcases hid with hid | hid
    · rcases List.mem_cons.mp (hperm.mem_iff.mp hid) with rfl | hid
      · exact .inr le_rfl
      · exact .inl hid
    · exact .inr ((Nat.le_succ _).trans hid)

theorem cancelTimer (h : TimersKept c ops) (id : TimerId) :
    TimersKept (c.cancelTimer id) (ops ++ [.cancelTimer id]) := by
  refine ⟨h.set, h.nodup, ?_⟩
  intro id' hid' hmem
  change id' ∈ insert id c.cancelled
  rcases List.mem_append.mp hmem with hmem | hmem
  · exact Finset.mem_insert_of_mem (h.cancelled id' hid' hmem)
  · cases List.mem_singleton.mp hmem
    exact Finset.mem_insert_self _ _

theorem popDue (h : TimersKept c ops) (ts : UnixNanos) :
    TimersKept (c.popDue ts).1 (ops ++ [.popDue ts]) := by
  have hitems : c.heap.items = (c.heap.due ts).map Timed.item ++ (c.heap.rest ts).items :=
    (c.heap.drainDue_append ts).symm
  have hnodup := h.nodup
  rw [hitems] at hnodup
  obtain ⟨-, hrest, hapart⟩ := List.nodup_append.mp hnodup
  have hsub : ∀ id ∈ (c.heap.rest ts).items, id ∈ c.heap.items := by
    intro id hid
    rw [hitems]
    exact List.mem_append_right _ hid
  refine ⟨?_, ?_, ?_⟩
  · rw [HistoricalClock.heap_popDue, HistoricalClock.nextId_popDue]
    exact fun id hid ↦ h.set id (hsub id hid)
  · rwa [HistoricalClock.heap_popDue]
  · intro id hid hmem
    rw [HistoricalClock.heap_popDue, HistoricalClock.nextId_popDue] at hid
    have hmem' : .cancelTimer id ∈ ops := by simpa using hmem
    -- a timer that is left, or is not set yet, is none of those that are popped
    have hpopped : id ∉ (c.heap.due ts).map Timed.item := by
      intro hdue
      rcases hid with hid | hid
      · exact hapart id hdue id hid rfl
      · refine (h.set id ?_).not_ge hid
        rw [hitems]
        exact List.mem_append_left _ hdue
    rw [HistoricalClock.mem_cancelled_popDue hpopped]
    exact h.cancelled id (hid.imp_left (hsub id)) hmem'

theorem step [DecimalWidth] (model : BrokerageModel) {core : Core}
    (h : TimersKept core.clock ops) (op : CoreOp) :
    TimersKept (core.step model op).clock (ops ++ [op]) := by
  cases op with
  | setTimer name ts => exact h.setTimer name ts
  | cancelTimer id => exact h.cancelTimer id
  | popDue ts => exact h.popDue ts
  | advance ts =>
    have hclock : (core.clock.advanceTo ts).heap = core.clock.heap ∧
        (core.clock.advanceTo ts).nextId = core.clock.nextId ∧
        (core.clock.advanceTo ts).cancelled = core.clock.cancelled := by
      unfold HistoricalClock.advanceTo
      split_ifs <;> exact ⟨rfl, rfl, rfl⟩
    exact h.congr hclock.1 hclock.2.1 hclock.2.2 (by rintro _ ⟨⟩)
  | applyNext =>
    have hclock : (core.step model .applyNext).clock = core.clock := by
      simp only [Core.step, Core.exec]
      split <;> rfl
    rw [hclock]
    exact h.congr rfl rfl rfl (by rintro _ ⟨⟩)
  | closeAt iid px now tagSuffix =>
    have hclock : (core.step model (.closeAt iid px now tagSuffix)).clock = core.clock := by
      simp only [Core.step, Core.exec]
      split <;> rfl
    rw [hclock]
    exact h.congr rfl rfl rfl (by rintro _ ⟨⟩)
  | _ => exact h.congr rfl rfl rfl (by rintro _ ⟨⟩)

end TimersKept

/-! ## The kernel -/

/-- The entry is neither a timer's callback nor the popping of timers. -/
def Entry.isCalm : Entry → Bool
  | .callback cb => !cb.isTimer
  | .queued _ => true
  | .routed op | .other op => !op.isPop

namespace BacktestKernel

section Timers

variable {σ : Type} [DecimalWidth] {setup : Setup σ} {k k' k'' : BacktestKernel σ}
  {es es' : List Entry}

theorem timersKept_narratesLoop : NarratesLoop setup fun k _ k' ↦
    TimersKept k.core.clock k.ops → TimersKept k'.core.clock k'.ops := by
  have hnarrates : Narrates setup fun k (_ : List Entry) k' ↦
      TimersKept k.core.clock k.ops → TimersKept k'.core.clock k'.ops :=
    { refl := fun _ h ↦ h
      trans := fun h h' hk ↦ h' (h hk)
      frame := fun hcore hops _ _ h ↦ by rwa [hcore, hops]
      callback := fun _ _ _ h ↦ h
      queued := fun _ _ h ↦ h
      other := fun _ op _ h ↦ h.step setup.config.brokerage op }
  have houtbox (k : BacktestKernel σ) (hk : TimersKept k.core.clock k.ops) :
      TimersKept (processOutbox setup k).core.clock (processOutbox setup k).ops :=
    hnarrates.outbox (fun _ op _ h ↦ h.step setup.config.brokerage op) (fun _ h ↦ h) hk
  refine ⟨hnarrates, houtbox, fun k ts ↦ hnarrates.timers houtbox ?_ (fun _ _ h ↦ h) ts⟩
  exact fun _ ts h ↦ h.step setup.config.brokerage (.popDue ts)

theorem calm_narrates : Narrates setup fun (_ : BacktestKernel σ) es _ ↦
    ∀ e ∈ es, Entry.isCalm e = true where
  refl _ e he := absurd he List.not_mem_nil
  trans h h' e he := (List.mem_append.mp he).elim (h e) (h' e)
  frame _ _ _ _ e he := absurd he List.not_mem_nil
  callback k cb hcb e he := by
    rw [List.mem_singleton.mp he, Entry.isCalm, hcb]
    rfl
  queued k cmd e he := by
    rw [List.mem_singleton.mp he]
    rfl
  other k op hop e he := by
    rw [List.mem_singleton.mp he, Entry.isCalm, hop]
    rfl

theorem calm_processOutbox (k : BacktestKernel σ) :
    ∀ e ∈ processOutboxEntries setup k, e.isCalm = true := by
  refine calm_narrates.outbox (fun k op hop e he ↦ ?_) fun _ e he ↦ absurd he List.not_mem_nil
  rw [List.mem_singleton.mp he, Entry.isCalm, hop]
  rfl

/-- Of the entries of a batch of timers, only their callbacks are not calm. -/
theorem calm_or_of_mem_batch {timers : List TimerEvent} {e : Entry}
    (he : e ∈ foldEntries (fun k t ↦ processOutbox setup (call setup (.timer t) k))
      (timerEntries setup) timers k) :
    e.isCalm = true ∨ ∃ t ∈ timers, e = .callback (.timer t) := by
  induction timers generalizing k with
  | nil => cases he
  | cons t timers ih =>
    rcases List.mem_append.mp he with he | he
    · rcases List.mem_append.mp he with he | he
      · rcases List.mem_cons.mp he with rfl | he
        · exact .inr ⟨t, List.mem_cons_self, rfl⟩
        · exact .inl (calm_narrates.handler (.timer t) e he)
      · exact .inl (calm_processOutbox _ e he)
    · exact (ih he).imp_right fun ⟨t', ht', heq⟩ ↦ ⟨t', List.mem_cons_of_mem _ ht', heq⟩

/-- When a timer fires, no operation before it was last popped has cancelled it. -/
def FiresUncancelled (ops : List CoreOp) (es : List Entry) : Prop :=
  ∀ front t back, es = front ++ .callback (.timer t) :: back →
    ∃ pre ts mid, ops ++ front.filterMap Entry.op? = pre ++ .popDue ts :: mid ∧
      (∀ op ∈ mid, CoreOp.isPop op = false) ∧ .cancelTimer t.id ∉ pre

/-- The record is extended, the timers are kept, and those that fire are not cancelled. -/
structure FiresWell (k : BacktestKernel σ) (es : List Entry) (k' : BacktestKernel σ) : Prop where
  records : Records k es k'
  kept : TimersKept k.core.clock k.ops → TimersKept k'.core.clock k'.ops
  fires : TimersKept k.core.clock k.ops → FiresUncancelled k.ops es

omit [DecimalWidth] in
theorem firesUncancelled_of_calm {ops : List CoreOp} (h : ∀ e ∈ es, e.isCalm = true) :
    FiresUncancelled ops es := by
  rintro front t back rfl
  have hcalm := h (.callback (.timer t)) (List.mem_append_right _ List.mem_cons_self)
  cases hcalm

omit [DecimalWidth] in
theorem FiresWell.trans (h : FiresWell k es k') (h' : FiresWell k' es' k'') :
    FiresWell k (es ++ es') k'' := by
  refine ⟨h.records.trans h'.records, fun hk ↦ h'.kept (h.kept hk), fun hk front t back heq ↦ ?_⟩
  have hsecond (rest : List Entry) (hfront : front = es ++ rest)
      (hrest : es' = rest ++ .callback (.timer t) :: back) :
      ∃ pre ts mid, k.ops ++ front.filterMap Entry.op? = pre ++ .popDue ts :: mid ∧
        (∀ op ∈ mid, CoreOp.isPop op = false) ∧ .cancelTimer t.id ∉ pre := by
    rw [hfront, List.filterMap_append, ← List.append_assoc, ← h.records.ops]
    exact h'.fires (h.kept hk) rest t back hrest
  rcases List.append_eq_append_iff.mp heq with ⟨rest, hfront, hrest⟩ | ⟨rest, hes, hrest⟩
  · exact hsecond rest hfront hrest
  · cases rest with
    | nil => exact hsecond [] (by simpa using hes.symm) (by simpa using hrest.symm)
    | cons e rest =>
      obtain ⟨rfl, -⟩ := List.cons.inj hrest
      exact h.fires hk front t rest hes

theorem firesWell_narratesLoop : NarratesLoop setup (FiresWell (σ := σ)) := by
  have hcalm {k k' : BacktestKernel σ} {es : List Entry} (hrecords : Records k es k')
      (hkept : TimersKept k.core.clock k.ops → TimersKept k'.core.clock k'.ops)
      (h : ∀ e ∈ es, e.isCalm = true) : FiresWell k es k' :=
    ⟨hrecords, hkept, fun _ ↦ firesUncancelled_of_calm h⟩
  have hR : NarratesLoop setup (Records (σ := σ)) := records_narratesLoop
  have hK : NarratesLoop setup fun k _ k' ↦
      TimersKept k.core.clock k.ops → TimersKept k'.core.clock k'.ops := timersKept_narratesLoop
  have hC : Narrates setup fun (_ : BacktestKernel σ) es _ ↦
      ∀ e ∈ es, Entry.isCalm e = true := calm_narrates
  refine ⟨⟨fun k ↦ hcalm (hR.refl k) (hK.refl k) (hC.refl k), .trans,
    fun h₁ h₂ h₃ h₄ ↦ hcalm (hR.frame h₁ h₂ h₃ h₄) (hK.frame h₁ h₂ h₃ h₄) (hC.frame h₁ h₂ h₃ h₄),
    fun k cb hcb ↦ hcalm (hR.callback k cb hcb) (hK.callback k cb hcb) (hC.callback k cb hcb),
    fun k cmd ↦ hcalm (hR.queued k cmd) (hK.queued k cmd) (hC.queued k cmd),
    fun k op hop ↦ hcalm (hR.other k op hop) (hK.other k op hop) (hC.other k op hop)⟩,
    fun k ↦ hcalm (hR.processOutbox k) (hK.processOutbox k) (calm_processOutbox k), fun k ts ↦ ?_⟩
  refine ⟨hR.fireTimers k ts, hK.fireTimers k ts, fun hk front t back heq ↦ ?_⟩
  cases front with
  | nil => cases heq
  | cons e front =>
    obtain ⟨rfl, hbatch⟩ := List.cons.inj heq
    have hmem {e : Entry} (he : e ∈ front ++ .callback (.timer t) :: back) :
        e.isCalm = true ∨ ∃ t' ∈ (k.core.clock.popDue ts).2, e = .callback (.timer t') := by
      rw [show front ++ .callback (.timer t) :: back = _ from hbatch.symm] at he
      exact calm_or_of_mem_batch he
    refine ⟨k.ops, ts, front.filterMap Entry.op?, rfl, fun op hop ↦ ?_, ?_⟩
    · obtain ⟨e, he, hop⟩ := List.mem_filterMap.mp hop
      rcases hmem (List.mem_append_left _ he) with hcalm | ⟨t', -, rfl⟩
      · cases e with
        | routed op' | other op' =>
          cases hop
          simpa [Entry.isCalm] using hcalm
        | _ => cases hop
      · cases hop
    · rcases hmem (List.mem_append_right _ List.mem_cons_self) with hcalm | ⟨t', ht', heq⟩
      · cases hcalm
      · cases heq
        obtain ⟨hheap, hnot⟩ := HistoricalClock.of_mem_popDue hk.nodup ht'
        exact fun hcancel ↦ hnot (hk.cancelled t.id (.inl hheap) hcancel)

/-! ## Whole runs -/

/-- **Cancelled timers.** In every run, as far as it has come, no timer fires after it was cancelled
if and only if none does that was cancelled since the timers were last popped. -/
theorem cancelled_iff (fuel : ℕ) (events : List MarketEvent) :
    (∀ front t back, transcript setup fuel events = front ++ .callback (.timer t) :: back →
        t.id ∉ cancels front) ↔
      ∀ front t back, transcript setup fuel events = front ++ .callback (.timer t) :: back →
        t.id ∉ cancels (sincePop front) := by
  constructor
  · intro h front t back heq hmem
    exact h front t back heq (((sincePop_suffix front).filterMap _).subset hmem)
  · intro h front t back heq hmem
    have hbuild : TimersKept (build setup).core.clock (build setup).ops :=
      ⟨fun _ hid ↦ absurd hid List.not_mem_nil, List.nodup_nil,
        fun _ _ hop ↦ absurd hop List.not_mem_nil⟩
    have hwell : FiresWell (build setup) (transcript setup fuel events) _ :=
      firesWell_narratesLoop.transcript fuel events
    obtain ⟨pre, ts, mid, hops, hmid, hpre⟩ := hwell.fires hbuild front t back heq
    change front.filterMap Entry.op? = _ at hops
    obtain ⟨front₁, front₂, rfl, hfront₁, hfront₂⟩ := List.filterMap_eq_append_iff.mp hops
    obtain ⟨silent, e, rest, rfl, hsilent, he, hrest⟩ := List.filterMap_eq_cons_iff.mp hfront₂
    have hpop : e.isPop = true := by
      cases e with
      | routed op | other op =>
        cases he
        rfl
      | _ => cases he
    have hcalm : ∀ e ∈ rest, e.isPop = false := by
      intro e' he'
      by_contra hne
      obtain ⟨op, hop, hisPop⟩ := Entry.exists_of_isPop (by simpa using hne)
      rw [hmid op (hrest ▸ List.mem_filterMap.mpr ⟨e', he', hop⟩)] at hisPop
      cases hisPop
    -- the cancellation comes after the pop
    have hafter : t.id ∈ cancels rest := by
      obtain ⟨e', he', hcancel⟩ := List.mem_filterMap.mp hmem
      have hop := Entry.op?_of_cancel? hcancel
      rcases List.mem_append.mp he' with hin | hin
      · exact absurd (hfront₁ ▸ List.mem_filterMap.mpr ⟨e', hin, hop⟩) hpre
      · rcases List.mem_append.mp hin with hin | hin
        · rw [hsilent e' hin] at hop
          cases hop
        · rcases List.mem_cons.mp hin with rfl | hin
          · rw [he] at hop
            cases hop
          · exact List.mem_filterMap.mpr ⟨e', hin, hcancel⟩
    refine h _ t back heq ?_
    rwa [← List.append_assoc, sincePop_append hpop hcalm]

end Timers

section Instances

open scoped RustDecimal

/-- Two timers for time five; the handler of the first cancels the second. -/
def twoTimers : Setup Unit where
  config := ⟨[Position.perp false], ⟨"USDT", 2, two_le_maxPrecision⟩,
    ⟨100000, ⟨"USDT", 2, two_le_maxPrecision⟩⟩,
    .unlimited, ({ latencyNs := 0 } : DefaultBrokerageModel).brokerage, 0⟩
  strategyId := ⟨"S"⟩
  strategy := ⟨fun _ cb ↦ match cb with
    | .start => .setTimer "first" 5 fun _ ↦ .setTimer "second" 5 fun _ ↦ .done ()
    | .timer t => if t.name = "first" then .cancelTimer ⟨2⟩ (.done ()) else .done ()
    | _ => .done ()⟩
  initial := ()
  killed := false
  hash := .lastInserted

/-- The second timer fires after it was cancelled. -/
theorem not_uncancelled_twoTimers :
    ¬ ∀ front t back, transcript twoTimers 1 [] = front ++ .callback (.timer t) :: back →
      t.id ∉ cancels front := by
  intro h
  refine h ((transcript twoTimers 1 []).take 8) ⟨⟨2⟩, "second", 5⟩
    ((transcript twoTimers 1 []).drop 9) rfl ?_
  decide

end Instances

end BacktestKernel

end Coinext
