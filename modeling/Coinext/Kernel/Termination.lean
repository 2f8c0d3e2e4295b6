import Coinext.Kernel.Loop

/-!
# The loop ends

Each iteration of the main loop takes something away: a market event, a report, a timer or an
expiry. Market events and expiries are given. Reports and timers are made while the loop runs, and
both count themselves: a queue numbers its insertions, so what has been popped of it is the number
of the insertions less the number of the entries (`popped`).

Reports are made for orders, an acknowledgement and a cancellation at most, and a fill at most at
each market event for an order that rests (`Made`). So a strategy that submits finitely many orders
and sets finitely many timers lets the loop end, however often it cancels (`run_ends`).
-/

namespace Coinext

namespace DueQueue

variable {α : Type}

/-- The number of entries that have been popped. -/
def popped (q : DueQueue α) : ℤ := q.seq - q.entries.length

theorem popped_push (q : DueQueue α) (d : ℕ) (x : α) : (q.push d x).popped = q.popped := by
  have hlength : (q.push d x).entries.length = q.entries.length + 1 :=
    List.orderedInsert_length _ _ _
  rw [popped, popped, hlength]
  change ((q.seq + 1 : ℕ) : ℤ) - _ = _
  push_cast
  ring

theorem popped_rest (q : DueQueue α) (frontier : ℕ) :
    (q.rest frontier).popped = q.popped + (q.due frontier).length := by
  have hlength := congrArg List.length (q.entries_eq_append frontier)
  rw [List.length_append] at hlength
  rw [popped, popped, hlength]
  change (q.seq : ℤ) - _ = _
  push_cast
  ring

theorem length_due_pos {q : DueQueue α} {frontier : ℕ} {e : Timed α} (he : e ∈ q.entries)
    (hdue : e.due ≤ frontier) : 0 < (q.due frontier).length := by
  rw [q.entries_eq_append frontier, List.mem_append] at he
  rcases he with hmem | hmem
  · exact List.length_pos_of_mem hmem
  · exact absurd (lt_due_of_mem_rest hmem) hdue.not_gt

end DueQueue

open SimulatedExecutionClient

/-! ## What is made -/

section Venue

/-- The venue's queue and orders, after some calls: an order that rests may still be cancelled, and
filled once at each market event. -/
structure Made (s : SimState) (submitted published : ℕ) : Prop where
  resting : s.resting.length ≤ submitted
  seq : s.queue.seq + s.resting.length ≤ submitted * (published + 2)

variable (model : BrokerageModel) {s : SimState} {submitted published : ℕ}

theorem Made.onSubmit (h : Made s submitted published) (cache : Cache) (now : UnixNanos)
    (order : Order) :
    Made (onSubmit model cache now order s) (submitted + 1) published ∧
      (SimulatedExecutionClient.onSubmit model cache now order s).queue.popped
        = s.queue.popped := by
  have hmul : (submitted + 1) * (published + 2) = submitted * (published + 2) + published + 2 := by
    ring
  have hresting := h.resting
  have hseq := h.seq
  unfold SimulatedExecutionClient.onSubmit
  split
  · exact ⟨⟨by omega, by omega⟩, rfl⟩
  · refine ⟨⟨?_, ?_⟩, DueQueue.popped_push _ _ _⟩
    · rw [List.length_append, List.length_singleton]
      omega
    · rw [List.length_append, List.length_singleton]
      change s.queue.seq + 1 + _ ≤ _
      omega

theorem Made.onCancel (h : Made s submitted published) (now : UnixNanos) (id : ClientOrderId) :
    Made (onCancel model now id s) submitted published ∧
      (SimulatedExecutionClient.onCancel model now id s).queue.popped = s.queue.popped := by
  unfold SimulatedExecutionClient.onCancel
  split_ifs with hany
  · have hlength : (s.resting.eraseP fun r ↦ r.order.clientOrderId = id).length + 1
        = s.resting.length := by
      obtain ⟨r, hr, hid⟩ := List.any_eq_true.mp hany
      rw [List.length_eraseP_of_mem hr hid]
      exact Nat.succ_pred_eq_of_pos (List.length_pos_of_mem hr)
    have hresting := h.resting
    have hseq := h.seq
    refine ⟨⟨by change (List.eraseP _ _).length ≤ _; omega, ?_⟩, DueQueue.popped_push _ _ _⟩
    change s.queue.seq + 1 + (List.eraseP _ _).length ≤ _
    omega
  · exact ⟨h, rfl⟩

theorem Made.mono {s : SimState} {submitted published : ℕ} (h : Made s submitted published) :
    Made s (submitted + 1) published := by
  have hresting := h.resting
  have hseq := h.seq
  have hmul : (submitted + 1) * (published + 2) = submitted * (published + 2) + published + 2 := by
    ring
  exact ⟨by omega, by omega⟩

variable [DecimalWidth]

/-- Matching an order schedules a fill at most, and keeps the order at most. -/
theorem matchOne_counts (now : UnixNanos) (inst : Instrument) (tape : Tape) (id : InstrumentId)
    (s : SimState) (r : Resting) :
    (matchOne model now inst tape id s r).resting.length ≤ s.resting.length + 1 ∧
      (matchOne model now inst tape id s r).queue.seq ≤ s.queue.seq + 1 ∧
      (matchOne model now inst tape id s r).queue.popped = s.queue.popped := by
  have hschedule : ∀ d, (schedule model now inst r d s).resting = s.resting ∧
      (schedule model now inst r d s).queue.seq ≤ s.queue.seq + 1 ∧
      (schedule model now inst r d s).queue.popped = s.queue.popped := by
    intro d
    unfold schedule
    split_ifs
    · exact ⟨rfl, Nat.le_refl _, DueQueue.popped_push _ _ _⟩
    · exact ⟨rfl, Nat.le_succ _, rfl⟩
  have hkeep : ∀ (s' : SimState) (r' : Resting), s'.resting = s.resting →
      (s'.resting ++ [r']).length ≤ s.resting.length + 1 := by
    intro s' r' h
    rw [h, List.length_append, List.length_singleton]
  unfold matchOne
  split_ifs
  · exact ⟨hkeep s r rfl, Nat.le_succ _, rfl⟩
  · cases hdecision : (verdict model inst tape r).decision with
    | none =>
      simp only [hdecision]
      exact ⟨hkeep s _ rfl, Nat.le_succ _, trivial⟩
    | some d =>
      obtain ⟨hresting, hseq, hpopped⟩ := hschedule d
      simp only [hdecision]
      split_ifs
      · exact ⟨hresting ▸ Nat.le_succ _, hseq, hpopped⟩
      · exact ⟨hkeep _ _ hresting, hseq, hpopped⟩

theorem foldl_matchOne_counts (now : UnixNanos) (inst : Instrument) (tape : Tape)
    (id : InstrumentId) (rs : List Resting) (s : SimState) :
    (rs.foldl (matchOne model now inst tape id) s).resting.length
        ≤ s.resting.length + rs.length ∧
      (rs.foldl (matchOne model now inst tape id) s).queue.seq ≤ s.queue.seq + rs.length ∧
      (rs.foldl (matchOne model now inst tape id) s).queue.popped = s.queue.popped := by
  induction rs generalizing s with
  | nil => exact ⟨Nat.le_refl _, Nat.le_refl _, rfl⟩
  | cons r rs ih =>
    obtain ⟨hresting, hseq, hpopped⟩ := ih (matchOne model now inst tape id s r)
    obtain ⟨hresting', hseq', hpopped'⟩ := matchOne_counts model now inst tape id s r
    rw [List.foldl_cons, List.length_cons]
    exact ⟨by omega, by omega, hpopped.trans hpopped'⟩

theorem Made.onMarket (h : Made s submitted published) (cache : Cache) (now : UnixNanos)
    (ev : MarketEvent) :
    Made (onMarket model cache now ev s) submitted (published + 1) ∧
      (SimulatedExecutionClient.onMarket model cache now ev s).queue.popped = s.queue.popped := by
  have hmul : submitted * (published + 1 + 2) = submitted * (published + 2) + submitted := by ring
  have hresting := h.resting
  have hseq := h.seq
  unfold SimulatedExecutionClient.onMarket
  split
  · rename_i inst tape _ _
    have hqueue : (rememberBar ev s).queue = s.queue := by cases ev <;> rfl
    obtain ⟨hresting', hseq', hpopped⟩ := foldl_matchOne_counts model now inst tape
      ev.instrumentId s.resting { rememberBar ev s with resting := [] }
    rw [hqueue] at hseq' hpopped
    rw [List.length_nil] at hresting'
    exact ⟨⟨by omega, by omega⟩, hpopped⟩
  · exact ⟨⟨hresting, by omega⟩, rfl⟩

end Venue

/-! ## What an operation pops -/

section Core

variable [DecimalWidth] (model : BrokerageModel)

/-- The reports and timers that have been popped. -/
def Core.popped (c : Core) : ℤ := c.oms.sim.queue.popped + c.clock.heap.popped

/-- What an operation pops. -/
def Core.pops (c : Core) : CoreOp → ℕ
  | .drain frontier => (c.oms.sim.queue.due frontier).length
  | .popDue frontier => (c.clock.heap.due frontier).length
  | _ => 0

/-- An operation that pops what is due. -/
def CoreOp.IsPop : CoreOp → Prop
  | .drain _ | .popDue _ => True
  | _ => False

def CoreOp.IsSubmit : CoreOp → Bool
  | .submit .. => true
  | _ => false

def CoreOp.IsOnMarket : CoreOp → Bool
  | .onMarket _ => true
  | _ => false

def CoreOp.IsSetTimer : CoreOp → Bool
  | .setTimer .. => true
  | _ => false

/-- What an operation makes of the counts. -/
structure Core.Counted (c : Core) (ops : List CoreOp) : Prop where
  made : Made c.oms.sim (ops.countP CoreOp.IsSubmit) (ops.countP CoreOp.IsOnMarket)
  timers : c.clock.heap.seq = ops.countP CoreOp.IsSetTimer

variable {c : Core} {ops : List CoreOp}

theorem Core.Counted.step (h : c.Counted ops) (op : CoreOp) :
    (c.step model op).Counted (ops ++ [op]) ∧
      (c.step model op).popped = c.popped + c.pops op := by
  have hcount : ∀ p : CoreOp → Bool, (ops ++ [op]).countP p = ops.countP p + [op].countP p :=
    fun p ↦ List.countP_append
  have hsame : ∀ {c' : Core}, c'.oms.sim = c.oms.sim → c'.clock.heap = c.clock.heap →
      [op].countP CoreOp.IsSubmit = 0 → [op].countP CoreOp.IsOnMarket = 0 →
      [op].countP CoreOp.IsSetTimer = 0 → c.pops op = 0 →
      c'.Counted (ops ++ [op]) ∧ c'.popped = c.popped + c.pops op := by
    intro c' hsim hheap hsubmits hmarkets htimers hpops
    refine ⟨⟨?_, ?_⟩, ?_⟩
    · rw [hsim, hcount, hcount, hsubmits, hmarkets]
      exact h.made
    · rw [hheap, hcount, htimers]
      exact h.timers
    · rw [Core.popped, hsim, hheap, hpops, Core.popped, Nat.cast_zero, add_zero]
  cases op with
  | advance ts =>
    refine hsame rfl ?_ rfl rfl rfl rfl
    change (c.clock.advanceTo ts).heap = c.clock.heap
    unfold HistoricalClock.advanceTo
    split_ifs <;> rfl
  | drain frontier =>
    refine ⟨⟨?_, ?_⟩, ?_⟩
    · rw [hcount, hcount]
      exact ⟨h.made.resting, h.made.seq⟩
    · rw [hcount]
      exact h.timers
    · change (c.oms.sim.queue.rest frontier).popped + c.clock.heap.popped = _
      rw [DueQueue.popped_rest, Core.popped, Core.pops]
      ring
  | applyNext =>
    obtain ⟨-, hclock, hsim⟩ := Core.step_applyNext model c
    exact hsame hsim (by rw [hclock]) rfl rfl rfl rfl
  | submit risk portfolio order now =>
    have hmade : Made (c.step model (.submit risk portfolio order now)).oms.sim
        (ops.countP CoreOp.IsSubmit + 1) (ops.countP CoreOp.IsOnMarket) ∧
        (c.step model (.submit risk portfolio order now)).oms.sim.queue.popped
          = c.oms.sim.queue.popped := by
      change Made (ExecutionEngine.submit ..).2.sim _ _ ∧
        (ExecutionEngine.submit ..).2.sim.queue.popped = _
      obtain heq | ⟨ev, s', heq, -, -, -, -, ⟨reason, -, hsim⟩ | ⟨-, hsim⟩⟩ :=
        ExecutionEngine.submit_cases risk portfolio model c.clock.now order now c.oms
      · rw [heq]
        exact ⟨h.made.mono, rfl⟩
      · rw [heq, hsim]
        exact ⟨h.made.mono, rfl⟩
      · rw [heq, hsim]
        exact h.made.onSubmit model _ _ _
    refine ⟨⟨?_, ?_⟩, ?_⟩
    · rw [hcount, hcount]
      exact hmade.1
    · rw [hcount]
      exact h.timers
    · rw [Core.popped, hmade.2]
      exact (add_zero _).symm
  | cancel id now =>
    have hmade : Made (c.step model (.cancel id now)).oms.sim
        (ops.countP CoreOp.IsSubmit) (ops.countP CoreOp.IsOnMarket) ∧
        (c.step model (.cancel id now)).oms.sim.queue.popped = c.oms.sim.queue.popped := by
      have hsim := ExecutionEngine.sim_applyToOrder id (.pendingCancel now) c.oms
      change Made (onCancel model c.clock.now id
        (ExecutionEngine.applyToOrder id (.pendingCancel now) c.oms).2.sim) _ _ ∧
        (onCancel model c.clock.now id
          (ExecutionEngine.applyToOrder id (.pendingCancel now) c.oms).2.sim).queue.popped = _
      rw [hsim]
      exact h.made.onCancel model _ _
    refine ⟨⟨?_, ?_⟩, ?_⟩
    · rw [hcount, hcount]
      exact hmade.1
    · rw [hcount]
      exact h.timers
    · rw [Core.popped, hmade.2]
      exact (add_zero _).symm
  | process ev => exact hsame rfl rfl rfl rfl rfl rfl
  | onMarket ev =>
    obtain ⟨hmade, hpopped⟩ := h.made.onMarket model c.oms.cache c.clock.now ev
    refine ⟨⟨?_, ?_⟩, ?_⟩
    · rw [hcount, hcount]
      exact hmade
    · rw [hcount]
      exact h.timers
    · change (onMarket model c.oms.cache c.clock.now ev c.oms.sim).queue.popped + _ = _
      rw [hpopped]
      exact (add_zero _).symm
  | closeAt iid px now tagSuffix =>
    have hsteps : (c.step model (.closeAt iid px now tagSuffix)).oms.sim = c.oms.sim ∧
        (c.step model (.closeAt iid px now tagSuffix)).clock = c.clock := by
      rcases c.closeAt_cases model iid px now tagSuffix with ⟨-, heq⟩ | ⟨inst, pos, f, -, heq⟩
      · rw [heq]
        exact ⟨rfl, rfl⟩
      · rw [heq]
        exact ⟨rfl, rfl⟩
    exact hsame hsteps.1 (by rw [hsteps.2]) rfl rfl rfl rfl
  | setTimer name ts =>
    refine ⟨⟨?_, ?_⟩, ?_⟩
    · rw [hcount, hcount]
      exact h.made
    · rw [hcount, ← h.timers]
      rfl
    · change _ + (c.clock.heap.push ts _).popped = _
      rw [DueQueue.popped_push]
      exact (add_zero _).symm
  | cancelTimer id => exact hsame rfl rfl rfl rfl rfl rfl
  | popDue frontier =>
    refine ⟨⟨?_, ?_⟩, ?_⟩
    · rw [hcount, hcount]
      exact h.made
    · change (c.clock.popDue frontier).1.heap.seq = _
      rw [HistoricalClock.heap_popDue, hcount]
      exact h.timers
    · change _ + (c.clock.popDue frontier).1.heap.popped = _
      rw [HistoricalClock.heap_popDue, DueQueue.popped_rest, Core.popped, Core.pops, ← add_assoc]
      rfl

theorem Core.mem_heap_step {op : CoreOp} (hop : ∀ frontier, op ≠ .popDue frontier)
    {e : Timed TimerId} (he : e ∈ c.clock.heap.entries) :
    e ∈ (c.step model op).clock.heap.entries := by
  cases op with
  | advance ts =>
    change e ∈ (c.clock.advanceTo ts).heap.entries
    unfold HistoricalClock.advanceTo
    split_ifs <;> exact he
  | applyNext =>
    rw [(Core.step_applyNext model c).2.1]
    exact he
  | closeAt iid px now tagSuffix =>
    rcases c.closeAt_cases model iid px now tagSuffix with ⟨-, heq⟩ | ⟨inst, pos, f, -, heq⟩
    · rwa [heq]
    · rwa [heq]
  | setTimer name ts => exact (List.mem_orderedInsert _).mpr (.inr he)
  | popDue frontier => exact absurd rfl (hop frontier)
  | drain | submit | cancel | process | onMarket | cancelTimer => exact he

end Core

namespace BacktestKernel

section Run

variable {σ : Type} [DecimalWidth] {setup : Setup σ} {k k' k'' : BacktestKernel σ}

/-! ## Steady moves -/

/-- Nothing is popped from the first state to the second. -/
structure Steady (k k' : BacktestKernel σ) : Prop where
  counted : k.core.Counted k.ops → k'.core.Counted k'.ops
  popped : k.core.Counted k.ops → k'.core.popped = k.core.popped
  heap : ∀ e ∈ k.core.clock.heap.entries, e ∈ k'.core.clock.heap.entries
  expiries : k'.expiries <:+ k.expiries

omit [DecimalWidth] in
theorem Steady.frame (hcore : k'.core = k.core) (hops : k'.ops = k.ops)
    (hexpiries : k'.expiries <:+ k.expiries) : Steady k k' where
  counted h := by rwa [hcore, hops]
  popped _ := by rw [hcore]
  heap e he := by rwa [hcore]
  expiries := hexpiries

omit [DecimalWidth] in
theorem Steady.trans (h : Steady k k') (h' : Steady k' k'') : Steady k k'' where
  counted hk := h'.counted (h.counted hk)
  popped hk := (h'.popped (h.counted hk)).trans (h.popped hk)
  heap e he := h'.heap e (h.heap e he)
  expiries := h'.expiries.trans h.expiries

theorem Steady.perform (op : CoreOp) (hop : ¬ op.IsPop) : Steady k (perform setup op k).2 where
  counted hk := (hk.step _ op).1
  popped hk := by
    have hpops : k.core.pops op = 0 := by
      cases op with
      | drain | popDue => exact absurd trivial hop
      | _ => rfl
    have hstep := (hk.step setup.config.brokerage op).2
    rw [hpops] at hstep
    exact hstep.trans (add_zero _)
  heap _ he := Core.mem_heap_step _ (fun frontier h ↦ by
    rw [h] at hop
    exact hop trivial) he
  expiries := List.suffix_rfl

variable (setup) in
theorem Steady.moves : Moves setup (Steady : BacktestKernel σ → BacktestKernel σ → Prop) where
  refl _ := .frame rfl rfl List.suffix_rfl
  trans := .trans
  frame hcore hops _ hexpiries := .frame hcore hops hexpiries
  journal _ _ _ := .frame rfl rfl List.suffix_rfl
  setTimer _ _ _ := .perform _ id
  cancelTimer _ _ := .perform _ id
  submit _ _ := .perform _ id
  cancel _ _ _ := .perform _ id

/-! ## What an iteration takes away -/

/-- How much has been taken away, of what is given and of what is made on the way. -/
def taken (feed : List MarketEvent) (k : BacktestKernel σ) : ℤ :=
  k.core.popped - feed.length - k.expiries.length

variable {feed : List MarketEvent} {ts : UnixNanos}

/-- A market event goes to the strategy; only the journal tells its callback from others. -/
theorem Moves.dispatchMarket {R : BacktestKernel σ → BacktestKernel σ → Prop}
    (hR : Moves setup R) (hjournal : ∀ k cb, R k { k with journal := k.journal ++ [cb] })
    (ev : MarketEvent) : R k (dispatchMarket setup ev k) := by
  have hcall : ∀ cb, R k (BacktestKernel.call setup cb k) := fun cb ↦
    hR.trans (hjournal k cb) (hR.call cb)
  unfold BacktestKernel.dispatchMarket
  split
  · exact hcall _
  · exact hcall _
  · exact hcall _
  · split
    · exact hcall _
    · exact hR.refl k

/-- The market event is taken when it is at the frontier. -/
theorem takeMarket_spec (setup : Setup σ) (ts : UnixNanos) (feed : List MarketEvent)
    (k : BacktestKernel σ) :
    Steady k (takeMarket setup ts feed k).2 ∧
      (takeMarket setup ts feed k).1.length ≤ feed.length ∧
      (feed.head?.map MarketEvent.tsEvent = some ts →
        (takeMarket setup ts feed k).1.length + 1 = feed.length) := by
  cases feed with
  | nil => exact ⟨.frame rfl rfl List.suffix_rfl, Nat.le_refl _, fun h ↦ by cases h⟩
  | cons ev rest =>
    simp only [takeMarket]
    split_ifs with hev
    · refine ⟨?_, Nat.le_succ _, fun _ ↦ rfl⟩
      have hprocess : Steady k (perform setup (.process ev) k).2 := .perform _ id
      have hmatch : Steady (perform setup (.process ev) k).2
          (perform setup (.onMarket ev) (perform setup (.process ev) k).2).2 := .perform _ id
      have hdispatch : Steady (perform setup (.onMarket ev) (perform setup (.process ev) k).2).2
          (dispatchMarket setup ev _) :=
        (Steady.moves setup).dispatchMarket (fun _ _ ↦ .frame rfl rfl List.suffix_rfl) ev
      exact (hprocess.trans hmatch).trans (hdispatch.trans
        ((Steady.moves setup).processOutbox.trans ((Steady.moves setup).sampleEquity ts ev)))
    · exact ⟨.frame rfl rfl List.suffix_rfl, Nat.le_refl _,
        fun h ↦ absurd (Option.some.inj h) hev⟩

/-- The reports that are due are drained. -/
theorem drainReports_spec (setup : Setup σ) (ts : UnixNanos) (hk : k.core.Counted k.ops) :
    (drainReports setup ts k).core.Counted (drainReports setup ts k).ops ∧
      (drainReports setup ts k).core.popped
        = k.core.popped + (k.core.oms.sim.queue.due ts).length ∧
      (∀ e ∈ k.core.clock.heap.entries, e ∈ (drainReports setup ts k).core.clock.heap.entries) ∧
      (drainReports setup ts k).expiries <:+ k.expiries := by
  have hfold : ∀ k' : BacktestKernel σ, Steady k' (foldNext setup k') := fun k' ↦
    (Steady.moves setup).performThen (.perform _ id) fun _ ev ↦ (Steady.moves setup).notifyFolded ev
  have hsteady : Steady (perform setup (.drain ts) k).2 (drainReports setup ts k) :=
    ((Steady.moves setup).foldl (fun k' _ ↦ hfold k') _).trans (Steady.moves setup).processOutbox
  obtain ⟨hcounted, hpopped⟩ := hk.step setup.config.brokerage (.drain ts)
  exact ⟨hsteady.counted hcounted, (hsteady.popped hcounted).trans hpopped, hsteady.heap,
    hsteady.expiries⟩

/-- The timers that are due are popped. -/
theorem fireTimers_spec (setup : Setup σ) (ts : UnixNanos) (hk : k.core.Counted k.ops) :
    (fireTimers setup ts k).core.Counted (fireTimers setup ts k).ops ∧
      (fireTimers setup ts k).core.popped = k.core.popped + (k.core.clock.heap.due ts).length ∧
      (fireTimers setup ts k).expiries <:+ k.expiries := by
  have hsteady : Steady (perform setup (.popDue ts) k).2 (fireTimers setup ts k) :=
    (Steady.moves setup).foldl (fun _ _ ↦
      ((Steady.moves setup).callQuiet id).trans (Steady.moves setup).processOutbox) _
  obtain ⟨hcounted, hpopped⟩ := hk.step setup.config.brokerage (.popDue ts)
  exact ⟨hsteady.counted hcounted, (hsteady.popped hcounted).trans hpopped, hsteady.expiries⟩

theorem settleExpiries_spec (setup : Setup σ) (ts : UnixNanos) (k : BacktestKernel σ) :
    Steady k (settleExpiries setup ts k) ∧
      (settleExpiries setup ts k).expiries <:+ k.expiries.dropWhile fun e ↦ e.1 ≤ ts := by
  have hsettle : Steady { k with expiries := k.expiries.dropWhile fun e ↦ e.1 ≤ ts }
      (settleExpiries setup ts k) :=
    (Steady.moves setup).foldl (fun _ e ↦ (Steady.moves setup).settleContract
      (fun _ _ _ _ _ ↦ .perform _ id) ts (Prod.snd e)) _
  have hdrop : Steady k { k with expiries := k.expiries.dropWhile fun e ↦ e.1 ≤ ts } :=
    .frame rfl rfl (List.dropWhile_suffix _)
  exact ⟨hdrop.trans hsettle, hsettle.expiries⟩

omit [DecimalWidth] in
theorem length_dropWhile_lt {l l' : List (UnixNanos × InstrumentId)} (h : l' <:+ l)
    (hdue : l.head?.map Prod.fst = some ts) :
    (l'.dropWhile fun e ↦ e.1 ≤ ts).length + 1 ≤ l.length := by
  have hle : (l'.dropWhile fun e ↦ e.1 ≤ ts).length ≤ l'.length :=
    (List.dropWhile_suffix _).length_le
  by_cases hlength : l'.length = l.length
  · obtain rfl := h.eq_of_length hlength
    cases l' with
    | nil => cases hdue
    | cons e rest =>
      obtain rfl : e.1 = ts := Option.some.inj hdue
      rw [List.dropWhile_cons_of_pos (by simp), List.length_cons]
      exact Nat.succ_le_succ (List.dropWhile_suffix _).length_le
  · have hlt := h.length_le
    omega

/-- **An iteration takes something away.** -/
theorem taken_iterate (setup : Setup σ) (hk : k.core.Counted k.ops)
    (hfrontier : frontier feed k = some ts) :
    (iterate setup ts feed k).2.core.Counted (iterate setup ts feed k).2.ops ∧
      taken feed k + 1 ≤ taken (iterate setup ts feed k).1 (iterate setup ts feed k).2 := by
  rw [iterate_eq, untilMarket]
  have hadvance : Steady k (perform setup (.advance ts) k).2 := .perform _ id
  have hqueue : (perform setup (.advance ts) k).2.core.oms.sim.queue = k.core.oms.sim.queue := rfl
  generalize (perform setup (.advance ts) k).2 = k₁ at hadvance hqueue ⊢
  obtain ⟨hcounted₂, hpopped₂, hheap₂, hexpiries₂⟩ :=
    drainReports_spec setup ts (hadvance.counted hk)
  generalize drainReports setup ts k₁ = k₂ at *
  obtain ⟨hcounted₃, hpopped₃, hexpiries₃⟩ := fireTimers_spec setup ts hcounted₂
  generalize fireTimers setup ts k₂ = k₃ at *
  obtain ⟨htake, hfeed, htaken⟩ := takeMarket_spec setup ts feed k₃
  generalize takeMarket setup ts feed k₃ = next at *
  obtain ⟨hsettle, hexpiries⟩ := settleExpiries_spec setup ts next.2
  generalize settleExpiries setup ts next.2 = k₄ at *
  have hcheck : Steady k₄ (checkLiquidation setup ts k₄) :=
    (Steady.moves setup).checkLiquidation (fun _ _ _ _ _ ↦ .perform _ id) ts
  have hlast := (htake.trans hsettle).trans hcheck
  refine ⟨hlast.counted hcounted₃, ?_⟩
  -- what is popped, and what is left
  have hpopped := hlast.popped hcounted₃
  rw [hpopped₃, hpopped₂, hadvance.popped hk, hqueue] at hpopped
  have hsuffix := (htake.expiries.trans (hexpiries₃.trans hexpiries₂)).trans hadvance.expiries
  have hleft := (hcheck.expiries.trans hexpiries).length_le
  have hdrop := (List.dropWhile_suffix (l := next.2.expiries) fun e ↦ decide (e.1 ≤ ts)).length_le
  have hfewer := hsuffix.length_le
  unfold taken
  simp only
  rcases List.mem_append.mp (frontier_eq_some_iff.mp hfrontier).1 with hmem | hmem
  · have hnext := htaken (Option.mem_toList.mp hmem)
    omega
  · simp only [internalTimes, List.mem_filterMap, id, List.mem_cons, List.not_mem_nil,
      or_false] at hmem
    obtain ⟨a, rfl | rfl | rfl, ha⟩ := hmem
    · -- a report is due
      obtain ⟨e, he, hdue⟩ := Option.map_eq_some_iff.mp ha
      have hpos := DueQueue.length_due_pos (List.mem_of_mem_head? he) hdue.le
      omega
    · -- a timer is due
      obtain ⟨e, he, hdue⟩ := List.mem_map.mp (List.min?_mem ha)
      have hpos := DueQueue.length_due_pos
        (hheap₂ e (hadvance.heap e (List.mem_of_mem_filter he))) hdue.le
      omega
    · -- a contract expires
      have hless := length_dropWhile_lt hsuffix ha
      omega

/-! ## Whole runs -/

omit [DecimalWidth] in
theorem counted_build : (build setup).core.Counted (build setup).ops :=
  ⟨⟨Nat.le_refl _, Nat.le_refl _⟩, rfl⟩

theorem preserved_onMarket (n : ℕ) : Preserved setup fun feed (k : BacktestKernel σ) ↦
    k.ops.countP CoreOp.IsOnMarket + feed.length = n where
  perform feed k op hop h := by
    have hnone : [op].countP CoreOp.IsOnMarket = 0 := by
      cases op with
      | onMarket ev => exact absurd trivial hop
      | _ => rfl
    change (k.ops ++ [op]).countP CoreOp.IsOnMarket + feed.length = n
    rw [List.countP_append, hnone]
    exact h
  market ev feed k h := by
    change (k.ops ++ [CoreOp.process ev] ++ [CoreOp.onMarket ev]).countP CoreOp.IsOnMarket
      + feed.length = n
    rw [List.countP_append, List.countP_append, ← h, List.length_cons]
    change _ + 0 + 1 + _ = _
    omega
  journal _ _ _ h := h
  quietly feed k k' hmove h := by
    obtain ⟨l, hops, hquiet, -⟩ := hmove.run
    have hnone : l.countP CoreOp.IsOnMarket = 0 := by
      refine List.countP_eq_zero.mpr fun op hop hmarket ↦ ?_
      cases op with
      | onMarket ev => exact hquiet _ hop
      | _ => cases hmarket
    rw [hops, List.countP_append, hnone]
    exact h

omit [DecimalWidth] in
theorem taken_lt (hfrontier : frontier feed k = some ts) :
    taken feed k < k.core.oms.sim.queue.seq + k.core.clock.heap.seq := by
  have hleft : 0 < feed.length + k.expiries.length + k.core.oms.sim.queue.entries.length
      + k.core.clock.heap.entries.length := by
    by_contra hnone
    have hnil : frontier feed k = none := by
      refine frontier_eq_none_iff.mpr ⟨List.length_eq_zero_iff.mp (by omega),
        List.length_eq_zero_iff.mp (by omega), ?_, List.length_eq_zero_iff.mp (by omega)⟩
      have hheap : k.core.clock.heap.entries = [] := List.length_eq_zero_iff.mp (by omega)
      rw [hheap]
      exact List.forall_mem_nil _
    rw [hnil] at hfrontier
    cases hfrontier
  rw [taken, Core.popped, DueQueue.popped, DueQueue.popped]
  omega

/-- A run that has not ended has taken something away in every iteration. -/
theorem exists_of_run_eq_none {events : List MarketEvent} {n : ℕ}
    (hlooped : Looped setup events feed k) (hk : k.core.Counted k.ops)
    (hrun : run setup n feed k = none) :
    ∃ feed' k' ts', Looped setup events feed' k' ∧ k'.core.Counted k'.ops ∧
      frontier feed' k' = some ts' ∧ taken feed k + n ≤ taken feed' k' ∧
      k' ∈ k :: (trace setup n feed k).map Prod.snd := by
  induction n generalizing feed k with
  | zero =>
    cases hfrontier : frontier feed k with
    | none => simp [run, hfrontier] at hrun
    | some ts => exact ⟨feed, k, ts, hlooped, hk, hfrontier, by simp, List.mem_cons_self⟩
  | succ n ih =>
    cases hfrontier : frontier feed k with
    | none => simp [run, hfrontier] at hrun
    | some ts =>
      unfold run at hrun
      simp only [hfrontier] at hrun
      obtain ⟨hcounted, htaken⟩ := taken_iterate setup hk hfrontier
      obtain ⟨feed', k', ts', hlooped', hk', hfrontier', htaken', hmem⟩ :=
        ih (hlooped.iterate hfrontier) hcounted hrun
      refine ⟨feed', k', ts', hlooped', hk', hfrontier', by push_cast; omega, ?_⟩
      rw [trace, hfrontier]
      exact List.mem_cons_of_mem _ hmem

/-- **The loop ends.** When a strategy submits at most `submits` orders and sets at most `timers`
timers, the loop ends after at most one iteration for each event, each expiry and each timer, and
for each order as many as there are events and two more. -/
theorem run_ends (events : List MarketEvent) {submits timers : ℕ}
    (hrequests : ∀ k ∈ start setup :: (trace setup (events.length
        + (expirySchedule setup.config).length + timers + submits * (events.length + 2))
        (sortedEvents events) (start setup)).map Prod.snd,
      k.ops.countP CoreOp.IsSubmit ≤ submits ∧ k.ops.countP CoreOp.IsSetTimer ≤ timers) :
    ∃ k, run setup (events.length + (expirySchedule setup.config).length + timers
      + submits * (events.length + 2)) (sortedEvents events) (start setup) = some k := by
  have hlength : (sortedEvents events).length = events.length := List.length_insertionSort _ _
  cases hrun : run setup (events.length + (expirySchedule setup.config).length + timers
      + submits * (events.length + 2)) (sortedEvents events) (start setup) with
  | some k => exact ⟨k, rfl⟩
  | none =>
    have hstart : Steady (build setup) (start setup) := (Steady.moves setup).start
    obtain ⟨feed, k, ts, hlooped, hk, hfrontier, htaken, hmem⟩ :=
      exists_of_run_eq_none .start (hstart.counted counted_build) hrun
    obtain ⟨hsubmits, htimers⟩ := hrequests k hmem
    have hmarket := hlooped.preserved (preserved_onMarket events.length) (by
      rw [hlength]
      exact Nat.zero_add _)
    -- what has been made is bounded, so there is nothing left to take
    have hmade : k.core.oms.sim.queue.seq ≤ submits * (events.length + 2) := by
      have hseq := hk.made.seq
      have hle : k.ops.countP CoreOp.IsSubmit * (k.ops.countP CoreOp.IsOnMarket + 2)
          ≤ submits * (events.length + 2) := Nat.mul_le_mul hsubmits (by omega)
      omega
    have hlt := taken_lt hfrontier
    have hzero : taken (sortedEvents events) (start setup)
        ≥ - (events.length : ℤ) - (expirySchedule setup.config).length := by
      have hexpiries := hstart.expiries.length_le
      have hpopped := hstart.popped counted_build
      change _ ≤ (expirySchedule setup.config).length at hexpiries
      change _ = (0 : ℤ) at hpopped
      rw [taken, hpopped, hlength]
      omega
    have hheap := hk.timers
    generalize submits * (events.length + 2) = most at htaken hmade
    push_cast at htaken
    omega

end Run

section Instances

open scoped RustDecimal

/-- One order and one timer, over two trades: seven iterations are enough. -/
theorem run_ends_twoTrades :
    ∃ k, run buyOnce (2 + 0 + 1 + 1 * (2 + 2)) (sortedEvents [tradeAt 7, tradeAt 7])
      (start buyOnce) = some k :=
  @run_ends _ _ buyOnce [tradeAt 7, tradeAt 7] 1 1 (by decide +kernel)

end Instances

end BacktestKernel

end Coinext
