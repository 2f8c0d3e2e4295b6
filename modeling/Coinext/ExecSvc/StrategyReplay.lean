import Coinext.ExecSvc.Lifecycle

/-!
# Rebuilding a strategy from the log

On a restart, a strategy is rebuilt from the rows that are stored under it, while an order is
rebuilt from the rows that carry its id. The two agree on an order as long as every row of the order
is stored under its strategy. The command handler stores rows under the strategy of the command; the
pump of venue reports stores them under `venue`, and reconciliation under `reconcile` and `venue`,
whichever strategy the order belongs to.

`KeepsTo` says which steps store under the right strategy, and `complete_iff_keepsTo` that the
rebuild is complete throughout a run exactly when all of its steps do.
-/

namespace Coinext

namespace SqliteEventStore

/-- Every row of the order is stored under the strategy. -/
def Under (s : SqliteEventStore) (sid : StrategyId) (coid : ClientOrderId) : Prop :=
  ∀ r ∈ s.rows, r.clientOrderId = coid → r.strategyId = sid

variable {s : SqliteEventStore} {sid : StrategyId} {coid : ClientOrderId}

theorem under_append {sid' : StrategyId} {coid' : ClientOrderId} {ev : OrderEvent}
    {ts : UnixNanos} : (s.append sid' coid' ev ts).Under sid coid
      ↔ s.Under sid coid ∧ (coid' = coid → sid' = sid) := by
  constructor
  · intro h
    refine ⟨fun r hr ↦ h r (List.mem_append_left _ hr), ?_⟩
    exact h _ (List.mem_append_right _ (List.mem_singleton_self _))
  · rintro ⟨hold, hnew⟩ r hr
    rcases List.mem_append.mp hr with hr | hr
    · exact hold r hr
    · rw [List.mem_singleton.mp hr]
      exact hnew

end SqliteEventStore

namespace ExecSvc

open SqliteEventStore

theorem foldl_iff_forall {σ α : Type} {I : σ → Prop} {p : α → Prop} {f : σ → α → σ}
    (hstep : ∀ s a, I (f s a) ↔ I s ∧ p a) (s : σ) (l : List α) :
    I (l.foldl f s) ↔ I s ∧ ∀ a ∈ l, p a := by
  induction l generalizing s with
  | nil => simp
  | cons a l ih => rw [List.foldl_cons, ih, hstep, List.forall_mem_cons, and_assoc]

/-- Whether the handler notes anything behind its call. -/
def Handler.notes (h : Handler) : Except String Unit → Bool
  | .error _ => h.call = .submit
  | .ok () => h.call = .cancel

namespace Desk

section General

variable [DecimalWidth] [Rendering] (sid : StrategyId) (coid : ClientOrderId)

omit [DecimalWidth] [Rendering] in
/-- What the strategy gets back of the order is what the order's own replay gives. -/
def Complete (d : Desk) : Prop :=
  ((d.oms.store.allForStrategy sid).filter (·.1 = coid)).map Prod.snd = d.oms.store.replay coid

/-- The step stores nothing of the order under another strategy. -/
def KeepsTo (d : Desk) : DeskStep → Prop
  | .command cmd env venue => d.handler = none → match cmd.commandKind with
    | .submit => (d.oms.resolveId cmd env.cursorFails).1 = coid → cmd.strategyId = sid.text
    -- through the venue a cancel is stored behind its call
    | .cancel => venue = false → ∀ id ∈ cmd.explicitId, id = coid.text → cmd.strategyId = sid.text
    | .unknown => True
  | .finish => ∀ h ∈ d.handler, ∀ result ∈ h.result, h.notes result = true →
      h.coid = coid → h.cmd.strategyId = sid.text
  | .request _ | .killSwitch _ => True
  | .report r _ => r.clientOrderId = coid → sid = ⟨"venue"⟩
  -- an acceptance is seeded under two strategies, so it never keeps to one
  | .reconcile _ rows => ∀ row ∈ rows, row.1.clientOrderId = coid →
      coid ∉ localOpenClientIds d.oms.store → sid = ⟨"venue"⟩ ∧ row.1.isAccepted = false

variable {conn : Connection} {sid coid} {d : Desk}

omit [DecimalWidth] [Rendering] in
theorem complete_iff_under : Complete sid coid d ↔ d.oms.store.Under sid coid :=
  events_allForStrategy_eq_replay_iff ..

omit [DecimalWidth] [Rendering] in
theorem under_note {oms : PaperOms} {strategy : String} {id : ClientOrderId} {ev : OrderEvent}
    {now : UnixNanos} : (oms.note ⟨strategy⟩ id ev now).store.Under sid coid
      ↔ oms.store.Under sid coid ∧ (id = coid → strategy = sid.text) := by
  refine under_append.trans (and_congr_right fun _ ↦ imp_congr_right fun _ ↦ ?_)
  exact ⟨fun h ↦ congrArg StrategyId.text h, fun h ↦ by rw [h]⟩

/-- A submit is stored under the strategy of the command, whether it is denied, on its way to the
venue or handled on paper. -/
theorem under_beforeCall_submit {oms : PaperOms} {cmd : ExecCommand} {env : Circumstances}
    {venue : Bool} (hkind : cmd.commandKind = .submit) :
    (oms.beforeCall cmd env venue).1.store.Under sid coid ↔ oms.store.Under sid coid
      ∧ ((oms.resolveId cmd env.cursorFails).1 = coid → cmd.strategyId = sid.text) := by
  simp only [PaperOms.beforeCall, PaperOms.handleAsync, hkind, PaperOms.handleSubmit]
  by_cases hkill : oms.kill = true
  · simp only [hkill, if_true, ite_self]
    exact under_note
  · cases venue with
    | true =>
      simp only [hkill]
      exact under_note
    | false =>
      simp only [hkill, Bool.false_eq_true, if_false, PaperOms.paperSubmit, under_note]
      tauto

/-- Before its call a cancel is stored on paper only. -/
theorem under_beforeCall_cancel {oms : PaperOms} {cmd : ExecCommand} {env : Circumstances}
    {venue : Bool} (hkind : cmd.commandKind = .cancel) :
    (oms.beforeCall cmd env venue).1.store.Under sid coid ↔ oms.store.Under sid coid
      ∧ (venue = false → ∀ id ∈ cmd.explicitId, id = coid.text → cmd.strategyId = sid.text) := by
  have hid (id : String) : (⟨id⟩ : ClientOrderId) = coid ↔ id = coid.text :=
    ⟨fun h ↦ congrArg ClientOrderId.text h, fun h ↦ by rw [h]⟩
  cases hexplicit : cmd.explicitId with
  | none =>
    cases venue <;> simp [PaperOms.beforeCall, PaperOms.handleAsync, PaperOms.handleCancel,
      hkind, hexplicit]
  | some id =>
    cases venue <;> simp [PaperOms.beforeCall, PaperOms.handleAsync, PaperOms.handleCancel,
      hkind, hexplicit, under_note, hid]

omit [DecimalWidth] [Rendering] in
theorem under_afterCall {h : Handler} {oms : PaperOms} {result : Except String Unit} :
    (h.afterCall oms result).store.Under sid coid ↔ oms.store.Under sid coid
      ∧ (h.notes result = true → h.coid = coid → h.cmd.strategyId = sid.text) := by
  obtain ⟨call, cmd, coid', now, called⟩ := h
  cases call <;> cases result <;> simp [Handler.afterCall, Handler.notes, under_note]

omit [DecimalWidth] in
theorem under_publishVenueReport {store : SqliteEventStore} {now : UnixNanos}
    {r : ExecutionReport} : (publishVenueReport store now r).1.Under sid coid
      ↔ store.Under sid coid ∧ (r.clientOrderId = coid → sid = ⟨"venue"⟩) := by
  refine under_append.trans (and_congr_right fun _ ↦ imp_congr_right fun _ ↦ ?_)
  exact eq_comm

omit [DecimalWidth] in
theorem under_seedReport {store : SqliteEventStore} {now : UnixNanos}
    {row : ExecutionReport × UnixNanos} : (seedReport now store row).Under sid coid
      ↔ store.Under sid coid
        ∧ (row.1.clientOrderId = coid → sid = ⟨"venue"⟩ ∧ row.1.isAccepted = false) := by
  obtain ⟨r, ts⟩ := row
  unfold seedReport
  rw [under_publishVenueReport]
  cases r with
  | accepted id v =>
    simp only [under_append, ExecutionReport.isAccepted, ExecutionReport.clientOrderId]
    -- the two strategies differ
    have hne : sid = ⟨"venue"⟩ → (⟨"reconcile"⟩ : StrategyId) ≠ sid := by
      rintro rfl
      decide
    constructor
    · rintro ⟨⟨hold, hreconcile⟩, hvenue⟩
      exact ⟨hold, fun h ↦ absurd (hreconcile h) (hne (hvenue h))⟩
    · rintro ⟨hold, hnone⟩
      exact ⟨⟨hold, fun h ↦ absurd (hnone h).2 (by simp)⟩, fun h ↦ (hnone h).1⟩
  | _ => simp [ExecutionReport.isAccepted]

omit [DecimalWidth] in
theorem under_reconcileOnStart {store : SqliteEventStore} {now : UnixNanos}
    {rows : List (ExecutionReport × UnixNanos)} :
    (reconcileOnStart store now rows).1.Under sid coid ↔ store.Under sid coid
      ∧ ∀ row ∈ rows, row.1.clientOrderId = coid → coid ∉ localOpenClientIds store →
        sid = ⟨"venue"⟩ ∧ row.1.isAccepted = false := by
  set missing := (rows.map fun r ↦ r.1.clientOrderId).toFinset \ localOpenClientIds store
    with hmissing
  have hfold (s : SqliteEventStore) (row : ExecutionReport × UnixNanos) :
      (if row.1.clientOrderId ∈ missing then seedReport now s row else s).Under sid coid
        ↔ s.Under sid coid ∧ (row.1.clientOrderId ∈ missing → row.1.clientOrderId = coid →
          sid = ⟨"venue"⟩ ∧ row.1.isAccepted = false) := by
    split_ifs with hrow
    · rw [under_seedReport, imp_iff_right hrow]
    · exact (and_iff_left fun h ↦ absurd h hrow).symm
  refine (foldl_iff_forall (I := fun s : SqliteEventStore ↦ s.Under sid coid) hfold
    store rows).trans
    (and_congr_right fun _ ↦ forall₂_congr fun row hrow ↦ ?_)
  -- every row that is met names an order of the venue
  have hmem : row.1.clientOrderId ∈ (rows.map fun r ↦ r.1.clientOrderId).toFinset :=
    List.mem_toFinset.mpr (List.mem_map_of_mem hrow)
  rw [hmissing, Finset.mem_sdiff, and_iff_right hmem]
  constructor
  · intro h hid hopen
    exact h (hid ▸ hopen) hid
  · intro h hopen hid
    exact h hid (hid ▸ hopen)

/-- **One step.** The rows of the order stay under the strategy exactly when the step keeps to
it. -/
theorem under_step {a : DeskStep} : (d.step conn a).oms.store.Under sid coid
      ↔ d.oms.store.Under sid coid ∧ KeepsTo sid coid d a := by
  cases a with
  | command cmd env venue =>
    by_cases hfree : d.handler = none
    · have hstore : (d.step conn (.command cmd env venue)).oms
          = (d.oms.beforeCall cmd env venue).1 := by simp [step, hfree]
      simp only [hstore, KeepsTo, hfree, true_imp_iff]
      cases hkind : cmd.commandKind with
      | submit => exact under_beforeCall_submit hkind
      | cancel => exact under_beforeCall_cancel hkind
      | unknown =>
        have hsame : (d.oms.beforeCall cmd env venue).1 = d.oms := by
          cases venue <;> simp [PaperOms.beforeCall, PaperOms.handleAsync, hkind]
        rw [hsame]
        exact (and_iff_left trivial).symm
    · have hbusy : d.step conn (.command cmd env venue) = d := by
        simp [step, Option.isSome_iff_ne_none.mpr hfree]
      rw [hbusy]
      exact (and_iff_left fun h ↦ absurd h hfree).symm
  | request fates =>
    have hstore : (d.step conn (.request fates)).oms = d.oms := by
      rcases hd : d.handler with _ | ⟨call, cmd, coid, now, _ | result⟩ <;> simp [step, hd]
    rw [hstore]
    exact (and_iff_left trivial).symm
  | finish =>
    rcases hd : d.handler with _ | ⟨call, cmd, coid', now, _ | result⟩
    · simp [step, hd, KeepsTo]
    · simp [step, hd, KeepsTo]
    · simp only [step, hd, KeepsTo, Option.mem_some, forall_eq']
      exact under_afterCall
  | killSwitch engaged => exact (and_iff_left trivial).symm
  | report r now => exact under_publishVenueReport
  | reconcile now rows => exact under_reconcileOnStart

/-- **Complete rebuild.** In every state of a run the strategy gets back the whole log of the order
exactly when every step of the run that stores something of the order stores it under the
strategy. -/
theorem complete_iff_keepsTo (conn : Connection) (steps : List DeskStep) (sid : StrategyId)
    (coid : ClientOrderId) :
    (∀ front, front <+: steps → Complete sid coid (front.foldl (Desk.step conn) .start))
      ↔ Along (Desk.step conn) (KeepsTo sid coid) .start steps := by
  simp only [complete_iff_under]
  refine forall_prefix_iff_along (I := fun d : Desk ↦ d.oms.store.Under sid coid) ?_ ?_
  · intro d a hd
    rw [under_step]
    exact and_iff_right hd
  · intro r hr
    cases hr

end General

section Instances

open scoped RustDecimal BlankText

/-- The order is submitted through the venue by the strategy `default`, and accepted there. The
acceptance is stored under `venue`, and the strategy does not get it back. -/
theorem not_complete_of_report :
    ¬ ∀ (conn : Connection) (steps front rest : List DeskStep) (cmd : ExecCommand)
      (env : Circumstances) (venue : Bool),
      steps = front ++ .command cmd env venue :: rest → cmd.commandKind = .submit →
      Complete ⟨cmd.strategyId⟩
        ((front.foldl (Desk.step conn) .start).oms.resolveId cmd env.cursorFails).1
        (steps.foldl (Desk.step conn) .start) := by
  intro h
  have hcomplete := h connected acceptedSteps [] _ _ _ _ rfl (by decide)
  rw [complete_iff_under] at hcomplete
  revert hcomplete
  unfold SqliteEventStore.Under
  decide +kernel

end Instances

end Desk

end ExecSvc

end Coinext
