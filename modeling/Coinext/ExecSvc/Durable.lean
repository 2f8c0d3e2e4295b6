import Coinext.ExecSvc.Oms
import Coinext.Model.OrderLog

/-!
# The durable log and the published stream

On paper every command writes twice: to the log and to the stream. A command touches at most one
order, and in one of three ways: its submit is denied, it is accepted and filled, or it is canceled
(`Touch`). What the log and the stream hold of an order is then a function of how it was touched,
command by command (`replay_run`, `lifecycle_run`).

The fill of a submit goes to the stream only. The log and the stream agree about an order exactly
when none of its submits took effect, and a restart finds an order open whose fill was published
exactly when its last command was such a submit (`agree_iff`).
-/

namespace Coinext.ExecSvc

/-! ## How a command touches an order -/

/-- What a command does to its order. -/
inductive Touch where
  | denied | filled | canceled
deriving DecidableEq

/-- The order a step touches, and how. -/
def PaperOms.touch (oms : PaperOms) : ServiceStep → Option (ClientOrderId × Touch)
  | .command cmd env => match cmd.commandKind with
    | .submit =>
      some ((oms.resolveId cmd env.cursorFails).1, if oms.kill then .denied else .filled)
    | .cancel => cmd.explicitId.map fun id ↦ (⟨id⟩, .canceled)
    | .unknown => none
  | .killSwitch _ => none

/-- The entries of one order. -/
def ofOrder {α : Type} (id : ClientOrderId) (l : List (ClientOrderId × α)) : List α :=
  (l.filter (·.1 = id)).map Prod.snd

section Touches

variable [DecimalWidth] [Rendering]

/-- A run on paper. -/
def paperRun (steps : List ServiceStep) : Service Unit := steps.foldl (Service.step none) .onPaper

/-- The touches of the steps, one after the other. -/
def touchesFrom (p : Service Unit) : List ServiceStep → List (ClientOrderId × Touch)
  | [] => []
  | a :: steps => (p.oms.touch a).toList ++ touchesFrom (p.step none a) steps

/-- How the steps touch one order. -/
def touches (steps : List ServiceStep) (id : ClientOrderId) : List Touch :=
  ofOrder id (touchesFrom .onPaper steps)

end Touches

/-! ## Statuses -/

/-- The statuses from which the transition table leads to a status in one event. -/
def leadsTo : OrderStatus → List OrderStatus
  | .submitted | .denied => [.initialized]
  | .accepted => [.submitted]
  | .filled => [.accepted, .partiallyFilled, .pendingUpdate]
  | .canceled => [.accepted, .partiallyFilled, .pendingCancel]
  | _ => []

/-- The status after an event that leads to `target`; from elsewhere the event is refused. -/
def advance (s target : OrderStatus) : OrderStatus := if s ∈ leadsTo target then target else s

/-- The status a published kind of event leads to. -/
def kindStatus : String → Option OrderStatus
  | "submitted" => some .submitted
  | "accepted" => some .accepted
  | "filled" => some .filled
  | "canceled" => some .canceled
  | "denied" => some .denied
  | _ => none

/-- The order a published event is about and the status it leads to. -/
def lifecycle (e : Json) : Option (ClientOrderId × OrderStatus) :=
  match e.getStr "client_order_id", (e.getStr "kind").bind kindStatus with
  | some id, some s => some (⟨id⟩, s)
  | _, _ => none

/-- The status of an order by the published stream. -/
def publishedStatus (published : List Json) (id : ClientOrderId) : OrderStatus :=
  (ofOrder id (published.filterMap lifecycle)).foldl advance .initialized

/-- A fill of the order was published. -/
def FillPublished (published : List Json) (id : ClientOrderId) : Prop :=
  (id, .filled) ∈ published.filterMap lifecycle

/-- What a touch writes to the log. -/
def Touch.logged : Touch → List OrderStatus
  | .denied => [.denied]
  | .filled => [.submitted, .accepted]
  | .canceled => [.canceled]

/-- What a touch publishes. -/
def Touch.streamed : Touch → List OrderStatus
  | .denied => [.denied]
  | .filled => [.submitted, .accepted, .filled]
  | .canceled => [.canceled]

/-- The status an event without a fill leads to. -/
def eventStatus : OrderEvent → Option OrderStatus
  | .submitted _ => some .submitted
  | .accepted .. => some .accepted
  | .denied .. => some .denied
  | .canceled _ => some .canceled
  | _ => none

theorem status_applied [DecimalWidth] {ev : OrderEvent} {target : OrderStatus}
    (h : eventStatus ev = some target) (o : Order) :
    (o.applied ev).status = advance o.status target := by
  have hrow : ev.allowedFrom = leadsTo target := by
    cases ev <;> cases h <;> rfl
  by_cases hmem : o.status ∈ ev.allowedFrom
  · rw [advance, if_pos (hrow ▸ hmem), Order.applied, Order.apply_of_mem hmem]
    cases ev <;> cases h <;> rfl
  · obtain ⟨e, he⟩ := Order.apply_of_notMem hmem
    rw [advance, if_neg (hrow ▸ hmem), Order.applied, he]

/-! ## What a step writes -/

section Steps

variable [DecimalWidth] [Rendering] (p : Service Unit) (a : ServiceStep) (id : ClientOrderId)

omit [DecimalWidth] [Rendering] in
theorem ofOrder_append {α : Type} (l l' : List (ClientOrderId × α)) :
    ofOrder id (l ++ l') = ofOrder id l ++ ofOrder id l' := by
  simp [ofOrder]

theorem replay_step : ((p.step none a).oms.store.replay id).map eventStatus
    = (p.oms.store.replay id).map eventStatus
      ++ ((ofOrder id (p.oms.touch a).toList).flatMap Touch.logged).map some := by
  cases a with
  | killSwitch engaged => simp [Service.step, PaperOms.touch, ofOrder]
  | command cmd env =>
    simp only [Service.step, PaperOms.handleAsync, PaperOms.touch]
    cases cmd.commandKind with
    | unknown => simp [ofOrder]
    | cancel =>
      simp only [PaperOms.handleCancel]
      cases cmd.explicitId with
      | none => simp [ofOrder]
      | some text =>
        by_cases hid : id = ⟨text⟩
        · subst hid
          simp [ofOrder, Touch.logged, eventStatus]
        · simp [ofOrder, hid, Ne.symm hid]
    | submit =>
      simp only [PaperOms.handleSubmit]
      by_cases hid : id = (p.oms.resolveId cmd env.cursorFails).1
      · cases hkill : p.oms.kill <;>
          simp [ofOrder, PaperOms.paperSubmit, ← hid, Touch.logged, eventStatus]
      · cases hkill : p.oms.kill <;>
          simp [ofOrder, PaperOms.paperSubmit, hid, Ne.symm hid]

theorem lifecycle_step : (p.step none a).published.filterMap lifecycle
    = p.published.filterMap lifecycle
      ++ (p.oms.touch a).toList.flatMap fun x ↦ x.2.streamed.map (x.1, ·) := by
  cases a with
  | killSwitch engaged => simp [Service.step, PaperOms.touch]
  | command cmd env =>
    simp only [Service.step, PaperOms.handleAsync, PaperOms.touch, List.filterMap_append]
    congr 1
    cases cmd.commandKind with
    | unknown => rfl
    | cancel =>
      simp only [PaperOms.handleCancel]
      cases cmd.explicitId with
      | none => rfl
      | some text => rfl
    | submit =>
      simp only [PaperOms.handleSubmit]
      cases p.oms.kill with
      | true => rfl
      | false => rfl

/-! ## What a run writes -/

theorem replay_foldl (steps : List ServiceStep) :
    ((steps.foldl (Service.step none) p).oms.store.replay id).map eventStatus
      = (p.oms.store.replay id).map eventStatus
        ++ ((ofOrder id (touchesFrom p steps)).flatMap Touch.logged).map some := by
  induction steps generalizing p with
  | nil => simp [touchesFrom, ofOrder]
  | cons a steps ih =>
    rw [List.foldl_cons, ih, replay_step, touchesFrom, ofOrder_append, List.flatMap_append,
      List.map_append, List.append_assoc]

theorem lifecycle_foldl (steps : List ServiceStep) :
    (steps.foldl (Service.step none) p).published.filterMap lifecycle
      = p.published.filterMap lifecycle
        ++ (touchesFrom p steps).flatMap fun x ↦ x.2.streamed.map (x.1, ·) := by
  induction steps generalizing p with
  | nil => simp [touchesFrom]
  | cons a steps ih =>
    rw [List.foldl_cons, ih, lifecycle_step, touchesFrom, List.flatMap_append, List.append_assoc]

omit [DecimalWidth] [Rendering] in
theorem ofOrder_streamed (l : List (ClientOrderId × Touch)) :
    ofOrder id (l.flatMap fun x ↦ x.2.streamed.map (x.1, ·))
      = (ofOrder id l).flatMap Touch.streamed := by
  induction l with
  | nil => rfl
  | cons x l ih =>
    rw [List.flatMap_cons, ofOrder_append, ih]
    by_cases hid : x.1 = id
    · have hx : ofOrder id (x.2.streamed.map (x.1, ·)) = x.2.streamed := by
        simp [ofOrder, hid, List.filter_map, Function.comp_def]
      rw [hx]
      simp [ofOrder, hid]
    · have hx : ofOrder id (x.2.streamed.map (x.1, ·)) = [] := by
        simp [ofOrder, hid, List.filter_map, Function.comp_def]
      rw [hx]
      simp [ofOrder, hid]

/-- **What the log holds.** The events of an order are those its touches write. -/
theorem replay_run (steps : List ServiceStep) :
    ((paperRun steps).oms.store.replay id).map eventStatus
      = ((touches steps id).flatMap Touch.logged).map some := by
  have hstart : Service.onPaper.oms.store.replay id = [] := SqliteEventStore.replay_empty id
  rw [paperRun, replay_foldl, hstart, touches, List.map_nil, List.nil_append]

/-- **What the stream holds.** The published events of an order are those its touches publish. -/
theorem lifecycle_run (steps : List ServiceStep) :
    ofOrder id ((paperRun steps).published.filterMap lifecycle)
      = (touches steps id).flatMap Touch.streamed := by
  rw [paperRun, lifecycle_foldl, ofOrder_append, ofOrder_streamed]
  rfl

end Steps

/-! ## Folding what was written -/

theorem status_applyAll [DecimalWidth] {events : List OrderEvent} {statuses : List OrderStatus}
    (h : events.map eventStatus = statuses.map some) (o : Order) :
    (o.applyAll events).status = statuses.foldl advance o.status := by
  induction events generalizing statuses o with
  | nil =>
    cases statuses with
    | nil => rfl
    | cons t statuses => cases h
  | cons ev events ih =>
    cases statuses with
    | nil => cases h
    | cons t statuses =>
      obtain ⟨hev, hevents⟩ := List.cons_eq_cons.mp h
      have hfold := ih hevents (o.applied ev)
      rw [status_applied hev] at hfold
      exact hfold

theorem isOpen_iff {events : List OrderEvent} {statuses : List OrderStatus}
    (h : events.map eventStatus = statuses.map some) :
    isOpen events = true ↔ ∃ s ∈ statuses.getLast?, s = .submitted ∨ s = .accepted := by
  rcases List.eq_nil_or_concat events with rfl | ⟨front, ev, rfl⟩
  · have hnil : statuses = [] := by simpa using h.symm
    simp [hnil]
  · rcases List.eq_nil_or_concat statuses with rfl | ⟨front', t, rfl⟩
    · simp at h
    · simp only [List.concat_eq_append, List.map_append, List.map_singleton] at h ⊢
      have ht : eventStatus ev = some t := by
        have := (List.append_inj' h rfl).2
        simpa using this
      rw [isOpen_append, List.getLast?_concat]
      cases ev <;> cases ht <;> simp [opens]

theorem foldl_advance_eq_self {s : OrderStatus} (hs : s.isTerminal = true) (l : List OrderStatus) :
    l.foldl advance s = s := by
  induction l with
  | nil => rfl
  | cons t l ih =>
    have hstay : advance s t = s := by
      cases s <;> cases hs <;> cases t <;> rfl
    rw [List.foldl_cons, hstay, ih]

theorem foldl_advance_accepted (ts : List Touch) :
    (ts.flatMap Touch.logged).foldl advance .accepted = .accepted
      ∨ (ts.flatMap Touch.logged).foldl advance .accepted = .canceled := by
  induction ts with
  | nil => exact .inl rfl
  | cons t ts ih =>
    rw [List.flatMap_cons, List.foldl_append]
    cases t with
    | denied => exact ih
    | filled => exact ih
    | canceled => exact .inr (foldl_advance_eq_self rfl _)

/-- The log and the stream of an order agree exactly when every submit that went through came after
a denial, and was refused. -/
theorem foldl_logged_eq_iff (ts : List Touch) :
    (ts.flatMap Touch.logged).foldl advance .initialized
        = (ts.flatMap Touch.streamed).foldl advance .initialized
      ↔ ∀ front back, ts = front ++ .filled :: back → .denied ∈ front := by
  induction ts with
  | nil => simp
  | cons t ts ih =>
    rw [List.flatMap_cons, List.flatMap_cons, List.foldl_append, List.foldl_append]
    cases t with
    | denied =>
      -- a denied order stays denied in both
      have hdenied (l : List OrderStatus) : l.foldl advance .denied = .denied :=
        foldl_advance_eq_self rfl l
      refine iff_of_true ((hdenied _).trans (hdenied _).symm) ?_
      intro front back hsplit
      cases front with
      | nil => cases hsplit
      | cons x front =>
        obtain ⟨rfl, -⟩ := List.cons_eq_cons.mp hsplit
        exact List.mem_cons_self
    | filled =>
      -- the log says accepted or canceled, the stream says filled
      refine iff_of_false ?_ fun h ↦ List.not_mem_nil (h [] ts rfl)
      have hstream : (ts.flatMap Touch.streamed).foldl advance
          ([OrderStatus.submitted, .accepted, .filled].foldl advance .initialized) = .filled :=
        foldl_advance_eq_self rfl _
      intro heq
      rcases foldl_advance_accepted ts with hlog | hlog
      · exact absurd ((hlog.symm.trans heq).trans hstream) (by decide)
      · exact absurd ((hlog.symm.trans heq).trans hstream) (by decide)
    | canceled =>
      -- a cancel of an order that was never submitted is refused by both
      refine ih.trans ⟨fun h front back hsplit ↦ ?_, fun h front back hsplit ↦ ?_⟩
      · cases front with
        | nil => cases hsplit
        | cons x front =>
          obtain ⟨-, hsplit⟩ := List.cons_eq_cons.mp hsplit
          exact List.mem_cons_of_mem _ (h front back hsplit)
      · have hmem := h (.canceled :: front) back (by rw [hsplit]; rfl)
        simpa using hmem

theorem getLast?_logged (ts : List Touch) :
    (∃ s ∈ (ts.flatMap Touch.logged).getLast?, s = .submitted ∨ s = .accepted)
      ↔ ts.getLast? = some .filled := by
  rcases List.eq_nil_or_concat ts with rfl | ⟨front, t, rfl⟩
  · simp
  · rw [List.concat_eq_append, List.flatMap_append, List.getLast?_concat]
    cases t <;> simp [Touch.logged]

/-- A fill was published exactly for the orders of which a submit went through. -/
theorem fillPublished_iff [DecimalWidth] [Rendering] (steps : List ServiceStep)
    (id : ClientOrderId) :
    FillPublished (paperRun steps).published id ↔ .filled ∈ touches steps id := by
  have hmem : FillPublished (paperRun steps).published id
      ↔ .filled ∈ ofOrder id ((paperRun steps).published.filterMap lifecycle) := by
    simp [FillPublished, ofOrder]
  rw [hmem, lifecycle_run, List.mem_flatMap]
  constructor
  · rintro ⟨t, ht, hfilled⟩
    cases t with
    | filled => exact ht
    | denied => simp [Touch.streamed] at hfilled
    | canceled => simp [Touch.streamed] at hfilled
  · exact fun h ↦ ⟨_, h, by simp [Touch.streamed]⟩

/-- The log and the stream give every order the same status, and a restart finds no order open
whose fill was published. -/
def Agree [DecimalWidth] (p : Service Unit) : Prop :=
  (∀ (id : ClientOrderId) (o : Order), o.IsNew →
    (o.applyAll (p.oms.store.replay id)).status = publishedStatus p.published id)
  ∧ ∀ id, FillPublished p.published id → id ∉ localOpenClientIds p.oms.store

/-- **The durable log and the published stream.** They agree after a run exactly when every submit
that went through came after a denial of its own id, and was not the last command of the id. -/
theorem agree_iff [DecimalWidth] [Rendering] (steps : List ServiceStep) :
    Agree (paperRun steps) ↔ ∀ id,
      (∀ front back, touches steps id = front ++ .filled :: back → .denied ∈ front)
        ∧ (touches steps id).getLast? ≠ some .filled := by
  have hstatus (id : ClientOrderId) (o : Order) (ho : o.IsNew) :
      (o.applyAll ((paperRun steps).oms.store.replay id)).status
          = publishedStatus (paperRun steps).published id
        ↔ ∀ front back, touches steps id = front ++ .filled :: back → .denied ∈ front := by
    have hinit : o.status = .initialized := by
      rw [ho]
      rfl
    rw [status_applyAll (replay_run id steps), hinit, publishedStatus, lifecycle_run]
    exact foldl_logged_eq_iff _
  have hopen (id : ClientOrderId) :
      id ∈ localOpenClientIds (paperRun steps).oms.store
        ↔ (touches steps id).getLast? = some .filled := by
    rw [mem_localOpenClientIds, isOpen_iff (replay_run id steps), getLast?_logged]
  constructor
  · rintro ⟨hagree, hrestart⟩ id
    refine ⟨?_, fun hlast ↦ ?_⟩
    · have hnew : (Order.new ⟨""⟩ id ⟨⟨""⟩, ⟨""⟩⟩ .buy .market ⟨0, 0⟩ none none .gtc {} 0).IsNew :=
        Order.isNew_new
      exact (hstatus id _ hnew).mp (hagree id _ hnew)
    · have hfilled := (fillPublished_iff steps id).mpr (List.mem_of_getLast? hlast)
      exact hrestart id hfilled ((hopen id).mpr hlast)
  · intro h
    refine ⟨fun id o ho ↦ (hstatus id o ho).mpr (h id).1, fun id _ hlocal ↦ ?_⟩
    exact (h id).2 ((hopen id).mp hlocal)

/-! ## One submit -/

section Instances

open scoped RustDecimal BlankText

/-- A submit of one unit under the id `a`. -/
def submitOne : ExecCommand where
  kind := "SubmitMarket"
  qty := some (.finite 1)
  clientOrderId := some "a"

/-- After a single submit the log says accepted and the stream says filled. -/
theorem not_agree_of_submit : ¬ ∀ steps, Agree (paperRun steps) := by
  intro h
  have hnew : (Order.new ⟨"default"⟩ ⟨"a"⟩ ⟨⟨"BTCUSDT"⟩, ⟨"BINANCE"⟩⟩ .buy .market ⟨1, 0⟩ none none
      .gtc {} 0).IsNew := rfl
  have heq := (h [.command submitOne { now := 1 }]).1 ⟨"a"⟩ _ hnew
  rw [SqliteEventStore.replay_eq] at heq
  revert heq
  decide

end Instances

end Coinext.ExecSvc
