import Coinext.ExecSvc.Ambiguity
import Coinext.Support.Run

/-!
# The desk

Commands are handled one after the other, and a handler that calls the venue awaits the answer. The
pump of venue reports runs meanwhile, so what a handler notes before its call and what it notes
behind it are separate writes to the log. `PaperOms.beforeCall`, `Handler.call` and
`Handler.afterCall` are the three parts of a handler, and `handleAsync_parts` puts them together
again.

`Desk` is the service with the handler it is in, the ids the exchange knows, and the truth about the
orders that were submitted. The truth about an order changes with a report that names the order. It
also changes when the exchange processes a request to cancel the order, whether or not a report of
that ever names it. A run of the desk takes the parts of the handlers, the reports and the passes of
reconciliation in any order.
-/

namespace Coinext.ExecSvc

/-! ## A request that may not be repeated -/

/-- What arrives of the answer to a request that may not be repeated, if it is processed among as
many attempts. -/
def soleAnswer : ℕ → List Fate → Option Reply
  | 0, _ => none
  | _ + 1, [] => none
  | _ + 1, .processed reply :: _ => some reply
  | n + 1, .unprocessed refusal :: fates => if refusal.limited then soleAnswer n fates else none

@[simp] theorem soleAnswer_nil (n : ℕ) : soleAnswer n [] = none := by
  cases n <;> rfl

def Fate.isProcessed : Fate → Bool
  | .processed _ => true
  | .unprocessed _ => false

/-- The fates a call has used up. -/
def usedUp (before after : List Fate) : List Fate := before.take (before.length - after.length)

theorem usedUp_append (used rest : List Fate) : usedUp (used ++ rest) rest = used := by
  simp [usedUp]

theorem Refusal.limited_attempt (refusal : Refusal) :
    refusal.attempt.limited = refusal.limited := by
  cases refusal with
  | serverError i body =>
    have hlt := i.isLt
    simp only [attempt, Attempt.limited, limited, decide_eq_false_iff_not]
    omega
  | turnedDown i body =>
    have hlt := i.isLt
    simp only [attempt, Attempt.limited, limited, decide_eq_decide, Fin.ext_iff]
    change 400 + (i : ℕ) = 429 ∨ _ ↔ (i : ℕ) = 18 ∨ (i : ℕ) = 29
    omega
  | _ => rfl

theorem Reply.limited_attempt (reply : Reply) : (reply.attempt 200 "").limited = false := by
  cases reply with
  | serverError i body =>
    have hlt := i.isLt
    simp only [attempt, Attempt.limited, decide_eq_false_iff_not]
    omega
  | _ => rfl

section Loop

variable (c : RestClient Exchange) (req : RestRequest)

/-- **What a call comes to that may not be repeated.** It is a success exactly when the answer to
the request that is processed arrives, and a processed request is among those it has made exactly
when there is such an answer. -/
theorem attemptsFrom_of_sole (hidem : req.idempotent = false) (hauth : c.authorize req = .ok ())
    (hwire : c.transport = Exchange.transport) (hid : Exchange.orderId req = none)
    {fuel n : ℕ} (hfuel : n + fuel = c.maxRetries + 1) (s : Exchange) :
    ((∃ r, (c.attemptsFrom req fuel n s).1 = .ok r) ↔ soleAnswer fuel s.fates = some .intact)
      ∧ ∃ used, s.fates = used ++ (c.attemptsFrom req fuel n s).2.fates
        ∧ (used.any Fate.isProcessed = true ↔ (soleAnswer fuel s.fates).isSome = true) := by
  induction fuel generalizing n s with
  | zero => exact ⟨by simp [RestClient.attemptsFrom, soleAnswer], [], rfl, by simp [soleAnswer]⟩
  | succ fuel ih =>
    rw [c.attemptsFrom_succ req (c.conclude_of_not_idempotent req hidem) hauth (by omega), hwire]
    cases hfates : s.fates with
    | nil =>
      have hnothing : Exchange.transport req s = (.failed "connection refused", s) := by
        simp [Exchange.transport, hfates]
      rw [hnothing, if_neg (by simp [Attempt.limited])]
      exact ⟨by simp [Attempt.result], [], hfates.symm, by simp⟩
    | cons fate fates =>
      cases fate with
      | unprocessed refusal =>
        have hrefused :
            Exchange.transport req s = (refusal.attempt, { s with fates := fates }) := by
          simp [Exchange.transport, hfates]
        obtain ⟨e, he⟩ := refusal.result_attempt
        rw [hrefused, refusal.limited_attempt, soleAnswer]
        by_cases hagain : refusal.limited = true ∧ 0 < fuel
        · rw [if_pos hagain, if_pos hagain.1]
          obtain ⟨hok, used, hused, hprocessed⟩ :=
            ih (n := n + 1) (by omega) { s with fates := fates }
          refine ⟨hok, .unprocessed refusal :: used, ?_, ?_⟩
          · exact congrArg (Fate.unprocessed refusal :: ·) hused
          · rw [List.any_cons, Fate.isProcessed, Bool.false_or, hprocessed]
        · -- the call ends without an answer
          have hnone : (if refusal.limited = true then soleAnswer fuel fates else none) = none := by
            split_ifs with hlimited
            · obtain rfl : fuel = 0 := Nat.eq_zero_of_not_pos fun h ↦ hagain ⟨hlimited, h⟩
              rfl
            · rfl
          rw [if_neg hagain, hnone]
          exact ⟨by simp [he], [.unprocessed refusal], rfl, by simp [Fate.isProcessed]⟩
      | processed reply =>
        have hprocessed : Exchange.transport req s = (reply.attempt 200 "", ⟨s.known, fates⟩) := by
          simp [Exchange.transport, hfates, Exchange.answer, Exchange.learn, hid]
        rw [hprocessed, reply.limited_attempt, if_neg (by simp), soleAnswer]
        refine ⟨?_, [.processed reply], rfl, by simp [Fate.isProcessed]⟩
        by_cases hintact : reply = .intact
        · simp [hintact, Reply.attempt, Attempt.result]
        · obtain ⟨e, he⟩ := Reply.result_attempt hintact 200 ""
          simp [he, hintact]

end Loop

/-- The contract a command names can be read. -/
def ExecCommand.Addressed (cmd : ExecCommand) : Prop :=
  ∃ iid, parseInstrumentId cmd.instrument = some iid

/-- **What a cancel comes to.** -/
theorem cancel_exchange (bridge : VenueBridge Exchange)
    (hwire : bridge.rest.transport = Exchange.transport) (cmd : ExecCommand) (id : String)
    (s : Exchange) :
    let called := bridge.cancel id cmd.symbol cmd.venue s
    (called.1 = .ok () ↔ (bridge.Ready ∧ cmd.Addressed)
        ∧ soleAnswer (bridge.rest.maxRetries + 1) s.fates = some .intact)
      ∧ ((usedUp s.fates called.2.fates).any Fate.isProcessed = true
        ↔ (bridge.Ready ∧ cmd.Addressed)
          ∧ (soleAnswer (bridge.rest.maxRetries + 1) s.fates).isSome = true) := by
  intro called
  simp only [called]
  have hnothing : (usedUp s.fates s.fates).any Fate.isProcessed = false := by simp [usedUp]
  cases hiid : parseInstrumentId cmd.instrument with
  | none =>
    have hcall : bridge.cancel id cmd.symbol cmd.venue s
        = (.error ("bad instrument id " ++ cmd.symbol ++ "." ++ cmd.venue), s) := by
      rw [ExecCommand.instrument] at hiid
      rw [VenueBridge.cancel, hiid]
    have hnot : ¬ cmd.Addressed := by simp [ExecCommand.Addressed, hiid]
    simp [hcall, hnothing, hnot]
  | some iid =>
    have haddressed : cmd.Addressed := ⟨iid, hiid⟩
    generalize hreq : Binance.buildCancelParams ⟨id⟩ iid = req
    have hcall : bridge.cancel id cmd.symbol cmd.venue s
        = VenueBridge.textResult (Binance.portResult (bridge.rest.send req s)) := by
      rw [ExecCommand.instrument] at hiid
      rw [VenueBridge.cancel, hiid, ← hreq]
      rfl
    have hready : bridge.Ready ↔ bridge.rest.acquire req.weight = .ok ()
        ∧ bridge.rest.authorize req = .ok () := by
      rw [← hreq]
      exact Iff.rfl
    rw [hcall, textResult_eq_ok_iff]
    change _ ∧ ((usedUp s.fates (bridge.rest.send req s).2.fates).any _ = true ↔ _)
    by_cases hcan : bridge.Ready
    · obtain ⟨hacquire, hauth⟩ := hready.mp hcan
      have hsend : bridge.rest.send req s
          = bridge.rest.attemptsFrom req (bridge.rest.maxRetries + 1) 0 s := by
        rw [RestClient.send, hacquire]
      obtain ⟨hok, used, hused, hprocessed⟩ := attemptsFrom_of_sole bridge.rest req
        (by rw [← hreq]; rfl) hauth hwire (by rw [← hreq]; rfl) (Nat.zero_add _) s
      rw [hsend, hok, ← hprocessed]
      have husedUp : usedUp s.fates (bridge.rest.attemptsFrom req (bridge.rest.maxRetries + 1) 0
          s).2.fates = used := by
        conv_lhs => rw [hused]
        exact usedUp_append _ _
      simp [husedUp, hcan, haddressed]
    · obtain ⟨e, he⟩ := send_of_not_ready bridge s fun h ↦ hcan (hready.mpr h)
      simp [he, hnothing, hcan]

/-! ## The parts of a handler -/

/-- The call a handler awaits. -/
inductive VenueCall where
  | submit | cancel
deriving DecidableEq

/-- A handler in the middle of a command. -/
structure Handler where
  call : VenueCall
  cmd : ExecCommand
  coid : ClientOrderId
  now : UnixNanos
  /-- What its call has come to, once it has. -/
  result : Option (Except String Unit) := none

section Parts

variable [DecimalWidth] [Rendering]

/-- What the handler of a command does before it calls the venue. Without a call this is all it
does. -/
def PaperOms.beforeCall (oms : PaperOms) (cmd : ExecCommand) (env : Circumstances)
    (venue : Bool) : PaperOms × Option Handler :=
  let whole := (oms.handleAsync cmd env (none : Option (VenueBridge Unit)) ()).oms
  if venue then
    match cmd.commandKind, cmd.explicitId with
    | .submit, _ =>
      if oms.kill then (whole, none)
      else
        let (coid, cursor) := oms.resolveId cmd env.cursorFails
        let oms := { oms with cursor := cursor, submits := oms.submits + 1 }
        (oms.note ⟨cmd.strategyId⟩ coid (.submitted env.now) env.now,
          some ⟨.submit, cmd, coid, env.now, none⟩)
    | .cancel, some id =>
      ({ oms with cancels := oms.cancels + 1 }, some ⟨.cancel, cmd, ⟨id⟩, env.now, none⟩)
    | _, _ => (whole, none)
  else (whole, none)

/-- The call of the handler. -/
def Handler.run {σ : Type} (h : Handler) (bridge : VenueBridge σ) (s : σ) :
    Except String Unit × σ :=
  match h.call with
  | .submit => h.cmd.submitTo bridge h.coid h.now s
  | .cancel => bridge.cancel h.coid.text h.cmd.symbol h.cmd.venue s

omit [DecimalWidth] [Rendering] in
/-- What the handler does once its call has ended. -/
def Handler.afterCall (h : Handler) (oms : PaperOms) (result : Except String Unit) : PaperOms :=
  match h.call, result with
  | .submit, .ok () => oms
  | .submit, .error e =>
    let oms := { oms with denials := oms.denials + 1 }
    oms.note ⟨h.cmd.strategyId⟩ h.coid (.rejected (.text e) h.now) h.now
  | .cancel, .ok () => oms.note ⟨h.cmd.strategyId⟩ h.coid (.pendingCancel h.now) h.now
  | .cancel, .error _ => oms

/-- **The parts make up the handler.** -/
theorem handleAsync_parts {σ : Type} (oms : PaperOms) (cmd : ExecCommand) (env : Circumstances)
    (bridge : VenueBridge σ) (s : σ) :
    let handled := oms.handleAsync cmd env (some bridge) s
    match oms.beforeCall cmd env true with
    | (oms', none) => handled.oms = oms' ∧ handled.world = s
    | (oms', some h) => handled.oms = h.afterCall oms' (h.run bridge s).1
        ∧ handled.world = (h.run bridge s).2 := by
  simp only [PaperOms.handleAsync, PaperOms.beforeCall, if_true]
  cases cmd.commandKind with
  | unknown => exact ⟨rfl, rfl⟩
  | submit =>
    simp only [PaperOms.handleSubmit]
    cases oms.kill with
    | true => exact ⟨rfl, rfl⟩
    | false =>
      simp only [Bool.false_eq_true, if_false, PaperOms.venueSubmit, Handler.run,
        Handler.afterCall]
      split <;> simp_all
  | cancel =>
    simp only [PaperOms.handleCancel]
    cases cmd.explicitId with
    | none => exact ⟨rfl, rfl⟩
    | some id =>
      simp only [Handler.run, Handler.afterCall]
      split <;> simp_all

end Parts

/-! ## The truth about an order -/

/-- An order as it stands at the venue: submitted until the venue has reported on it, or the
exchange has processed a request to cancel it. -/
structure TrueOrder where
  quantity : Quantity
  status : OrderStatus
  filled : Decimal
deriving DecidableEq

namespace TrueOrder

/-- The order once the venue has reported on it. -/
def after (t : TrueOrder) : ExecutionReport → TrueOrder
  | .accepted .. => { t with status := .accepted }
  | .pendingUpdate _ => { t with status := .pendingUpdate }
  | .modified .. => { t with status := if 0 < t.filled then .partiallyFilled else .accepted }
  | .pendingCancel _ => { t with status := .pendingCancel }
  | .fill f =>
    let filled := t.filled + f.lastQty.asDecimal
    { t with
      filled := filled
      status := if t.quantity.asDecimal ≤ filled then .filled else .partiallyFilled }
  | .rejected .. => { t with status := .rejected }
  | .canceled _ => { t with status := .canceled }
  | .expired _ => { t with status := .expired }

/-- The order once the exchange has processed a request to cancel it. -/
def canceled (t : TrueOrder) : TrueOrder :=
  if t.status.isTerminal then t else { t with status := .canceled }

/-- The order once its submit has failed and the exchange has not taken it. -/
def turnedDown (t : TrueOrder) : TrueOrder :=
  if t.status = .submitted then { t with status := .rejected } else t

end TrueOrder

/-! ## The desk -/

/-- How the service is connected to the exchange. -/
structure Connection where
  maxRetries : ℕ := 3
  capacity : ℕ := 1200
  creds : Credentials
  headerFromStr : String → Except String Unit

def Connection.bridge (conn : Connection) : VenueBridge Exchange :=
  ⟨exchangeClient conn.maxRetries conn.capacity conn.creds conn.headerFromStr⟩

/-- The service, the handler it is in, the ids the exchange knows, and the truth about the orders
submitted. -/
structure Desk where
  oms : PaperOms
  handler : Option Handler
  known : Finset String
  truth : ClientOrderId → Option TrueOrder

/-- What happens at the desk. -/
inductive DeskStep where
  /-- The next command is read, to be handled on paper or through the venue. -/
  | command (cmd : ExecCommand) (env : Circumstances) (venue : Bool)
  /-- The handler's call is made. Its requests meet the given fates. -/
  | request (fates : List Fate)
  /-- The handler goes on behind its call. -/
  | finish
  | killSwitch (engaged : Bool)
  | report (r : ExecutionReport) (now : UnixNanos)
  | reconcile (now : UnixNanos) (rows : List (ExecutionReport × UnixNanos))

namespace Desk

/-- Before the first command. -/
def start : Desk := ⟨.fresh, none, ∅, fun _ ↦ none⟩

/-- The truth with an order under an id that had none. -/
def place (truth : ClientOrderId → Option TrueOrder) (id : ClientOrderId) (t : TrueOrder) :
    ClientOrderId → Option TrueOrder :=
  if (truth id).isNone then Function.update truth id (some t) else truth

/-- The truth about an order, changed. -/
def revise (truth : ClientOrderId → Option TrueOrder) (id : ClientOrderId)
    (f : TrueOrder → TrueOrder) : ClientOrderId → Option TrueOrder :=
  Function.update truth id ((truth id).map f)

theorem revise_of_ne {truth : ClientOrderId → Option TrueOrder} {id id' : ClientOrderId}
    (h : id' ≠ id) (f : TrueOrder → TrueOrder) : revise truth id f id' = truth id' :=
  Function.update_of_ne h _ _

@[simp] theorem revise_self (truth : ClientOrderId → Option TrueOrder) (id : ClientOrderId)
    (f : TrueOrder → TrueOrder) : revise truth id f id = (truth id).map f :=
  Function.update_self ..

theorem revise_eq_self {truth : ClientOrderId → Option TrueOrder} {id : ClientOrderId}
    {f : TrueOrder → TrueOrder} (h : ∀ t ∈ truth id, f t = t) : revise truth id f = truth := by
  rw [revise, Function.update_eq_self_iff]
  cases htruth : truth id with
  | none => rfl
  | some t => exact congrArg some (h t htruth)

variable [DecimalWidth] [Rendering]

/-- The quantity of a submit. -/
def submittedQty (cmd : ExecCommand) : Quantity :=
  match quantityFromF64 cmd.qtyValue.maxZero orderPrecision with
  | .ok q => q
  | .error _ => Quantity.zero orderPrecision

/-- A submitted order: denied, on its way to the venue, or filled on paper. -/
def firstTruth (d : Desk) (cmd : ExecCommand) (venue : Bool) : TrueOrder :=
  if d.oms.kill then ⟨submittedQty cmd, .denied, 0⟩
  else if venue then ⟨submittedQty cmd, .submitted, 0⟩
  else ⟨submittedQty cmd, .filled, (submittedQty cmd).asDecimal⟩

def step (conn : Connection) (d : Desk) : DeskStep → Desk
  | .command cmd env venue =>
    -- the next command waits until the handler is done
    if d.handler.isSome then d
    else
      let (oms, handler) := d.oms.beforeCall cmd env venue
      { d with
        oms := oms
        handler := handler
        truth := match cmd.commandKind with
          | .submit =>
            place d.truth (d.oms.resolveId cmd env.cursorFails).1 (d.firstTruth cmd venue)
          | _ => d.truth }
  | .request fates =>
    match d.handler with
    | some h@⟨call, _, coid, _, none⟩ =>
      let (result, exchange) := h.run conn.bridge ⟨d.known, fates⟩
      { d with
        handler := some { h with result := some result }
        known := exchange.known
        truth := if call = .cancel ∧ (usedUp fates exchange.fates).any Fate.isProcessed
          then revise d.truth coid TrueOrder.canceled else d.truth }
    | _ => d
  | .finish =>
    match d.handler with
    | some h@⟨call, _, coid, _, some result⟩ =>
      { d with
        oms := h.afterCall d.oms result
        handler := none
        truth := match call, result with
          | .submit, .error _ =>
            if coid.text ∈ d.known then d.truth else revise d.truth coid TrueOrder.turnedDown
          | _, _ => d.truth }
    | _ => d
  | .killSwitch engaged => { d with oms := { d.oms with kill := engaged } }
  | .report r now =>
    { d with
      oms := { d.oms with store := (publishVenueReport d.oms.store now r).1 }
      truth := revise d.truth r.clientOrderId (·.after r) }
  | .reconcile now rows =>
    { d with oms := { d.oms with store := (reconcileOnStart d.oms.store now rows).1 } }

theorem step_command_request_finish (conn : Connection) (d : Desk) (hfree : d.handler = none)
    (cmd : ExecCommand) (env : Circumstances) (fates : List Fate) :
    let d' := [.command cmd env true, .request fates, .finish].foldl (Desk.step conn) d
    let handled := d.oms.handleAsync cmd env (some conn.bridge) ⟨d.known, fates⟩
    d'.oms = handled.oms ∧ d'.known = handled.world.known ∧ d'.handler = none := by
  have hparts := handleAsync_parts d.oms cmd env conn.bridge ⟨d.known, fates⟩
  have hfresh : ∀ h ∈ (d.oms.beforeCall cmd env true).2, h.result = none := by
    unfold PaperOms.beforeCall
    simp only [if_true]
    split
    · split_ifs <;> simp
    · simp
    · simp
  simp only [List.foldl_cons, List.foldl_nil, step, hfree, Option.isSome_none,
    Bool.false_eq_true, if_false]
  generalize d.oms.beforeCall cmd env true = parts at *
  obtain ⟨oms', _ | ⟨call, cmd', coid, now, result⟩⟩ := parts
  · exact ⟨hparts.1.symm, by rw [hparts.2], rfl⟩
  · obtain rfl : result = none := hfresh _ rfl
    exact ⟨hparts.1.symm, by rw [hparts.2], rfl⟩

end Desk

end Coinext.ExecSvc
