import Coinext.ExecSvc.Identity

/-!
# Ambiguous submits

An exchange accepts the first order it processes under a client order id and answers every later
one with status 400. What becomes of a request, and of the answer, is its `Fate`: it may not be
processed at all, and the answer may be lost, unreadable or replaced by a server error.

The retry loop cannot tell an order that was processed from one that was not. Once the answer to the
first order that was processed is gone, no later answer is a success, so the call fails and the
service notes a rejection for an order that is live. `noFalseRejection_iff` says when that happens.
-/

namespace Coinext.ExecSvc

/-! ## The exchange -/

/-- What arrives of an answer. -/
inductive Reply where
  | intact
  | lost (e : String)
  /-- The status arrives, and the body cannot be read. -/
  | unreadable (e : String)
  /-- A server error in its place, `500 + i`. -/
  | serverError (i : Fin 100) (body : String)
deriving DecidableEq

/-- How a request is turned away without being processed. -/
inductive Refusal where
  | lost (e : String)
  | unreadable (status : ℕ) (e : String)
  | serverError (i : Fin 100) (body : String)
  /-- A client error, `400 + i`: the request is rate limited, or not one the exchange takes. -/
  | turnedDown (i : Fin 100) (body : String)
deriving DecidableEq

/-- What becomes of a request. -/
inductive Fate where
  | processed (reply : Reply)
  | unprocessed (refusal : Refusal)
deriving DecidableEq

/-- The ids under which orders have been accepted, and the fates of the requests to come. -/
structure Exchange where
  known : Finset String
  fates : List Fate

/-- What the client sees of an answer. -/
def Reply.attempt (status : ℕ) (body : String) : Reply → Attempt
  | .intact => .response status body
  | .lost e => .failed e
  | .unreadable e => .unreadable status e
  | .serverError i body => .response (500 + i) body

def Refusal.attempt : Refusal → Attempt
  | .lost e => .failed e
  | .unreadable status e => .unreadable status e
  | .serverError i body => .response (500 + i) body
  | .turnedDown i body => .response (400 + i) body

namespace Exchange

/-- The id an order request is about. -/
def orderId (req : RestRequest) : Option String :=
  if req.method = .post then req.query.lookup "newClientOrderId" else none

/-- The status and body of the answer to a request. -/
def answer (s : Exchange) (req : RestRequest) : ℕ × String :=
  match orderId req with
  | some id => if id ∈ s.known then (400, "Duplicate order sent.") else (200, "")
  | none => (200, "")

/-- The ids known once a request has been processed. -/
def learn (s : Exchange) (req : RestRequest) : Finset String :=
  match orderId req with
  | some id => insert id s.known
  | none => s.known

/-- One request. When the fates run out, no request gets through. -/
def transport (req : RestRequest) (s : Exchange) : Attempt × Exchange :=
  match s.fates with
  | [] => (.failed "connection refused", s)
  | .unprocessed refusal :: fates => (refusal.attempt, { s with fates := fates })
  | .processed reply :: fates =>
    (reply.attempt (s.answer req).1 (s.answer req).2, ⟨s.learn req, fates⟩)

end Exchange

/-- A client that is connected to the exchange. -/
def exchangeClient (maxRetries capacity : ℕ) (creds : Credentials)
    (headerFromStr : String → Except String Unit) : RestClient Exchange where
  maxRetries := maxRetries
  capacity := capacity
  creds := creds
  headerFromStr := headerFromStr
  transport := Exchange.transport

/-! ## The first answer -/

/-- The request is repeated after it has been turned away like this. -/
def Refusal.repeats : Refusal → Bool
  | .lost _ => true
  | .unreadable .. => false
  | .serverError .. => true
  | .turnedDown i _ => i = 18 ∨ i = 29

/-- Any request is repeated after it has been turned away like this, for its rate. -/
def Refusal.limited : Refusal → Bool
  | .turnedDown i _ => i = 18 ∨ i = 29
  | _ => false

/-- What arrives of the answer to the first request that is processed, among as many attempts. -/
def firstAnswer : ℕ → List Fate → Option Reply
  | 0, _ => none
  | _ + 1, [] => none
  | _ + 1, .processed reply :: _ => some reply
  | n + 1, .unprocessed refusal :: fates => if refusal.repeats then firstAnswer n fates else none

@[simp] theorem firstAnswer_nil (n : ℕ) : firstAnswer n [] = none := by
  cases n <;> rfl

theorem Refusal.retryable_attempt (refusal : Refusal) :
    refusal.attempt.retryable = refusal.repeats := by
  cases refusal with
  | serverError i body =>
    have hlt := i.isLt
    simp only [attempt, Attempt.retryable, repeats, decide_eq_true_eq]
    omega
  | turnedDown i body =>
    have hlt := i.isLt
    simp only [attempt, Attempt.retryable, repeats, decide_eq_decide, Fin.ext_iff]
    change 400 + (i : ℕ) = 429 ∨ _ ↔ (i : ℕ) = 18 ∨ (i : ℕ) = 29
    omega
  | _ => rfl

theorem result_serverError (i : Fin 100) (body : String) :
    (Attempt.response (500 + i) body).result = .error (.http (500 + i) body) := by
  have hnot : ¬ (200 ≤ 500 + (i : ℕ) ∧ 500 + (i : ℕ) < 300) := by omega
  simp [Attempt.result, hnot]

theorem Refusal.result_attempt (refusal : Refusal) : ∃ e, refusal.attempt.result = .error e := by
  cases refusal with
  | lost e => exact ⟨_, rfl⟩
  | unreadable status e => exact ⟨_, rfl⟩
  | serverError i body => exact ⟨_, result_serverError i body⟩
  | turnedDown i body =>
    have hnot : ¬ (200 ≤ 400 + (i : ℕ) ∧ 400 + (i : ℕ) < 300) := by omega
    exact ⟨.http (400 + i) body, by simp [attempt, Attempt.result, hnot]⟩

/-- An answer that does not arrive intact is no success, whatever it was. -/
theorem Reply.result_attempt {reply : Reply} (h : reply ≠ .intact) (status : ℕ) (body : String) :
    ∃ e, (reply.attempt status body).result = .error e := by
  cases reply with
  | intact => exact absurd rfl h
  | lost e => exact ⟨_, rfl⟩
  | unreadable e => exact ⟨_, rfl⟩
  | serverError i body => exact ⟨_, result_serverError i body⟩

section Loop

variable (c : RestClient Exchange) (req : RestRequest) (id : String)

/-- Under an id the exchange knows, no attempt is a success. -/
theorem attemptsFrom_of_known (hidem : req.idempotent = true) (hauth : c.authorize req = .ok ())
    (hwire : c.transport = Exchange.transport) (hid : Exchange.orderId req = some id)
    {fuel n : ℕ} (hfuel : n + fuel = c.maxRetries + 1) {s : Exchange} (hknown : id ∈ s.known) :
    (∃ e, (c.attemptsFrom req fuel n s).1 = .error e)
      ∧ id ∈ (c.attemptsFrom req fuel n s).2.known := by
  induction fuel generalizing n s with
  | zero => exact ⟨⟨_, rfl⟩, hknown⟩
  | succ fuel ih =>
    rw [c.attemptsFrom_succ req (c.conclude_of_idempotent req hidem) hauth (by omega), hwire]
    -- the exchange forgets nothing, and answers 400 at best
    have hstep : id ∈ (Exchange.transport req s).2.known
        ∧ ∃ e, (Exchange.transport req s).1.result = .error e := by
      rw [Exchange.transport]
      split
      · exact ⟨hknown, _, rfl⟩
      · exact ⟨hknown, Refusal.result_attempt _⟩
      · rename_i reply fates _
        refine ⟨by simp [Exchange.learn, hid, hknown], ?_⟩
        by_cases hintact : reply = .intact
        · have hanswer : s.answer req = (400, "Duplicate order sent.") := by
            simp [Exchange.answer, hid, hknown]
          rw [hintact, hanswer]
          exact ⟨_, rfl⟩
        · exact Reply.result_attempt hintact _ _
    split
    · exact ih (by omega) hstep.1
    · exact ⟨hstep.2, hstep.1⟩

/-- **What a call comes to under a new id.** It is a success exactly when the answer to the first
order that is processed arrives; the order is live as soon as one is processed. -/
theorem attemptsFrom_of_new (hidem : req.idempotent = true) (hauth : c.authorize req = .ok ())
    (hwire : c.transport = Exchange.transport) (hid : Exchange.orderId req = some id)
    {fuel n : ℕ} (hfuel : n + fuel = c.maxRetries + 1) {s : Exchange} (hnew : id ∉ s.known) :
    ((∃ r, (c.attemptsFrom req fuel n s).1 = .ok r) ↔ firstAnswer fuel s.fates = some .intact)
      ∧ (id ∈ (c.attemptsFrom req fuel n s).2.known
        ↔ ∃ reply, firstAnswer fuel s.fates = some reply) := by
  induction fuel generalizing n s with
  | zero => simp [RestClient.attemptsFrom, firstAnswer, hnew]
  | succ fuel ih =>
    rw [c.attemptsFrom_succ req (c.conclude_of_idempotent req hidem) hauth (by omega), hwire]
    cases hfates : s.fates with
    | nil =>
      -- nothing gets through, now or later
      have hnothing : Exchange.transport req s = (.failed "connection refused", s) := by
        simp [Exchange.transport, hfates]
      have hrest := ih (n := n + 1) (by omega) hnew
      rw [hfates, firstAnswer_nil] at hrest
      rw [hnothing, firstAnswer_nil]
      split
      · exact hrest
      · simp [Attempt.result, hnew]
    | cons fate fates =>
      cases fate with
      | unprocessed refusal =>
        have hrefused :
            Exchange.transport req s = (refusal.attempt, { s with fates := fates }) := by
          simp [Exchange.transport, hfates]
        obtain ⟨e, he⟩ := refusal.result_attempt
        rw [hrefused, refusal.retryable_attempt, firstAnswer]
        by_cases hrepeats : refusal.repeats = true
        · rw [if_pos hrepeats]
          by_cases hmore : 0 < fuel
          · rw [if_pos ⟨hrepeats, hmore⟩]
            exact ih (by omega) hnew
          · obtain rfl : fuel = 0 := by omega
            simp [he, hnew, firstAnswer]
        · rw [if_neg fun h ↦ hrepeats h.1, if_neg hrepeats]
          simp [he, hnew]
      | processed reply =>
        have hprocessed : Exchange.transport req s
            = (reply.attempt 200 "", ⟨insert id s.known, fates⟩) := by
          simp [Exchange.transport, hfates, Exchange.answer, Exchange.learn, hid, hnew]
        have hlive : id ∈ (⟨insert id s.known, fates⟩ : Exchange).known := by simp
        rw [hprocessed, firstAnswer]
        by_cases hintact : reply = .intact
        · subst hintact
          simp [Reply.attempt, Attempt.retryable, Attempt.result]
        · obtain ⟨e, he⟩ := Reply.result_attempt hintact 200 ""
          split
          · -- the order is live, and every later answer is an error
            have hfuel' : n + 1 + fuel = c.maxRetries + 1 := by omega
            obtain ⟨⟨e', he'⟩, hknown⟩ :=
              attemptsFrom_of_known c req id hidem hauth hwire hid hfuel' hlive
            simp [he', hknown, hintact]
          · simp [he, hlive, hintact]

end Loop

/-! ## Submitting an order -/

section Submit

variable (bridge : VenueBridge Exchange)

theorem orderId_orderRequest {front : List (String × String)} (id : String)
    (h : "newClientOrderId" ∉ front.map Prod.fst) :
    Exchange.orderId (Binance.orderRequest (front ++ [("newClientOrderId", id)])) = some id := by
  have hfront : front.lookup "newClientOrderId" = none := by
    rw [List.lookup_eq_none_iff]
    intro p hp
    have hne : "newClientOrderId" ≠ p.1 := fun heq ↦ h (List.mem_map.mpr ⟨p, hp, heq.symm⟩)
    simpa using hne
  have hlookup : (front ++ [("newClientOrderId", id)]).lookup "newClientOrderId" = some id := by
    simp [List.lookup_append, hfront]
  exact hlookup

theorem textResult_eq_ok_iff {r : Except NetError RestResponse × Exchange} :
    (VenueBridge.textResult (Binance.portResult r)).1 = .ok () ↔
      ∃ response, r.1 = .ok response := by
  obtain ⟨r, s⟩ := r
  cases r with
  | ok response => simp [VenueBridge.textResult, Binance.portResult, Except.mapError]
  | error e => simp [VenueBridge.textResult, Binance.portResult, Except.mapError]

theorem send_of_not_ready {req : RestRequest} (s : Exchange) (h : ¬ (bridge.rest.acquire req.weight
    = .ok () ∧ bridge.rest.authorize req = .ok ())) :
    ∃ e, bridge.rest.send req s = (.error e, s) := by
  unfold RestClient.send
  cases hacquire : bridge.rest.acquire req.weight with
  | error e => exact ⟨e, rfl⟩
  | ok u =>
    cases hauth : bridge.rest.authorize req with
    | error e => exact ⟨e, by simp [RestClient.attemptsFrom, hauth]⟩
    | ok u' => exact absurd ⟨hacquire, hauth⟩ h

variable [DecimalWidth] [Rendering]

/-- **What a submit comes to.** -/
theorem submitTo_exchange (hwire : bridge.rest.transport = Exchange.transport)
    (cmd : ExecCommand) (coid : ClientOrderId) (now : UnixNanos) (s : Exchange) :
    ((cmd.submitTo bridge coid now s).1 = .ok () ↔ coid.text ∉ s.known ∧ (bridge.Ready
        ∧ cmd.Orderable) ∧ firstAnswer (bridge.rest.maxRetries + 1) s.fates = some .intact)
      ∧ (coid.text ∈ (cmd.submitTo bridge coid now s).2.known ↔ coid.text ∈ s.known
        ∨ (bridge.Ready ∧ cmd.Orderable)
          ∧ ∃ reply, firstAnswer (bridge.rest.maxRetries + 1) s.fates = some reply) := by
  by_cases hcan : cmd.Orderable
  · obtain ⟨front, hfront, hsend⟩ := cmd.submitTo_of_orderable hcan coid now
    rw [hsend]
    generalize hreq : Binance.orderRequest (front ++ [("newClientOrderId", coid.text)]) = req
    have hid : Exchange.orderId req = some coid.text := hreq ▸ orderId_orderRequest _ hfront
    have hidem : req.idempotent = true := by rw [← hreq]; rfl
    have hweight : bridge.Ready ↔ bridge.rest.acquire req.weight = .ok ()
        ∧ bridge.rest.authorize req = .ok () := by
      rw [← hreq]
      exact Iff.rfl
    change _ ∧ (coid.text ∈ (bridge.rest.send req s).2.known ↔ _)
    rw [textResult_eq_ok_iff]
    by_cases hready : bridge.Ready
    · obtain ⟨hacquire, hauth⟩ := hweight.mp hready
      have hcall : bridge.rest.send req s
          = bridge.rest.attemptsFrom req (bridge.rest.maxRetries + 1) 0 s := by
        rw [RestClient.send, hacquire]
      rw [hcall]
      by_cases hknown : coid.text ∈ s.known
      · obtain ⟨⟨e, he⟩, hstill⟩ :=
          attemptsFrom_of_known bridge.rest req coid.text hidem hauth hwire
          hid (Nat.zero_add _) hknown
        simp [he, hstill, hknown]
      · obtain ⟨hok, hlive⟩ := attemptsFrom_of_new bridge.rest req coid.text hidem hauth hwire hid
          (Nat.zero_add _) hknown
        rw [hok, hlive]
        simp [hknown, hready, hcan]
    · obtain ⟨e, he⟩ := send_of_not_ready bridge s (fun h ↦ hready (hweight.mpr h))
      simp [he, hready]
  · -- nothing is sent
    obtain ⟨e, he⟩ := cmd.submitTo_of_not_orderable hcan bridge coid now s
    simp [he, hcan]

end Submit

/-! ## False rejections -/

section Rejection

variable [DecimalWidth] [Rendering]

/-- The events an order has in the second log beyond those in the first. -/
def appended (before after : SqliteEventStore) (id : ClientOrderId) : List OrderEvent :=
  (after.replay id).drop (before.replay id).length

/-- If the exchange has accepted the order, the call notes no rejection and publishes none. -/
def NoFalseRejection (oms : PaperOms) (id : ClientOrderId) (handled : PaperOms.Handled Exchange) :
    Prop :=
  id.text ∈ handled.world.known →
    (∀ reason ts, .rejected reason ts ∉ appended oms.store handled.oms.store id)
      ∧ ∀ e ∈ handled.published, e.getStr "kind" ≠ some "rejected"

/-- The answer to the first order that is processed arrives, if one is processed. -/
def Conclusive (maxRetries : ℕ) (fates : List Fate) : Prop :=
  ∀ reply ∈ firstAnswer (maxRetries + 1) fates, reply = .intact

/-- Forwarding a submit, with the kill switch off. -/
theorem noFalseRejection_venueSubmit (bridge : VenueBridge Exchange)
    (hwire : bridge.rest.transport = Exchange.transport) {oms oms' : PaperOms}
    (hstore : oms'.store = oms.store) (cmd : ExecCommand) (coid : ClientOrderId) (now : UnixNanos)
    (s : Exchange) :
    NoFalseRejection oms coid (oms'.venueSubmit cmd coid now bridge s)
      ↔ coid.text ∉ s.known
        ∧ (bridge.Ready ∧ cmd.Orderable → Conclusive bridge.rest.maxRetries s.fates) := by
  obtain ⟨hok, hlive⟩ := submitTo_exchange bridge hwire cmd coid now s
  obtain ⟨hworld, ⟨hsub, hpublished, hreplay⟩ | ⟨e, hsub, hpublished, hreplay⟩⟩ :=
    oms'.venueSubmit_cases cmd coid now bridge s
  · -- the call succeeded: nothing is rejected, and the first answer has arrived
    obtain ⟨hnew, -, hfirst⟩ := hok.mp hsub
    refine iff_of_true (fun _ ↦ ⟨?_, ?_⟩) ⟨hnew, fun _ reply hreply ↦ ?_⟩
    · simp [appended, hreplay, hstore]
    · simp [hpublished, PaperOms.venueSubmittedEvent, Json.getStr, Json.get, Json.asStr]
    · rw [hfirst] at hreply
      exact (Option.some.inj hreply).symm
  · -- the call failed: a rejection is noted, so the order must not be live
    have hfalse : NoFalseRejection oms coid (oms'.venueSubmit cmd coid now bridge s)
        ↔ coid.text ∉ (cmd.submitTo bridge coid now s).2.known := by
      rw [NoFalseRejection, hworld]
      refine ⟨fun h hmem ↦ ?_, fun h hmem ↦ absurd hmem h⟩
      refine (h hmem).1 (.text e) now ?_
      simp [appended, hreplay, hstore]
    have hnot : ¬ (coid.text ∉ s.known ∧ (bridge.Ready ∧ cmd.Orderable)
        ∧ firstAnswer (bridge.rest.maxRetries + 1) s.fates = some .intact) := by
      rw [← hok, hsub]
      exact fun h ↦ by cases h
    rw [hfalse, hlive, not_or]
    refine and_congr_right fun hnew ↦ ⟨?_, ?_⟩
    · intro h hcan reply hreply
      exact absurd ⟨hcan, reply, hreply⟩ h
    · rintro h ⟨hcan, reply, hreply⟩
      have hintact := h hcan reply hreply
      exact hnot ⟨hnew, hcan, hintact ▸ hreply⟩

/-- **Ambiguous submits.** A submit through the venue notes no rejection of an order the exchange
has accepted, exactly when the kill switch is engaged, or the id is new to the exchange and the
answer to the first order that is processed arrives. -/
theorem noFalseRejection_iff (bridge : VenueBridge Exchange)
    (hwire : bridge.rest.transport = Exchange.transport) (oms : PaperOms) (cmd : ExecCommand)
    (env : Circumstances) (s : Exchange) :
    NoFalseRejection oms (oms.resolveId cmd env.cursorFails).1
        (oms.handleSubmit cmd env (some bridge) s)
      ↔ oms.kill = true ∨ (oms.resolveId cmd env.cursorFails).1.text ∉ s.known
        ∧ (bridge.Ready ∧ cmd.Orderable → Conclusive bridge.rest.maxRetries s.fates) := by
  simp only [PaperOms.handleSubmit]
  generalize (oms.resolveId cmd env.cursorFails).1 = coid
  cases hkill : oms.kill with
  | true =>
    refine iff_of_true (fun _ ↦ ⟨?_, ?_⟩) (.inl rfl)
    · simp [appended]
    · simp [PaperOms.deniedEvent, Json.getStr, Json.get, Json.asStr]
  | false =>
    simp only [Bool.false_eq_true, if_false, false_or]
    exact noFalseRejection_venueSubmit bridge hwire rfl cmd coid env.now s

end Rejection

/-! ## An answer that is lost -/

section Instances

open scoped RustDecimal BlankText

/-- A client with credentials and the usual limits. -/
def connectedBridge : VenueBridge Exchange :=
  ⟨exchangeClient 3 1200 ⟨some "key", true⟩ fun _ ↦ .ok ()⟩

/-- The answer to the order that is accepted is lost, and the request repeated. -/
def answerLost : Exchange := ⟨∅, [.processed (.lost "timeout"), .processed .intact]⟩

/-- Everything arrives. -/
def allArrives : Exchange := ⟨∅, [.processed .intact]⟩

/-- When everything arrives, the order is accepted and no rejection is noted. -/
theorem noFalseRejection_of_allArrives :
    NoFalseRejection .fresh ⟨"a"⟩
        (PaperOms.fresh.handleSubmit submitOne { now := 1 } (some connectedBridge) allArrives)
      ∧ "a" ∈ (PaperOms.fresh.handleSubmit submitOne { now := 1 } (some connectedBridge)
        allArrives).world.known := by
  refine ⟨?_, by decide +kernel⟩
  refine (noFalseRejection_iff connectedBridge rfl .fresh submitOne { now := 1 } allArrives).mpr
    (.inr ⟨by decide, fun _ reply hreply ↦ ?_⟩)
  have hfirst : firstAnswer (connectedBridge.rest.maxRetries + 1) allArrives.fates = some .intact :=
    rfl
  rw [hfirst] at hreply
  exact (Option.some.inj hreply).symm

/-- The order is accepted, its answer is lost, and the repeated request is turned down: a rejection
is noted for an order that is live. -/
theorem falseRejection_of_answerLost :
    ¬ ∀ (oms : PaperOms) (cmd : ExecCommand) (env : Circumstances) (s : Exchange),
      NoFalseRejection oms (oms.resolveId cmd env.cursorFails).1
        (oms.handleSubmit cmd env (some connectedBridge) s) := by
  intro h
  have hlive : "a" ∈ (PaperOms.fresh.handleSubmit submitOne { now := 1 } (some connectedBridge)
      answerLost).world.known := by decide +kernel
  have hnone := (h .fresh submitOne { now := 1 } answerLost hlive).2
  have hpublished : "rejected" ∈ (PaperOms.fresh.handleSubmit submitOne { now := 1 }
      (some connectedBridge) answerLost).published.filterMap (Json.getStr "kind") := by
    decide +kernel
  obtain ⟨e, he, hkind⟩ := List.mem_filterMap.mp hpublished
  exact hnone e he hkind

end Instances

end Coinext.ExecSvc
