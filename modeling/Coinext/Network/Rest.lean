import Mathlib.Data.Nat.Notation

/-!
# The REST client

`RestClient.send` issues a request and repeats it while the outcome allows. Whether it does is
decided by `shouldRetry`: an answer that says the request was turned away before it was processed
may always be repeated, an ambiguous failure only for a request that is marked idempotent, and
everything else ends the call. A response whose body cannot be read ends the call at once, whatever
the request.

What is on the other end of the wire is the parameter `transport`: a request takes its state to the
outcome of one attempt and a new state. Signatures, time stamps and the pauses between attempts are
left out; that a request which needs credentials fails without them is not. Which keys can be sent
in a header is the parameter `headerFromStr`.
-/

namespace Coinext

inductive HttpMethod where
  | get | post | put | delete
deriving DecidableEq

/-- A normalized outbound request. -/
structure RestRequest where
  method : HttpMethod
  path : String
  query : List (String × String) := []
  signed : Bool := false
  apiKey : Bool := false
  /-- Safe to repeat after an ambiguous failure. -/
  idempotent : Bool
  weight : ℕ

namespace RestRequest

/-- A signed request; only a read is idempotent by itself. -/
def signedRequest (method : HttpMethod) (path : String) (weight : ℕ) : RestRequest where
  method := method
  path := path
  signed := true
  idempotent := method == .get
  weight := weight

def withParam (req : RestRequest) (key value : String) : RestRequest :=
  { req with query := req.query ++ [(key, value)] }

def withIdempotent (req : RestRequest) (idempotent : Bool) : RestRequest :=
  { req with idempotent := idempotent }

end RestRequest

/-- The errors of the transport layer. -/
inductive NetError where
  | notConnected
  | transport (e : String)
  | http (status : ℕ) (body : String)
  | rateLimited (retryAfterMs : ℕ)
  | auth (e : String)
  | timeout (ms : ℕ)
  | decode (e : String)
deriving DecidableEq

def NetError.display : NetError → String
  | .notConnected => "not connected"
  | .transport e => "transport error: " ++ e
  | .http status body => "http " ++ toString status ++ ": " ++ body
  | .rateLimited ms => "rate limited: retry after " ++ toString ms ++ " ms"
  | .auth e => "auth error: " ++ e
  | .timeout ms => "timed out after " ++ toString ms ++ " ms"
  | .decode e => "decode error: " ++ e

/-- How an attempt failed. -/
inductive FailureKind where
  | status (s : ℕ)
  | transport
deriving DecidableEq

/-- Whether an attempt that failed is repeated; `attempt` counts the attempts before it. -/
def shouldRetry (idempotent : Bool) (outcome : FailureKind) (attempt max : ℕ) : Bool :=
  if max ≤ attempt then false
  else match outcome with
    -- turned away before processing
    | .status 429 => true
    | .status 418 => true
    -- ambiguous: the request may have been processed
    | .status s => decide (500 ≤ s ∧ s < 600) && idempotent
    | .transport => idempotent

theorem shouldRetry_of_le {idempotent : Bool} {outcome : FailureKind} {attempt max : ℕ}
    (h : max ≤ attempt) : shouldRetry idempotent outcome attempt max = false := if_pos h

theorem shouldRetry_status {idempotent : Bool} {s attempt max : ℕ} (h : ¬ max ≤ attempt) :
    shouldRetry idempotent (.status s) attempt max
      = decide (s = 429 ∨ s = 418 ∨ idempotent = true ∧ 500 ≤ s ∧ s < 600) := by
  unfold shouldRetry
  rw [if_neg h]
  split
  · rename_i heq
    cases heq
    rfl
  · rename_i heq
    cases heq
    rfl
  · rename_i h429 h418 heq
    cases heq
    have hne : s ≠ 429 := fun hs ↦ h429 (by rw [hs])
    have hne' : s ≠ 418 := fun hs ↦ h418 (by rw [hs])
    cases idempotent <;> simp [hne, hne']
  · rename_i heq
    cases heq

structure RestResponse where
  status : ℕ
  body : String
deriving DecidableEq

/-- What one attempt comes to. -/
inductive Attempt where
  /-- No response. -/
  | failed (e : String)
  /-- A response whose body could not be read. -/
  | unreadable (status : ℕ) (e : String)
  | response (status : ℕ) (body : String)
deriving DecidableEq

/-- The attempt is one after which an idempotent request may be repeated. -/
def Attempt.retryable : Attempt → Bool
  | .failed _ => true
  | .unreadable .. => false
  | .response status _ => status = 429 ∨ status = 418 ∨ 500 ≤ status ∧ status < 600

/-- The attempt is one after which any request may be repeated. -/
def Attempt.limited : Attempt → Bool
  | .response status _ => status = 429 ∨ status = 418
  | _ => false

/-- The result of a call that ends with this attempt. -/
def Attempt.result : Attempt → Except NetError RestResponse
  | .failed e => .error (.transport e)
  | .unreadable _ e => .error (.transport e)
  | .response status body =>
    if 200 ≤ status ∧ status < 300 then .ok ⟨status, body⟩ else .error (.http status body)

structure Credentials where
  apiKey : Option String
  hasSecret : Bool

/-- A REST client over what answers it. -/
structure RestClient (σ : Type) where
  maxRetries : ℕ := 3
  /-- The largest weight the rate limiter admits. -/
  capacity : ℕ := 1200
  creds : Credentials
  /-- Whether the HTTP library takes a text for the value of a header, or the text of its error. -/
  headerFromStr : String → Except String Unit
  transport : RestRequest → σ → Attempt × σ

namespace RestClient

variable {σ : Type} (c : RestClient σ) (req : RestRequest)

/-- Acquire the weight of a request; the call waits for the budget. -/
def acquire (cost : ℕ) : Except NetError Unit :=
  if c.capacity < cost then .error (.rateLimited 0) else .ok ()

/-- The credentials an attempt needs. -/
def authorize : Except NetError Unit :=
  if req.signed && !c.creds.hasSecret then
    .error (.auth "signing requested but no api secret configured")
  else if req.signed || req.apiKey then
    match c.creds.apiKey with
    | none => .error (.auth "api key required but none configured")
    | some key => (c.headerFromStr key).mapError fun e ↦ .auth ("bad api key header: " ++ e)
  else .ok ()

/-- The result an attempt ends the call with; `none` when it is to be repeated. -/
def conclude (attempt : ℕ) : Attempt → Option (Except NetError RestResponse)
  | .failed e =>
    if shouldRetry req.idempotent .transport attempt c.maxRetries then none
    else some (.error (.transport e))
  | .unreadable _ e => some (.error (.transport e))
  | .response status body =>
    if 200 ≤ status ∧ status < 300 then some (.ok ⟨status, body⟩)
    else if shouldRetry req.idempotent (.status status) attempt c.maxRetries then none
    else some (.error (.http status body))

/-- The loop of `send`. The fuel bounds the number of attempts, and `attempts` gives it one more
than the retries, so that it does not run out. -/
def attemptsFrom : ℕ → ℕ → σ → Except NetError RestResponse × σ
  | 0, _, s => (.error (.transport "out of attempts"), s)
  | fuel + 1, attempt, s =>
    match c.authorize req with
    | .error e => (.error e, s)
    | .ok () =>
      let (outcome, s) := c.transport req s
      match c.conclude req attempt outcome with
      | some result => (result, s)
      | none => attemptsFrom fuel (attempt + 1) s

/-- Send a request: acquire its weight, issue it, and repeat it while that is allowed. -/
def send (s : σ) : Except NetError RestResponse × σ :=
  match c.acquire req.weight with
  | .error e => (.error e, s)
  | .ok () => attemptsFrom c req (c.maxRetries + 1) 0 s

/-- What an idempotent request is repeated after. -/
theorem conclude_of_idempotent (hidem : req.idempotent = true) (attempt : ℕ) (outcome : Attempt) :
    c.conclude req attempt outcome
      = if outcome.retryable = true ∧ attempt < c.maxRetries then none
        else some outcome.result := by
  cases outcome with
  | unreadable status e => simp [conclude, Attempt.retryable, Attempt.result]
  | failed e =>
    by_cases hlast : c.maxRetries ≤ attempt
    · simp [conclude, shouldRetry_of_le hlast, Attempt.result, Nat.not_lt.mpr hlast]
    · simp [conclude, shouldRetry, hlast, hidem, Attempt.retryable, Nat.not_le.mp hlast]
  | response status body =>
    by_cases hsuccess : 200 ≤ status ∧ status < 300
    · have hnot : (Attempt.response status body).retryable = false := by
        simp only [Attempt.retryable, decide_eq_false_iff_not]
        omega
      simp [conclude, hsuccess, hnot, Attempt.result]
    · by_cases hlast : c.maxRetries ≤ attempt
      · simp [conclude, hsuccess, shouldRetry_of_le hlast, Attempt.result, Nat.not_lt.mpr hlast]
      · simp only [conclude, hsuccess, if_false, shouldRetry_status hlast, hidem, true_and,
          Attempt.result, Nat.not_le.mp hlast, and_true, Attempt.retryable]

/-- What any other request is repeated after. -/
theorem conclude_of_not_idempotent (hidem : req.idempotent = false) (attempt : ℕ)
    (outcome : Attempt) :
    c.conclude req attempt outcome
      = if outcome.limited = true ∧ attempt < c.maxRetries then none
        else some outcome.result := by
  cases outcome with
  | failed e | unreadable status e =>
    simp [conclude, shouldRetry, hidem, Attempt.limited, Attempt.result]
  | response status body =>
    by_cases hsuccess : 200 ≤ status ∧ status < 300
    · have hnot : (Attempt.response status body).limited = false := by
        simp only [Attempt.limited, decide_eq_false_iff_not]
        omega
      simp [conclude, hsuccess, hnot, Attempt.result]
    · by_cases hlast : c.maxRetries ≤ attempt
      · simp [conclude, hsuccess, shouldRetry_of_le hlast, Attempt.result, Nat.not_lt.mpr hlast]
      · simp [conclude, hsuccess, shouldRetry_status hlast, hidem, Attempt.result,
          Nat.not_le.mp hlast, Attempt.limited]

/-- An attempt that is to be repeated leaves the rest of the call to the state behind it. -/
theorem attemptsFrom_of_none {fuel attempt : ℕ} {s : σ} (hauth : c.authorize req = .ok ())
    (h : c.conclude req attempt (c.transport req s).1 = none) :
    c.attemptsFrom req (fuel + 1) attempt s
      = c.attemptsFrom req fuel (attempt + 1) (c.transport req s).2 := by
  simp only [attemptsFrom, hauth, h]

theorem attemptsFrom_of_some {fuel attempt : ℕ} {s : σ} {r : Except NetError RestResponse}
    (hauth : c.authorize req = .ok ())
    (h : c.conclude req attempt (c.transport req s).1 = some r) :
    c.attemptsFrom req (fuel + 1) attempt s = (r, (c.transport req s).2) := by
  simp only [attemptsFrom, hauth, h]

/-- One attempt of a request that is let out, where `repeats` are the attempts that it is repeated
after; `fuel` attempts remain behind it. -/
theorem attemptsFrom_succ {repeats : Attempt → Bool}
    (hrepeats : ∀ attempt outcome, c.conclude req attempt outcome
      = if repeats outcome = true ∧ attempt < c.maxRetries then none else some outcome.result)
    (hauth : c.authorize req = .ok ()) {fuel attempt : ℕ} (hfuel : attempt + fuel = c.maxRetries)
    (s : σ) : c.attemptsFrom req (fuel + 1) attempt s
      = if repeats (c.transport req s).1 = true ∧ 0 < fuel
        then c.attemptsFrom req fuel (attempt + 1) (c.transport req s).2
        else ((c.transport req s).1.result, (c.transport req s).2) := by
  have hconclude := hrepeats attempt (c.transport req s).1
  by_cases hretry : repeats (c.transport req s).1 = true ∧ 0 < fuel
  · rw [if_pos ⟨hretry.1, by omega⟩] at hconclude
    rw [if_pos hretry, c.attemptsFrom_of_none req hauth hconclude]
  · rw [if_neg fun h ↦ hretry ⟨h.1, by omega⟩] at hconclude
    rw [if_neg hretry, c.attemptsFrom_of_some req hauth hconclude]

end RestClient

end Coinext
