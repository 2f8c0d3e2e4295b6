import Coinext.Network.Rest
import Mathlib.Data.List.Basic
import Mathlib.Tactic.SplitIfs

/-!
# What is sent again

A call may transmit its request several times. The client with a log on its transport, `logged`,
keeps what each attempt has come to; the log of a call, `outcomes`, has an entry for each
transmission, and each entry but the last is one after which the request was sent again.

A request is sent again only after an attempt that does not conclude the call (`Logs`), so what
follows from a repeat is read off `conclude`, one attempt at a time: the answer was a rejection, or
the request is idempotent and the attempt was ambiguous (`retried_of_conclude_eq_none`). The four
guarantees for a whole call are `retrySafe`.
-/

namespace Coinext

namespace Attempt

/-- The status of an answer, also of one whose body could not be read. -/
def status? : Attempt → Option ℕ
  | failed _ => none
  | unreadable status _ => some status
  | response status _ => some status

/-- The request was turned away before it was processed. Anything else that an attempt comes to may
have changed the venue. -/
def Rejected (o : Attempt) : Prop := ∃ body, o = response 429 body ∨ o = response 418 body

/-- The request was answered for good: a success, or an error of the client. -/
def Final (o : Attempt) : Prop :=
  ∃ status ∈ o.status?, 200 ≤ status ∧ status < 300
    ∨ 400 ≤ status ∧ status < 500 ∧ status ≠ 429 ∧ status ≠ 418

theorem not_final_failed (e : String) : ¬ (failed e).Final := by
  rintro ⟨status, hstatus, -⟩
  cases hstatus

theorem final_response_iff {status : ℕ} {body : String} :
    (response status body).Final ↔ 200 ≤ status ∧ status < 300
      ∨ 400 ≤ status ∧ status < 500 ∧ status ≠ 429 ∧ status ≠ 418 := by
  simp [Final, status?]

end Attempt

namespace RestClient

variable {σ : Type} (c : RestClient σ) (req : RestRequest)

/-- The client with a log on its transport. -/
def logged : RestClient (σ × List Attempt) where
  maxRetries := c.maxRetries
  capacity := c.capacity
  creds := c.creds
  headerFromStr := c.headerFromStr
  transport req s :=
    ((c.transport req s.1).1, (c.transport req s.1).2, s.2 ++ [(c.transport req s.1).1])

/-- What the transmissions of a call come to, in their order. -/
def outcomes (s : σ) : List Attempt := (c.logged.send req (s, [])).2.2

/-! ## One attempt -/

variable {c req} {attempt : ℕ} {o : Attempt}

/-- **After what a request is sent again.** -/
theorem retried_of_conclude_eq_none (h : c.conclude req attempt o = none) :
    attempt < c.maxRetries ∧ ¬ o.Final ∧ (o.Rejected ∨ req.idempotent = true) := by
  have hlast (failure : FailureKind)
      (hretry : shouldRetry req.idempotent failure attempt c.maxRetries = true) :
      attempt < c.maxRetries := by
    by_contra hnot
    rw [shouldRetry_of_le (Nat.not_lt.mp hnot)] at hretry
    cases hretry
  cases o with
  | unreadable status e => cases h
  | failed e =>
    have hretry : shouldRetry req.idempotent .transport attempt c.maxRetries = true := by
      by_contra hnot
      rw [conclude, if_neg hnot] at h
      cases h
    have hlt := hlast _ hretry
    refine ⟨hlt, Attempt.not_final_failed e, .inr ?_⟩
    unfold shouldRetry at hretry
    rwa [if_neg (Nat.not_le.mpr hlt)] at hretry
  | response status body =>
    rw [conclude] at h
    split_ifs at h with hsuccess hretry
    have hlt := hlast _ hretry
    rw [Attempt.final_response_iff]
    refine ⟨hlt, ?_⟩
    by_cases hrejected : status = 429 ∨ status = 418
    · refine ⟨by omega, .inl ⟨body, hrejected.imp ?_ ?_⟩⟩
      · rintro rfl
        rfl
      · rintro rfl
        rfl
    · -- neither of the two rejections, so the status is an error of the server
      have hserver : (500 ≤ status ∧ status < 600) ∧ req.idempotent = true := by
        unfold shouldRetry at hretry
        rw [if_neg (Nat.not_le.mpr hlt)] at hretry
        split at hretry
        · rename_i heq
          exact absurd (.inl (FailureKind.status.inj heq)) hrejected
        · rename_i heq
          exact absurd (.inr (FailureKind.status.inj heq)) hrejected
        · rename_i heq
          rw [FailureKind.status.inj heq]
          simpa using hretry
        · rename_i heq
          cases heq
      exact ⟨by omega, .inr hserver.2⟩

theorem conclude_eq_ok_iff {r : RestResponse} :
    c.conclude req attempt o = some (.ok r)
      ↔ o = .response r.status r.body ∧ 200 ≤ r.status ∧ r.status < 300 := by
  cases o with
  | failed e =>
    rw [conclude]
    split_ifs <;> simp
  | unreadable status e => simp [conclude]
  | response status body =>
    obtain ⟨status', body'⟩ := r
    rw [conclude]
    split_ifs with hsuccess hretry
    · simp only [Option.some.injEq, Except.ok.injEq, RestResponse.mk.injEq, Attempt.response.injEq]
      constructor
      · rintro ⟨rfl, rfl⟩
        exact ⟨⟨rfl, rfl⟩, hsuccess⟩
      · exact fun h ↦ h.1
    all_goals
      simp only [reduceCtorEq, Option.some.injEq, Attempt.response.injEq, false_iff]
      rintro ⟨⟨rfl, -⟩, hstatus⟩
      exact hsuccess hstatus

/-! ## The log of a call -/

variable (c req) in
/-- What a loop that begins with some number of attempts logs: attempts after which it goes on, and
one that concludes it. -/
inductive Logs : ℕ → List Attempt → Except NetError RestResponse → Prop where
  | last {attempt : ℕ} {o : Attempt} {result : Except NetError RestResponse}
      (h : c.conclude req attempt o = some result) : Logs attempt [o] result
  | again {attempt : ℕ} {o : Attempt} {os : List Attempt} {result : Except NetError RestResponse}
      (h : c.conclude req attempt o = none) (hrest : Logs (attempt + 1) os result) :
      Logs attempt (o :: os) result

variable {os : List Attempt} {result : Except NetError RestResponse}

theorem Logs.ne_nil (h : Logs c req attempt os result) : os ≠ [] := by
  cases h <;> exact List.cons_ne_nil _ _

theorem Logs.length_le (h : Logs c req attempt os result) (hattempt : attempt ≤ c.maxRetries) :
    attempt + os.length ≤ c.maxRetries + 1 := by
  induction h with
  | last h =>
    rw [List.length_singleton]
    omega
  | again h hrest ih =>
    have hlt := (retried_of_conclude_eq_none h).1
    have hle := ih hlt
    rw [List.length_cons]
    omega

/-- Each entry but the last is one after which the request was sent again. -/
theorem Logs.mem_dropLast (h : Logs c req attempt os result) {o : Attempt} (ho : o ∈ os.dropLast) :
    ∃ n, c.conclude req n o = none := by
  induction h with
  | last h => cases ho
  | again h hrest ih =>
    rw [List.dropLast_cons_of_ne_nil hrest.ne_nil] at ho
    rcases List.mem_cons.mp ho with rfl | ho
    · exact ⟨_, h⟩
    · exact ih ho

theorem Logs.getLast (h : Logs c req attempt os result) :
    ∃ n, ∃ o ∈ os.getLast?, c.conclude req n o = some result := by
  induction h with
  | last h => exact ⟨_, _, rfl, h⟩
  | again h hrest ih =>
    obtain ⟨n, o, ho, hconclude⟩ := ih
    refine ⟨n, o, ?_, hconclude⟩
    rw [List.getLast?_cons_of_ne_nil hrest.ne_nil]
    exact ho

/-- The log changes nothing, and it is one that the loop can have. -/
theorem attemptsFrom_logged (hauth : c.authorize req = .ok ()) {fuel : ℕ}
    (hfuel : c.maxRetries < attempt + fuel) (hattempt : attempt ≤ c.maxRetries) (s : σ)
    (before : List Attempt) :
    ∃ os, Logs c req attempt os (c.attemptsFrom req fuel attempt s).1 ∧
      c.logged.attemptsFrom req fuel attempt (s, before)
        = ((c.attemptsFrom req fuel attempt s).1, (c.attemptsFrom req fuel attempt s).2,
          before ++ os) := by
  have hlogged : c.logged.authorize req = .ok () := hauth
  induction fuel generalizing attempt s before with
  | zero => omega
  | succ fuel ih =>
    cases hend : c.conclude req attempt (c.transport req s).1 with
    | some result =>
      rw [attemptsFrom_of_some c req hauth hend,
        attemptsFrom_of_some c.logged req hlogged (s := (s, before)) (r := result) hend]
      exact ⟨_, .last hend, rfl⟩
    | none =>
      rw [attemptsFrom_of_none c req hauth hend,
        attemptsFrom_of_none c.logged req hlogged (s := (s, before)) hend]
      have hlt := (retried_of_conclude_eq_none hend).1
      have hfuel' : c.maxRetries < attempt + 1 + fuel := by omega
      obtain ⟨os, hlogs, heq⟩ := ih hfuel' hlt (c.transport req s).2
        (before ++ [(c.transport req s).1])
      refine ⟨_, .again hend hlogs, heq.trans ?_⟩
      rw [List.append_assoc, List.singleton_append]

variable (c req) in
theorem outcomes_cases (s : σ) :
    (c.outcomes req s = [] ∧ ∃ e, (c.send req s).1 = .error e) ∨
      Logs c req 0 (c.outcomes req s) (c.send req s).1 := by
  have hacquires : c.logged.acquire req.weight = c.acquire req.weight := rfl
  rw [outcomes, send, send, hacquires]
  cases c.acquire req.weight with
  | error e => exact .inl ⟨rfl, e, rfl⟩
  | ok _ =>
    cases hauth : c.authorize req with
    | error e =>
      have hlogged : c.logged.authorize req = .error e := hauth
      refine .inl ⟨?_, e, ?_⟩
      · simp only [attemptsFrom, hlogged]
      · simp only [attemptsFrom, hauth]
    | ok _ =>
      have hfuel : c.maxRetries < 0 + (c.maxRetries + 1) := by omega
      obtain ⟨os, hlogs, heq⟩ := attemptsFrom_logged hauth hfuel (Nat.zero_le _) s []
      have heq' : c.logged.attemptsFrom req (c.logged.maxRetries + 1) 0 (s, [])
          = ((c.attemptsFrom req (c.maxRetries + 1) 0 s).1,
            (c.attemptsFrom req (c.maxRetries + 1) 0 s).2, [] ++ os) := heq
      simp only [heq', List.nil_append]
      exact .inr hlogs

/-! ## The guarantees -/

variable (c req) in
/-- What a call guarantees about the transmissions of its request. -/
structure RetrySafe (s : σ) : Prop where
  bounded : (c.outcomes req s).length ≤ c.maxRetries + 1
  /-- A request that is not idempotent is sent again only after it was turned away, and so never
  when it may have been processed. -/
  rejected : req.idempotent = false → ∀ o ∈ (c.outcomes req s).dropLast, o.Rejected
  /-- No request is sent again after an answer for good. -/
  final : ∀ o ∈ (c.outcomes req s).dropLast, ¬ o.Final
  /-- The call succeeds exactly with a readable answer of success to the last transmission. -/
  ok_iff : ∀ r, (c.send req s).1 = .ok r ↔
    (c.outcomes req s).getLast? = some (.response r.status r.body) ∧
      200 ≤ r.status ∧ r.status < 300

/-- **Retries are safe**, whatever is on the other end of the wire. -/
theorem retrySafe (c : RestClient σ) (req : RestRequest) (s : σ) : c.RetrySafe req s := by
  rcases c.outcomes_cases req s with ⟨hnil, e, herror⟩ | hlogs
  · refine ⟨?_, ?_, ?_, ?_⟩
    · rw [hnil]
      exact Nat.zero_le _
    · rw [hnil]
      exact fun _ _ ho ↦ nomatch ho
    · rw [hnil]
      exact fun _ ho ↦ nomatch ho
    · intro r
      simp [hnil, herror]
  · refine ⟨?_, fun hidem o ho ↦ ?_, fun o ho ↦ ?_, fun r ↦ ?_⟩
    · have hle := hlogs.length_le (Nat.zero_le _)
      omega
    · obtain ⟨n, hnone⟩ := hlogs.mem_dropLast ho
      refine (retried_of_conclude_eq_none hnone).2.2.resolve_right ?_
      simp [hidem]
    · obtain ⟨n, hnone⟩ := hlogs.mem_dropLast ho
      exact (retried_of_conclude_eq_none hnone).2.1
    · obtain ⟨n, o, ho, hconclude⟩ := hlogs.getLast
      have hiff : c.conclude req n o = some (.ok r) ↔ _ := conclude_eq_ok_iff
      rw [Option.mem_def.mp ho, Option.some.injEq, ← hiff, hconclude, Option.some.injEq]

end RestClient

end Coinext
