import Coinext.Network.Rest
import Mathlib.Data.List.Induction
import Mathlib.Order.Basic
import Mathlib.Tactic.Set

/-!
# What the rate limiter is charged

A call acquires the weight of its request once, before the loop that may issue it several times, and
before it finds out whether it has the credentials to issue it at all. A `Metered` state counts what
has been acquired and what has been transmitted; the metered client is the client itself with a
meter on its transport (`sendMetered_eq`).

Over a sequence of calls the two agree, and no stretch of calls transmits more than it acquires,
exactly when every call whose weight is granted and is not zero is authorized and issued once
(`charged_iff`). In any case what is transmitted is at most what is acquired times the number of
attempts a call may take (`transmitted_le`).
-/

namespace Coinext

/-- What answers a client, with the weights acquired and transmitted so far. -/
structure Metered (σ : Type) where
  world : σ
  acquired : ℕ
  transmitted : ℕ

/-- Nothing has been acquired or transmitted. -/
def Metered.start {σ : Type} (s : σ) : Metered σ := ⟨s, 0, 0⟩

namespace RestClient

variable {σ : Type} (c : RestClient σ) (req : RestRequest)

/-- The client with a meter on its transport. -/
def metered : RestClient (Metered σ) where
  maxRetries := c.maxRetries
  capacity := c.capacity
  creds := c.creds
  headerFromStr := c.headerFromStr
  transport req m :=
    ((c.transport req m.world).1, { m with
      world := (c.transport req m.world).2
      transmitted := m.transmitted + req.weight })

/-- `send`, with the weight it acquires. -/
def sendMetered (m : Metered σ) : Except NetError RestResponse × Metered σ :=
  match c.acquire req.weight with
  | .error e => (.error e, m)
  | .ok () => c.metered.attemptsFrom req (c.maxRetries + 1) 0
      { m with acquired := m.acquired + req.weight }

/-- A sequence of calls. -/
def sendAll (reqs : List RestRequest) (m : Metered σ) : Metered σ :=
  reqs.foldl (fun m req ↦ (c.sendMetered req m).2) m

/-! ## One call -/

/-- The meter changes nothing, and counts the attempts. -/
theorem attemptsFrom_metered (fuel attempt : ℕ) (m : Metered σ) :
    ∃ n, n ≤ fuel ∧ c.metered.attemptsFrom req fuel attempt m
      = ((c.attemptsFrom req fuel attempt m.world).1,
        ⟨(c.attemptsFrom req fuel attempt m.world).2, m.acquired,
          m.transmitted + n * req.weight⟩) := by
  induction fuel generalizing attempt m with
  | zero => exact ⟨0, Nat.le_refl _, by rw [Nat.zero_mul, Nat.add_zero]; rfl⟩
  | succ fuel ih =>
    cases hauth : c.authorize req with
    | error e =>
      refine ⟨0, Nat.zero_le _, ?_⟩
      have hmetered : c.metered.authorize req = .error e := hauth
      simp only [attemptsFrom, hauth, hmetered, Nat.zero_mul, Nat.add_zero]
    | ok _ =>
      have hmetered : c.metered.authorize req = .ok () := hauth
      cases hend : c.conclude req attempt (c.transport req m.world).1 with
      | some result =>
        refine ⟨1, Nat.succ_le_succ (Nat.zero_le _), ?_⟩
        rw [attemptsFrom_of_some c req hauth hend,
          attemptsFrom_of_some c.metered req hmetered (r := result) hend, Nat.one_mul]
        rfl
      | none =>
        rw [attemptsFrom_of_none c req hauth hend,
          attemptsFrom_of_none c.metered req hmetered hend]
        obtain ⟨n, hn, heq⟩ := ih (attempt + 1) (c.metered.transport req m).2
        refine ⟨n + 1, Nat.succ_le_succ hn, heq.trans ?_⟩
        rw [Nat.add_one_mul, Nat.add_comm (n * req.weight), ← Nat.add_assoc]
        rfl

variable {c req}

/-- A loop that is authorized transmits at least once. -/
theorem attemptsFrom_metered_of_authorized (hauth : c.authorize req = .ok ()) (fuel attempt : ℕ)
    (m : Metered σ) :
    ∃ n, (c.metered.attemptsFrom req (fuel + 1) attempt m).2.transmitted
        = m.transmitted + (n + 1) * req.weight
      ∧ (c.metered.attemptsFrom req (fuel + 1) attempt m).2.acquired = m.acquired := by
  have hmetered : c.metered.authorize req = .ok () := hauth
  cases hend : c.metered.conclude req attempt (c.metered.transport req m).1 with
  | some result =>
    rw [attemptsFrom_of_some c.metered req hmetered hend]
    exact ⟨0, by rw [Nat.zero_add, Nat.one_mul]; rfl, rfl⟩
  | none =>
    rw [attemptsFrom_of_none c.metered req hmetered hend]
    obtain ⟨n, -, heq⟩ := c.attemptsFrom_metered req fuel (attempt + 1)
      (c.metered.transport req m).2
    refine ⟨n, ?_, congrArg (fun out ↦ out.2.acquired) heq⟩
    rw [congrArg (fun out ↦ out.2.transmitted) heq, Nat.add_one_mul,
      Nat.add_comm (n * req.weight), ← Nat.add_assoc]
    rfl

theorem sendMetered_eq (m : Metered σ) : (c.sendMetered req m).1 = (c.send req m.world).1
    ∧ (c.sendMetered req m).2.world = (c.send req m.world).2 := by
  rw [sendMetered, send]
  cases c.acquire req.weight with
  | error e => exact ⟨rfl, rfl⟩
  | ok _ =>
    obtain ⟨n, -, heq⟩ := c.attemptsFrom_metered req (c.maxRetries + 1) 0
      { m with acquired := m.acquired + req.weight }
    simp only [heq, and_self]

theorem lt_of_conclude_eq_none {attempt : ℕ} {outcome : Attempt}
    (h : c.conclude req attempt outcome = none) : attempt < c.maxRetries := by
  by_contra hlast
  have hno : ∀ failure, shouldRetry req.idempotent failure attempt c.maxRetries = false :=
    fun failure ↦ shouldRetry_of_le (Nat.not_lt.mp hlast)
  cases outcome with
  | failed e => simp [conclude, hno] at h
  | unreadable status e => simp [conclude] at h
  | response status body =>
    simp only [conclude, hno] at h
    split at h <;> simp at h

/-- A call is balanced when its request is charged and issued once, or neither. -/
def SingleAttempt (c : RestClient σ) (req : RestRequest) (s : σ) : Prop :=
  req.weight = 0 ∨ c.capacity < req.weight
    ∨ c.authorize req = .ok () ∧ c.conclude req 0 (c.transport req s).1 ≠ none

theorem acquire_eq_ok_iff {cost : ℕ} : c.acquire cost = .ok () ↔ cost ≤ c.capacity := by
  rw [acquire]
  split_ifs with h
  · simpa using h
  · simpa using h

/-- **One call** acquires as much as it transmits exactly when it makes a single attempt. -/
theorem balanced_iff (m : Metered σ) :
    (c.sendMetered req m).2.acquired + m.transmitted
        = m.acquired + (c.sendMetered req m).2.transmitted
      ↔ c.SingleAttempt req m.world := by
  rw [sendMetered, SingleAttempt]
  by_cases hcapacity : c.capacity < req.weight
  · have hacquire : c.acquire req.weight = .error (.rateLimited 0) := if_pos hcapacity
    simp [hacquire, hcapacity]
  · have hacquire := acquire_eq_ok_iff.mpr (Nat.not_lt.mp hcapacity)
    simp only [hacquire, hcapacity, false_or]
    set m' : Metered σ := { m with acquired := m.acquired + req.weight } with hm'
    cases hauth : c.authorize req with
    | error e =>
      have hmetered : c.metered.authorize req = .error e := hauth
      simp only [attemptsFrom, hmetered, hm', reduceCtorEq, false_and, or_false]
      omega
    | ok _ =>
      have hmetered : c.metered.authorize req = .ok () := hauth
      cases hend : c.conclude req 0 (c.transport req m.world).1 with
      | some result =>
        rw [attemptsFrom_of_some c.metered req (s := m') (r := result) hmetered hend]
        refine iff_of_true ?_ (.inr ⟨rfl, Option.some_ne_none result⟩)
        change m.acquired + req.weight + m.transmitted
          = m.acquired + (m.transmitted + req.weight)
        omega
      | none =>
        -- the second attempt is authorized as the first one was, and transmitted as well
        obtain ⟨retries, hretries⟩ := Nat.exists_eq_add_of_lt (lt_of_conclude_eq_none hend)
        rw [Nat.zero_add] at hretries
        rw [attemptsFrom_of_none c.metered req (s := m') hmetered hend, hretries]
        obtain ⟨n, htransmitted, hacquired⟩ :=
          attemptsFrom_metered_of_authorized hauth retries 1 (c.metered.transport req m').2
        have hfirst : (c.metered.transport req m').2.transmitted = m.transmitted + req.weight := rfl
        have hgranted : (c.metered.transport req m').2.acquired = m.acquired + req.weight := rfl
        rw [htransmitted, hacquired, hfirst, hgranted]
        simp only [ne_eq, not_true_eq_false, and_false, or_false]
        constructor
        · intro h
          have hle : req.weight ≤ (n + 1) * req.weight := Nat.le_mul_of_pos_left _ n.succ_pos
          omega
        · intro h
          rw [h, Nat.mul_zero]
          omega

/-! ## A sequence of calls -/

variable (c)

/-- Whatever the limiter is charged covers what is transmitted. -/
structure Charged (s : σ) (reqs : List RestRequest) : Prop where
  /-- All that is acquired is transmitted, -/
  total : (c.sendAll reqs (.start s)).acquired = (c.sendAll reqs (.start s)).transmitted
  /-- and no stretch of calls transmits more than it acquires. -/
  window : ∀ before calls after, reqs = before ++ calls ++ after →
    (c.sendAll (before ++ calls) (.start s)).transmitted + (c.sendAll before (.start s)).acquired
      ≤ (c.sendAll (before ++ calls) (.start s)).acquired
        + (c.sendAll before (.start s)).transmitted

/-- The calls that each make a single attempt. -/
def SingleAttempts (s : σ) (reqs : List RestRequest) : Prop :=
  ∀ before req after, reqs = before ++ req :: after →
    c.SingleAttempt req (c.sendAll before (.start s)).world

variable {c} {s : σ}

theorem sendAll_concat (reqs : List RestRequest) (req : RestRequest) (m : Metered σ) :
    c.sendAll (reqs ++ [req]) m = (c.sendMetered req (c.sendAll reqs m)).2 := by
  rw [sendAll, List.foldl_append]
  rfl

theorem SingleAttempts.acquired_eq {reqs : List RestRequest} (h : c.SingleAttempts s reqs)
    {before after : List RestRequest} (hreqs : reqs = before ++ after) :
    (c.sendAll before (.start s)).acquired = (c.sendAll before (.start s)).transmitted := by
  induction before using List.reverseRecOn generalizing after with
  | nil => rfl
  | append_singleton before req ih =>
    rw [List.append_assoc, List.singleton_append] at hreqs
    have hbefore := ih hreqs
    have hcall := (balanced_iff _).mpr (h before req after hreqs)
    rw [sendAll_concat]
    omega

/-- **What the limiter is charged.** Over a sequence of calls all that is acquired is transmitted,
and no stretch of them transmits more than it acquires, if and only if each call makes a single
attempt. -/
theorem charged_iff (s : σ) (reqs : List RestRequest) :
    c.Charged s reqs ↔ c.SingleAttempts s reqs := by
  constructor
  · intro h before req after hreqs
    -- the gap between the two counts starts and ends at zero, and does not shrink
    have hfront := h.window [] before (req :: after) hreqs
    have hcall := h.window before [req] after (by rw [hreqs, List.append_assoc]; rfl)
    have hback := h.window (before ++ [req]) after [] (by
      rw [hreqs, List.append_nil, List.append_assoc]
      rfl)
    have hlast : before ++ [req] ++ after = reqs := by
      rw [hreqs, List.append_assoc]
      rfl
    rw [hlast, h.total, sendAll_concat] at hback
    rw [sendAll_concat] at hcall
    rw [List.nil_append] at hfront
    have hzero : (c.sendAll [] (.start s)).acquired = 0
        ∧ (c.sendAll [] (.start s)).transmitted = 0 := ⟨rfl, rfl⟩
    refine (balanced_iff _).mp ?_
    omega
  · intro h
    refine ⟨h.acquired_eq (List.append_nil reqs).symm, fun before calls after hreqs ↦ ?_⟩
    have hbefore := h.acquired_eq (hreqs.trans (List.append_assoc _ _ _))
    have hcalls := h.acquired_eq hreqs
    omega

theorem transmitted_sendMetered_le (req : RestRequest) (m : Metered σ) :
    (c.sendMetered req m).2.transmitted + (c.maxRetries + 1) * m.acquired
      ≤ m.transmitted + (c.maxRetries + 1) * (c.sendMetered req m).2.acquired := by
  rw [sendMetered]
  cases c.acquire req.weight with
  | error e => exact Nat.le_refl _
  | ok _ =>
    obtain ⟨n, hn, heq⟩ := c.attemptsFrom_metered req (c.maxRetries + 1) 0
      { m with acquired := m.acquired + req.weight }
    simp only [heq, Nat.mul_add]
    have hle := Nat.mul_le_mul_right req.weight hn
    omega

/-- **How far the two may be apart.** What is transmitted is at most what is acquired times the
number of attempts a call may take. -/
theorem transmitted_le (s : σ) (reqs : List RestRequest) :
    (c.sendAll reqs (.start s)).transmitted
      ≤ (c.maxRetries + 1) * (c.sendAll reqs (.start s)).acquired := by
  induction reqs using List.reverseRecOn with
  | nil => exact Nat.zero_le _
  | append_singleton reqs req ih =>
    rw [sendAll_concat]
    have hcall := transmitted_sendMetered_le (c := c) req (c.sendAll reqs (.start s))
    omega

section Instances

/-- A venue that is out of service for one attempt. -/
def recovering : RestClient Bool where
  creds := ⟨none, false⟩
  headerFromStr _ := .ok ()
  transport _ up := (if up then .response 200 "" else .response 503 "", true)

/-- A request for market data, of weight ten. -/
def depthRequest : RestRequest := ⟨.get, "/api/v3/depth", [], false, false, true, 10⟩

/-- Ten are acquired, and twice ten are transmitted. -/
theorem not_charged_recovering : ¬ recovering.Charged false [depthRequest] := by
  intro h
  have htotal := h.total
  revert htotal
  decide

end Instances

end RestClient

end Coinext
