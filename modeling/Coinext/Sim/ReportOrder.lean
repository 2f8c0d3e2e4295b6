import Coinext.Sim.Provenance

/-!
# Reports are drained in the order in which they were scheduled

With one latency for every command and a clock that does not run backwards, nothing is scheduled
earlier than what already waits. The delayed queue is then a first-in first-out queue, though it is
ordered by due times, and what has been drained is a prefix of the log (`InOrder.prefix`).

In the log, the acknowledgement of an order stands before its fills and its cancellation, under any
brokerage model (`announced_run`): the venue schedules it as it accepts the order.
-/

namespace Coinext

namespace VenueSession

open SimulatedExecutionClient

/-! ## The log announces its orders -/

/-- An order is acknowledged in `front` when a report of it follows. -/
def Announced (front : List ExecutionReport) : ExecutionReport → Prop
  | .fill f => ExecutionReport.accepted f.clientOrderId f.venueOrderId ∈ front
  | .canceled i => ∃ v, ExecutionReport.accepted i v ∈ front
  | _ => True

theorem Announced.append {front : List ExecutionReport} {report : ExecutionReport}
    (h : Announced front report) (later : List ExecutionReport) :
    Announced (front ++ later) report := by
  cases report with
  | fill f => exact List.mem_append_left _ h
  | canceled i =>
    obtain ⟨v, hv⟩ := h
    exact ⟨v, List.mem_append_left _ hv⟩
  | _ => trivial

/-- Every report follows the acknowledgement of its order. -/
def AllAnnounced (log : List ExecutionReport) : Prop :=
  ∀ front report back, log = front ++ report :: back → Announced front report

theorem AllAnnounced.append {log new : List ExecutionReport} (h : AllAnnounced log)
    (hnew : ∀ report ∈ new, Announced log report) : AllAnnounced (log ++ new) := by
  intro front report back heq
  rcases List.append_eq_append_iff.mp heq with ⟨later, rfl, hsplit⟩ | ⟨later, rfl, hsplit⟩
  · refine (hnew report ?_).append later
    rw [hsplit]
    exact List.mem_append_right _ List.mem_cons_self
  · cases later with
    | nil =>
      rw [List.append_nil] at hnew
      refine hnew report ?_
      rw [List.nil_append] at hsplit
      rw [← hsplit]
      exact List.mem_cons_self
    | cons report' later =>
      obtain ⟨rfl, -⟩ := List.cons.inj hsplit
      exact h front report later rfl

theorem AllAnnounced.mono {log log' : List ExecutionReport} (h : AllAnnounced log)
    (hpre : log' <+: log) : AllAnnounced log' := by
  rintro front report back rfl
  obtain ⟨rest, rfl⟩ := hpre
  exact h front report (back ++ rest) (by simp)

variable [DecimalWidth] {model : BrokerageModel}

theorem accepted_mem_log (calls : List VenueCall) {r : Resting}
    (hr : r ∈ (run model calls).sim.resting) :
    ExecutionReport.accepted r.order.clientOrderId r.venueOrderId ∈ (run model calls).log := by
  have htracked : Tracked (fun o r ↦ r.order.clientOrderId = o.clientOrderId) (fun _ _ ↦ True)
      (run model calls) := by
    refine tracked_run (fun cache now o _ n ↦ rfl) ?_
    intro cache now ev _ inst tape _ o r hr
    exact ⟨fun r' hr' ↦ (sameOrder_of_survivor hr').clientOrderId.trans hr,
      fun d _ n ts ↦ trivial⟩
  obtain ⟨o, ⟨k, hk, hv⟩, hid⟩ := htracked.resting r hr
  have hmem : (r.order.clientOrderId, r.venueOrderId)
      ∈ (run model calls).log.filterMap acceptance? := by
    rw [(sound_run calls).acceptances, List.mem_mapIdx]
    obtain ⟨hlt, hget⟩ := List.getElem?_eq_some_iff.mp hk
    exact ⟨k, hlt, by rw [hget, hid, hv]⟩
  obtain ⟨report, hreport, haccepted⟩ := List.mem_filterMap.mp hmem
  cases report with
  | accepted i v =>
    cases haccepted
    exact hreport
  | _ => cases haccepted

/-- **The log announces its orders.** -/
theorem announced_run (calls : List VenueCall) : AllAnnounced (run model calls).log := by
  induction calls using List.reverseRecOn with
  | nil =>
    intro front report back heq
    have hnil : (run model []).log = [] := rfl
    rw [hnil] at heq
    exact absurd heq.symm (by simp)
  | append_singleton calls call ih =>
    obtain ⟨-, hlog⟩ := log_step model (sound_run calls).numbered call
    rw [run_concat, hlog]
    refine ih.append fun report hreport ↦ ?_
    cases call with
    | submit cache now order =>
      simp only [reports] at hreport
      split_ifs at hreport
      · rw [List.mem_singleton.mp hreport]
        trivial
      · cases hreport
    | cancel now id =>
      simp only [reports] at hreport
      split_ifs at hreport with hany
      · rw [List.mem_singleton.mp hreport]
        obtain ⟨r, hr, hid⟩ := List.any_eq_true.mp hany
        rw [decide_eq_true_eq] at hid
        exact ⟨r.venueOrderId, hid ▸ accepted_mem_log calls hr⟩
      · cases hreport
    | market cache now ev =>
      obtain ⟨f, hf, rfl⟩ := List.mem_map.mp hreport
      rcases offers_or_idle model cache now ev (run model calls) with
        ⟨inst, tape, -, -, hfills, -⟩ | ⟨hfills, -, -⟩
      · rw [hfills] at hf
        obtain ⟨r, hr, m, d, -, rfl⟩ := exists_offered_of_mem_eventFills hf
        exact accepted_mem_log calls hr
      · rw [hfills] at hf
        cases hf
    | drain frontier => cases hreport

/-! ## First in, first out -/

/-- The time of the clock at a call. -/
def now? : VenueCall → Option UnixNanos
  | .submit _ now _ => some now
  | .cancel now _ => some now
  | .market _ now _ => some now
  | .drain _ => none

/-- Nothing but a drain takes from the queue, and a call schedules its reports at one time. -/
theorem queue_step {latency : ℕ} (hlatency : ∀ kind, model.latencyNs kind = latency)
    (s : VenueSession) (call : VenueCall) :
    (∃ t, now? call = some t ∧ (step model s call).drained = s.drained ∧
      (step model s call).sim.queue
        = s.sim.queue.pushAll (saturatingAddNs t latency) (reports model s call)) ∨
    ∃ frontier, call = .drain frontier := by
  cases call with
  | submit cache now order =>
    refine .inl ⟨now, rfl, rfl, ?_⟩
    simp only [step, reports]
    split_ifs with hknown
    · rw [onSubmit_of_known hknown, hlatency]
      rfl
    · rw [onSubmit_of_not_known hknown]
      rfl
  | cancel now id =>
    refine .inl ⟨now, rfl, rfl, ?_⟩
    simp only [step, reports, onCancel]
    split_ifs
    · rw [hlatency]
      rfl
    · rfl
  | market cache now ev =>
    refine .inl ⟨now, rfl, rfl, ?_⟩
    simp only [reports]
    rcases offers_or_idle model cache now ev s with
      ⟨inst, tape, hinst, htape, hfills, -⟩ | ⟨hfills, -, hidle⟩
    · rw [hfills]
      simp only [step, onMarket_eq hinst htape, pushFills, hlatency, DueQueue.pushAll,
        List.foldl_map]
    · rw [hfills]
      simp only [step, hidle]
      rfl
  | drain frontier => exact .inr ⟨frontier, rfl⟩

/-- What waits is in order, and due one latency after an earlier call. -/
structure Paced (latency : ℕ) (calls : List VenueCall) (s : VenueSession) : Prop where
  inOrder : DueQueue.InOrder s.drained s.sim.queue
  due : ∀ e ∈ s.sim.queue.entries, ∃ t ∈ calls.filterMap now?, e.due = saturatingAddNs t latency

/-- **The queue is first in, first out** while the clock does not run backwards. -/
theorem paced_run {latency : ℕ} (hlatency : ∀ kind, model.latencyNs kind = latency)
    {calls : List VenueCall} (h : (calls.filterMap now?).Pairwise (· ≤ ·)) :
    Paced latency calls (run model calls) := by
  induction calls using List.reverseRecOn with
  | nil => exact ⟨DueQueue.inOrder_empty, fun e he ↦ nomatch he⟩
  | append_singleton calls call ih =>
    rw [List.filterMap_append, List.pairwise_append] at h
    have hpaced := ih h.1
    have hweaken (e : Timed ExecutionReport)
        (he : ∃ t ∈ calls.filterMap now?, e.due = saturatingAddNs t latency) :
        ∃ t ∈ (calls ++ [call]).filterMap now?, e.due = saturatingAddNs t latency := by
      obtain ⟨t, ht, hdue⟩ := he
      exact ⟨t, by rw [List.filterMap_append]; exact List.mem_append_left _ ht, hdue⟩
    rw [run_concat]
    rcases queue_step hlatency (run model calls) call with
      ⟨t, ht, hdrained, hqueue⟩ | ⟨frontier, rfl⟩
    · have hnow : t ∈ [call].filterMap now? := by simp [ht]
      -- The clock has not run backwards, so what waits is due no later than what is scheduled now.
      have hwaiting : ∀ e ∈ (run model calls).sim.queue.entries,
          e.due ≤ saturatingAddNs t latency := by
        intro e he
        obtain ⟨t', ht', hdue⟩ := hpaced.due e he
        rw [hdue]
        exact saturatingAddNs_mono (h.2.2 t' ht' t hnow) latency
      obtain ⟨hinOrder, hafter⟩ := hpaced.inOrder.pushAll (sound_run calls).numbered hwaiting
        (reports model (run model calls) call)
      refine ⟨by rw [hdrained, hqueue]; exact hinOrder, fun e he ↦ ?_⟩
      rw [hqueue] at he
      rcases hafter e he with he | hdue
      · exact hweaken e (hpaced.due e he)
      · exact ⟨t, by rw [List.filterMap_append]; exact List.mem_append_right _ hnow, hdue⟩
    · refine ⟨hpaced.inOrder.rest frontier, fun e he ↦ hweaken e (hpaced.due e ?_)⟩
      exact (List.dropWhile_sublist _).subset he

/-! ## Reports as they are drained -/

/-- The reports drained so far. -/
def drainedReports (s : VenueSession) : List ExecutionReport := s.drained.map Timed.item

/-- The drained reports are in the order of scheduling, and so each order is acknowledged first and
its fills come in the order in which they were decided. -/
structure InScheduleOrder (s : VenueSession) : Prop where
  isPrefix : s.drainedReports <+: s.log
  fill : ∀ front f back, s.drainedReports = front ++ .fill f :: back →
    ExecutionReport.accepted f.clientOrderId f.venueOrderId ∈ front
  canceled : ∀ front i back, s.drainedReports = front ++ .canceled i :: back →
    ∃ v, ExecutionReport.accepted i v ∈ front
  /-- The drained fills are the first fills of the venue. -/
  tradeIds : ∃ n, (s.drainedReports.filterMap ExecutionReport.fill?).map Fill.tradeId
    = (List.range' 1 n).map simTradeId

/-- **Report order.** -/
theorem inScheduleOrder_run (m : DefaultBrokerageModel) {calls : List VenueCall}
    (h : (calls.filterMap now?).Pairwise (· ≤ ·)) :
    InScheduleOrder (run m.brokerage calls) := by
  have hpaced : Paced m.latencyNs calls (run m.brokerage calls) := paced_run (fun _ ↦ rfl) h
  have hpre : (run m.brokerage calls).drainedReports <+: (run m.brokerage calls).log :=
    hpaced.inOrder.prefix.map Timed.item
  have hannounced := (announced_run calls).mono hpre
  refine ⟨hpre, fun front f back heq ↦ hannounced front _ back heq,
    fun front i back heq ↦ hannounced front _ back heq, ?_⟩
  -- The trade ids of the log are numbered, so those of a prefix of the log are the first of them.
  have hids : ((run m.brokerage calls).log.filterMap ExecutionReport.fill?).map Fill.tradeId
      = (List.range' 1 (run m.brokerage calls).sim.tradeSeq).map simTradeId :=
    (sound_run calls).tradeIds
  have hfills := (hpre.filterMap ExecutionReport.fill?).map Fill.tradeId
  rw [hids] at hfills
  have hle := hfills.length_le
  rw [List.length_map (f := simTradeId), List.length_range'] at hle
  rw [List.prefix_iff_eq_take, ← List.map_take, List.take_range'_of_length_ge hle] at hfills
  exact ⟨_, hfills⟩

end VenueSession

/-! ## Instances -/

namespace VenueSession

section Instances

open scoped RustDecimal

/-- Two fills and a cancellation, drained in two steps; the clock stands still in between. -/
def interleaved : List VenueCall :=
  [.submit listed 0 (perpOrder "a" .buy .market 5 none none),
    .market listed 1 (perpBar 990 1010 1000 1000 8), .drain 1000000,
    .market listed 1 (perpBar 990 1010 1000 1000 4), .cancel 1 ⟨"a"⟩, .drain 2000000]

theorem inScheduleOrder_interleaved :
    (run ({} : DefaultBrokerageModel).brokerage interleaved).drainedReports.length = 4 ∧
      InScheduleOrder (run ({} : DefaultBrokerageModel).brokerage interleaved) :=
  ⟨by decide +kernel, inScheduleOrder_run {} (by decide)⟩

end Instances

end VenueSession

end Coinext
