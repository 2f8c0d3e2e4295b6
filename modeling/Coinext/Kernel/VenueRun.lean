import Coinext.Engine.Ledger
import Coinext.Kernel.Replay
import Coinext.Sim.Session

/-!
# The venue session of a run

The kernel drives the venue through its core operations. `venueCalls` is what one operation calls of
the venue, with the cache and the clock of the moment, and the calls of a run of operations, one
after the other, are a session whose venue is the venue of the kernel (`sim_venueRun`). What holds
of every session therefore holds of the venue in every state that a run reaches.
-/

namespace Coinext

namespace Core

open VenueSession

variable [DecimalWidth] (model : BrokerageModel)

/-- The calls that an operation makes of the venue. Only an order that passes the checks reaches
it. -/
def venueCalls (c : Core) : CoreOp → List VenueCall
  | .drain frontier => [.drain frontier]
  | .submit risk portfolio order now =>
    let out := ExecutionEngine.submit risk portfolio model c.clock.now order now c.oms
    if out.1 = [.submitted now] then
      [.submit out.2.cache c.clock.now (order.applied (.submitted now))]
    else []
  | .cancel id _ => [.cancel c.clock.now id]
  | .onMarket ev => [.market c.oms.cache c.clock.now ev]
  | _ => []

/-- The calls that operations make of the venue, from a core on. -/
def venueRun : Core → List CoreOp → List VenueCall
  | _, [] => []
  | c, op :: ops => venueCalls model c op ++ venueRun (c.step model op) ops

variable {model}

theorem venueRun_append (c : Core) (ops later : List CoreOp) :
    venueRun model c (ops ++ later)
      = venueRun model c ops ++ venueRun model (ops.foldl (step model) c) later := by
  induction ops generalizing c with
  | nil => rfl
  | cons op ops ih =>
    rw [List.cons_append, venueRun, venueRun, ih, List.append_assoc]
    rfl

theorem sim_venueCalls {c : Core} {s : VenueSession} (h : s.sim = c.oms.sim) (op : CoreOp) :
    ((venueCalls model c op).foldl (VenueSession.step model) s).sim
      = (c.step model op).oms.sim := by
  cases op with
  | drain frontier =>
    change { s.sim with queue := (s.sim.queue.drainDue frontier).2 } = _
    rw [h]
    rfl
  | submit risk portfolio order now =>
    simp only [venueCalls, Core.step, exec]
    rcases ExecutionEngine.submit_cases risk portfolio model c.clock.now order now c.oms with
      heq | ⟨ev, s', heq, -, -, -, -, hev⟩
    · rw [heq]
      exact h
    · rw [heq]
      rcases hev with ⟨reason, rfl, hsim⟩ | ⟨rfl, hsim⟩
      · rw [if_neg (by simp)]
        exact h.trans hsim.symm
      · rw [if_pos rfl]
        change SimulatedExecutionClient.onSubmit _ _ _ _ s.sim = s'.sim
        rw [h, hsim]
  | cancel id now =>
    change SimulatedExecutionClient.onCancel model c.clock.now id s.sim
      = (ExecutionEngine.cancel model c.clock.now id now c.oms).2.sim
    rw [h]
    simp only [ExecutionEngine.cancel, ExecutionEngine.sim_applyToOrder]
  | onMarket ev =>
    change SimulatedExecutionClient.onMarket model c.oms.cache c.clock.now ev s.sim = _
    rw [h]
    rfl
  | applyNext =>
    simp only [venueCalls, Core.step, exec, List.foldl_nil]
    cases c.pending with
    | nil => exact h
    | cons report rest => exact h.trans (ExecutionEngine.sim_applyReport _ _ _).symm
  | closeAt iid px now tagSuffix =>
    simp only [venueCalls, Core.step, exec, List.foldl_nil]
    split <;> exact h
  | advance ts => exact h
  | process ev => exact h
  | setTimer name ts => exact h
  | cancelTimer id => exact h
  | popDue frontier => exact h

theorem sim_venueRun {c : Core} {s : VenueSession} (h : s.sim = c.oms.sim) (ops : List CoreOp) :
    ((venueRun model c ops).foldl (VenueSession.step model) s).sim
      = (ops.foldl (Core.step model) c).oms.sim := by
  induction ops generalizing c s with
  | nil => exact h
  | cons op ops ih =>
    rw [venueRun, List.foldl_append]
    exact ih (sim_venueCalls h op)

end Core

namespace BacktestKernel

variable {σ : Type} [DecimalWidth] {setup : Setup σ} {k : BacktestKernel σ}

/-- The calls of a run of the kernel. -/
def sessionCalls (setup : Setup σ) (ops : List CoreOp) : List VenueCall :=
  Core.venueRun setup.config.brokerage (initialCore setup.config) ops

/-- **The venue of the kernel is the venue of its session.** -/
theorem Replays.sim_eq (h : Replays setup k) :
    k.core.oms.sim = (VenueSession.run setup.config.brokerage (sessionCalls setup k.ops)).sim := by
  have hstart : VenueSession.start.sim = (initialCore setup.config).oms.sim := rfl
  exact (congrArg (fun c ↦ c.oms.sim) h).trans (Core.sim_venueRun hstart k.ops).symm

end BacktestKernel

end Coinext
