import Coinext.Binance.OrderEntry
import Coinext.Model.Pnl
import Coinext.Sim.Venue
import Coinext.Support.Channel
import Coinext.Support.Run

/-!
# The simulated venue behind the execution port

`SimExecutionClientPort` owns a simulated venue and a bounded channel of reports. After each command
it drains what the venue has scheduled up to its clock, and offers the drained reports to the
channel, without waiting for room. The loop stops at the first offer that fails, whether the
receiver is gone or the channel is full, and what it had drained by then is gone with it.

The venue's clock and cache belong to the runtime, which moves them between the calls: each action
carries the ones it finds. The consumer reads from another task at any time, also between two offers
of one loop, so a command carries the number of reports read before each of its offers. `drained`
is the history of what the venue has handed out.

Nothing that was drained is ever missing exactly when each drained report is offered to a channel
with room (`received_eq_drained_iff`): the consumer is never 2048 reports behind.
-/

namespace Coinext

/-- The port, with the venue once it is connected. -/
structure SimExecutionClientPort where
  sim : Option SimState
  reports : Channel ExecutionReport
  /-- Everything the venue has drained so far. -/
  drained : List ExecutionReport

namespace SimExecutionClientPort

/-- The capacity of the report channel. -/
def capacity : ℕ := 2048

def new : SimExecutionClientPort := ⟨none, .empty, []⟩

variable (model : BrokerageModel)

/-- Offer what is due at `frontier` to the channel, while the consumer reads as `reads` says. -/
def pumpReports (frontier : UnixNanos) (reads : List ℕ) (p : SimExecutionClientPort) :
    SimExecutionClientPort :=
  match p.sim with
  | none => p
  | some sim =>
    let (due, queue) := sim.queue.drainDue frontier
    { sim := some { sim with queue := queue }
      reports := p.reports.forward capacity due reads
      drained := p.drained ++ due }

/-- Build the venue, unless there is one. -/
def connect (built : SimState) (p : SimExecutionClientPort) : SimExecutionClientPort :=
  match p.sim with
  | none => { p with sim := some built }
  | some _ => p

def submitOrder (cache : Cache) (now : UnixNanos) (order : Order) (reads : List ℕ)
    (p : SimExecutionClientPort) : Except PortError Unit × SimExecutionClientPort :=
  match p.sim with
  | none => (.error .notConnected, p)
  | some sim =>
    let sim' := SimulatedExecutionClient.onSubmit model cache now order sim
    (.ok (), pumpReports now reads { p with sim := some sim' })

def cancelOrder (now : UnixNanos) (clientOrderId : ClientOrderId) (reads : List ℕ)
    (p : SimExecutionClientPort) : Except PortError Unit × SimExecutionClientPort :=
  match p.sim with
  | none => (.error .notConnected, p)
  | some sim =>
    let sim' := SimulatedExecutionClient.onCancel model now clientOrderId sim
    (.ok (), pumpReports now reads { p with sim := some sim' })

/-- The venue does not model it. -/
def modifyOrder (p : SimExecutionClientPort) : Except PortError Unit × SimExecutionClientPort :=
  (.error (.unsupported "SimulatedExecutionClient does not model order modify"), p)

/-- The data feed steps the venue, which schedules fills and hands out nothing. -/
def onMarket [DecimalWidth] (cache : Cache) (now : UnixNanos) (ev : MarketEvent)
    (p : SimExecutionClientPort) : SimExecutionClientPort :=
  { p with sim := p.sim.map (SimulatedExecutionClient.onMarket model cache now ev) }

def disconnect (p : SimExecutionClientPort) : SimExecutionClientPort := { p with sim := none }

/-- What happens to the port, in any order. -/
inductive Action where
  /-- `built` is the venue the port's constructor was given a way to build. -/
  | connect (built : SimState)
  | submitOrder (cache : Cache) (now : UnixNanos) (order : Order) (reads : List ℕ)
  | cancelOrder (now : UnixNanos) (clientOrderId : ClientOrderId) (reads : List ℕ)
  | modifyOrder
  | onMarket (cache : Cache) (now : UnixNanos) (ev : MarketEvent)
  | disconnect
  /-- The consumer takes up to `n` reports between two calls. -/
  | receive (n : ℕ)

def step [DecimalWidth] (p : SimExecutionClientPort) : Action → SimExecutionClientPort
  | .connect built => p.connect built
  | .submitOrder cache now order reads => (p.submitOrder model cache now order reads).2
  | .cancelOrder now clientOrderId reads => (p.cancelOrder model now clientOrderId reads).2
  | .modifyOrder => p.modifyOrder.2
  | .onMarket cache now ev => p.onMarket model cache now ev
  | .disconnect => p.disconnect
  | .receive n => { p with reports := p.reports.receive n }

/-! ## What a command drains -/

/-- The reports due at `now` in a venue's queue find room in the channel. -/
def DueFits (reads : List ℕ) (now : UnixNanos) (waiting : ℕ) (sim : SimState) : Prop :=
  Channel.HasRoom capacity (sim.queue.due now).length waiting reads

/-- Each report a command drains is offered to a channel with room. -/
def RoomFor (p : SimExecutionClientPort) : Action → Prop
  | .submitOrder cache now order reads => ∀ sim ∈ p.sim, DueFits reads now
      p.reports.buffer.length (SimulatedExecutionClient.onSubmit model cache now order sim)
  | .cancelOrder now clientOrderId reads => ∀ sim ∈ p.sim, DueFits reads now
      p.reports.buffer.length (SimulatedExecutionClient.onCancel model now clientOrderId sim)
  | _ => True

/-- Nothing drained is missing: it has been received, or it waits to be. -/
def Complete (p : SimExecutionClientPort) : Prop := p.reports.delivered = p.drained

/-- A pump hands over all or an initial segment of what it drains. -/
theorem pumpReports_spec (now : UnixNanos) (reads : List ℕ) (p : SimExecutionClientPort)
    (sim : SimState) :
    ∃ due front : List ExecutionReport, front <+: due
      ∧ (pumpReports now reads { p with sim := some sim }).drained = p.drained ++ due
      ∧ (pumpReports now reads { p with sim := some sim }).reports.delivered
        = p.reports.delivered ++ front
      ∧ (front = due ↔ DueFits reads now p.reports.buffer.length sim) := by
  obtain ⟨front, hfront, hdelivered⟩ := Channel.delivered_forward capacity
    (sim.queue.drainDue now).1 reads p.reports
  refine ⟨(sim.queue.drainDue now).1, front, hfront, rfl, hdelivered, ?_⟩
  have hiff := Channel.delivered_forward_eq_iff capacity
    (sim.queue.drainDue now).1 reads p.reports
  rw [hdelivered, List.append_cancel_left_eq] at hiff
  rw [hiff, DueFits, DueQueue.drainDue, List.length_map]

/-- **Step.** The lengths of what was delivered and of what was drained move apart by what finds no
room, and by nothing else. -/
theorem step_spec [DecimalWidth] (p : SimExecutionClientPort) (a : Action) :
    ∃ due front : List ExecutionReport, front <+: due
      ∧ (p.step model a).drained = p.drained ++ due
      ∧ (p.step model a).reports.delivered = p.reports.delivered ++ front
      ∧ (front = due ↔ p.RoomFor model a) := by
  have hidle : ∀ q : SimExecutionClientPort, q.drained = p.drained →
      q.reports.delivered = p.reports.delivered → p.RoomFor model a →
      ∃ due front : List ExecutionReport, front <+: due ∧ q.drained = p.drained ++ due
        ∧ q.reports.delivered = p.reports.delivered ++ front
        ∧ (front = due ↔ p.RoomFor model a) := by
    intro q hdrained hdelivered hroom
    refine ⟨[], [], List.prefix_rfl, ?_, ?_, iff_of_true rfl hroom⟩
    · rw [hdrained, List.append_nil]
    · rw [hdelivered, List.append_nil]
  cases hsim : p.sim with
  | none =>
    refine hidle _ ?_ ?_ ?_ <;>
      cases a <;> simp [step, connect, submitOrder, cancelOrder, modifyOrder, onMarket, disconnect,
        RoomFor, hsim]
  | some sim =>
    cases a with
    | submitOrder cache now order reads =>
      have h := pumpReports_spec now reads p
        (SimulatedExecutionClient.onSubmit model cache now order sim)
      simpa only [step, submitOrder, hsim, RoomFor, Option.mem_some_iff, forall_eq'] using h
    | cancelOrder now clientOrderId reads =>
      have h := pumpReports_spec now reads p
        (SimulatedExecutionClient.onCancel model now clientOrderId sim)
      simpa only [step, cancelOrder, hsim, RoomFor, Option.mem_some_iff, forall_eq'] using h
    | connect built =>
      refine hidle _ ?_ ?_ trivial <;> simp only [step, connect, hsim]
    | modifyOrder => exact hidle _ rfl rfl trivial
    | onMarket cache now ev => exact hidle _ rfl rfl trivial
    | disconnect => exact hidle _ rfl rfl trivial
    | receive n => exact hidle _ rfl (Channel.delivered_receive _ _) trivial

theorem length_delivered_step_le [DecimalWidth] {p : SimExecutionClientPort} (a : Action)
    (hle : p.reports.delivered.length ≤ p.drained.length) :
    (p.step model a).reports.delivered.length ≤ (p.step model a).drained.length := by
  obtain ⟨due, front, hfront, hdrained, hdelivered, -⟩ := step_spec model p a
  rw [hdrained, hdelivered, List.length_append, List.length_append]
  exact Nat.add_le_add hle hfront.length_le

theorem complete_step_iff [DecimalWidth] {p : SimExecutionClientPort} (a : Action)
    (hp : p.Complete) : (p.step model a).Complete ↔ p.RoomFor model a := by
  obtain ⟨due, front, -, hdrained, hdelivered, hroom⟩ := step_spec model p a
  rw [Complete, hdrained, hdelivered, hp, List.append_cancel_left_eq, hroom]

theorem complete_of_step [DecimalWidth] {p : SimExecutionClientPort} (a : Action)
    (hle : p.reports.delivered.length ≤ p.drained.length) (h : (p.step model a).Complete) :
    p.Complete := by
  obtain ⟨due, front, hfront, hdrained, hdelivered, -⟩ := step_spec model p a
  rw [Complete, hdrained, hdelivered] at h
  have hlength := congrArg List.length h
  rw [List.length_append, List.length_append] at hlength
  have := hfront.length_le
  exact (List.append_inj h (by omega)).1

/-! ## Runs -/

/-- **Reports and room.** Once the consumer has read everything that waits, it has received exactly
the reports that the venue drained, in order, if and only if every report of the run was offered to
a channel with room. -/
theorem received_eq_drained_iff [DecimalWidth] (run : List Action) :
    (run.foldl (step model) new).reports.receiveAll.received = (run.foldl (step model) new).drained
      ↔ Along (step model) (RoomFor model) new run := by
  rw [Channel.received_receiveAll]
  exact foldl_iff_along (I := Complete)
    (J := fun p ↦ p.reports.delivered.length ≤ p.drained.length)
    (fun _ a ↦ length_delivered_step_le model a) (fun _ a _ ↦ complete_step_iff model a)
    (fun _ a ↦ complete_of_step model a) rfl le_rfl

section Instances

open scoped RustDecimal

/-- The default model without latency. -/
def instant : BrokerageModel := ({ latencyNs := 0 } : DefaultBrokerageModel).brokerage

/-- The cache of a venue with one instrument. -/
def oneInstrument : Cache := Cache.new.addInstrument (Position.perp false)

/-- The `n`-th order of a strategy that buys over and over. -/
def nthBuy (n : ℕ) : Order :=
  Order.new ⟨"S"⟩ ⟨"S-" ++ pad20 (n + 1)⟩ (Position.perp false).id .buy .market ⟨1, 0⟩ none none
    .gtc {} 0

/-- A venue is connected, and `n` orders are submitted, while the consumer reads nothing. -/
def silentRun (n : ℕ) : List Action :=
  .connect .new :: (List.range n).map fun i ↦ .submitOrder oneInstrument 0 (nthBuy i) []

/-- Without latency a submit drains the acknowledgement it has scheduled, and nothing is left. -/
theorem drained_submitOrder (i : ℕ) {p : SimExecutionClientPort} {sim : SimState}
    (hsim : p.sim = some sim) (hqueue : sim.queue.entries = []) :
    ∃ sim', (p.submitOrder instant oneInstrument 0 (nthBuy i) []).2.sim = some sim'
      ∧ sim'.queue.entries = []
      ∧ (p.submitOrder instant oneInstrument 0 (nthBuy i) []).2.drained.length
        = p.drained.length + 1 := by
  have hinst : oneInstrument.instrument (nthBuy i).instrumentId = some (Position.perp false) :=
    AList.lookup_insert _
  have hpush : (SimulatedExecutionClient.onSubmit instant oneInstrument 0 (nthBuy i) sim).queue
      = sim.queue.push 0 (.accepted (nthBuy i).clientOrderId (simVenueId (sim.venueSeq + 1))) := by
    rw [SimulatedExecutionClient.onSubmit, hinst]
    rfl
  have hentries : (SimulatedExecutionClient.onSubmit instant oneInstrument 0 (nthBuy i)
      sim).queue.entries = [⟨0, sim.queue.seq + 1,
        .accepted (nthBuy i).clientOrderId (simVenueId (sim.venueSeq + 1))⟩] := by
    rw [hpush]
    change List.orderedInsert _ _ sim.queue.entries = _
    rw [hqueue]
    rfl
  rw [submitOrder, hsim]
  refine ⟨_, rfl, ?_, ?_⟩
  · change List.dropWhile _ (SimulatedExecutionClient.onSubmit _ _ _ _ _).queue.entries = _
    rw [hentries]
    rfl
  · change (_ ++ List.map _ (List.takeWhile _
      (SimulatedExecutionClient.onSubmit _ _ _ _ _).queue.entries)).length = _
    rw [hentries, List.length_append]
    rfl

/-- After `n` submits `n` acknowledgements were drained, and nobody has read one. -/
theorem silentRun_spec (n : ℕ) :
    ((silentRun n).foldl (step instant) new).drained.length = n
      ∧ ((silentRun n).foldl (step instant) new).reports.received = []
      ∧ ((silentRun n).foldl (step instant) new).reports.buffer.length ≤ capacity := by
  suffices hall : ∃ sim, ((silentRun n).foldl (step instant) new).sim = some sim
      ∧ sim.queue.entries = []
      ∧ ((silentRun n).foldl (step instant) new).drained.length = n
      ∧ ((silentRun n).foldl (step instant) new).reports.received = []
      ∧ ((silentRun n).foldl (step instant) new).reports.buffer.length ≤ capacity by
    obtain ⟨-, -, -, h⟩ := hall
    exact h
  induction n with
  | zero => exact ⟨.new, rfl, rfl, rfl, rfl, Nat.zero_le _⟩
  | succ n ih =>
    obtain ⟨sim, hsim, hqueue, hdrained, hreceived, hbuffer⟩ := ih
    have hrun :
        silentRun (n + 1) = silentRun n ++ [.submitOrder oneInstrument 0 (nthBuy n) []] := by
      rw [silentRun, List.range_succ, List.map_append]
      rfl
    rw [hrun, List.foldl_append, List.foldl_cons, List.foldl_nil]
    obtain ⟨sim', hsim', hqueue', hdrained'⟩ := drained_submitOrder n hsim hqueue
    refine ⟨sim', hsim', hqueue', hdrained'.trans (congrArg (· + 1) hdrained), ?_, ?_⟩
    · rw [step, submitOrder, hsim]
      exact (Channel.received_forward_nil _ _).trans hreceived
    · rw [step, submitOrder, hsim]
      exact Channel.length_buffer_forward_le _ _ hbuffer

/-- A consumer that reads nothing while 2049 orders are acknowledged never learns of the last. -/
theorem not_received_silentRun : ¬ ∀ (model : BrokerageModel) (run : List Action),
    (run.foldl (step model) new).reports.receiveAll.received
      = (run.foldl (step model) new).drained := by
  intro h
  obtain ⟨hdrained, hreceived, hbuffer⟩ := silentRun_spec 2049
  have hlength := congrArg List.length (h instant (silentRun 2049))
  rw [Channel.received_receiveAll, Channel.delivered, hreceived, List.nil_append, hdrained]
    at hlength
  rw [hlength] at hbuffer
  exact absurd hbuffer (by decide)

end Instances

end SimExecutionClientPort

end Coinext
