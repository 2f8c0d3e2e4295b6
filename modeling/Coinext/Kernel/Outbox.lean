import Coinext.Kernel.Transcript
import Coinext.Model.Pnl

/-!
# Commands and the outbox

A handler leaves its commands in the outbox, and `processOutbox` passes the submits and cancels
among them to the engine. It takes what is there when it starts; what the callbacks made on the way
leave behind waits for the next time. So the outbox is a queue: whatever the kernel does, what was
waiting and what is queued is what is routed and what is waiting then, in this order (`Fifo`).

The main loop comes back to the outbox until it ends, and once more after `onStop`. There is no next
time after that. Hence every command is routed if and only if the callbacks made while the last
outbox is processed leave none.
-/

namespace Coinext

/-- The engine has a call for the command. -/
def StrategyCommand.reachesEngine : StrategyCommand → Bool
  | .submit _ | .cancel _ => true
  | .modify .. => false

/-- The command that a call of the engine carries out. -/
def CoreOp.command? : CoreOp → Option StrategyCommand
  | .submit _ _ order _ => some (.submit order)
  | .cancel id _ => some (.cancel id)
  | _ => none

/-- The command an entry passes to the engine. -/
def Entry.command? : Entry → Option StrategyCommand
  | .routed op => op.command?
  | _ => none

/-- The submits and cancels that handlers have left in the outbox. -/
def queuedCommands (es : List Entry) : List StrategyCommand :=
  (es.filterMap Entry.queued?).filter StrategyCommand.reachesEngine

/-- The submits and cancels that were passed to the engine. -/
def routedCommands (es : List Entry) : List StrategyCommand := es.filterMap Entry.command?

theorem queuedCommands_append (es es' : List Entry) :
    queuedCommands (es ++ es') = queuedCommands es ++ queuedCommands es' := by
  rw [queuedCommands, List.filterMap_append, List.filter_append]
  rfl

theorem routedCommands_append (es es' : List Entry) :
    routedCommands (es ++ es') = routedCommands es ++ routedCommands es' :=
  List.filterMap_append

namespace BacktestKernel

section Fifo

variable {σ : Type} [DecimalWidth] {setup : Setup σ} {k k' k'' : BacktestKernel σ}
  {es es' : List Entry}

/-- The commands that wait in the outbox. -/
def waiting (k : BacktestKernel σ) : List StrategyCommand :=
  k.outbox.filter StrategyCommand.reachesEngine

/-! ## Handlers only queue -/

/-- Commands are appended to the outbox and none is routed. -/
structure Queues (k : BacktestKernel σ) (es : List Entry) (k' : BacktestKernel σ) : Prop where
  outbox : k'.outbox = k.outbox ++ es.filterMap Entry.queued?
  routed : routedCommands es = []

omit [DecimalWidth] in
theorem Queues.trans (h : Queues k es k') (h' : Queues k' es' k'') :
    Queues k (es ++ es') k'' := by
  constructor
  · rw [h'.outbox, h.outbox, List.filterMap_append, List.append_assoc]
  · rw [routedCommands_append, h.routed, h'.routed]
    rfl

theorem queues_narrates : Narrates setup (Queues (σ := σ)) where
  refl _ := ⟨(List.append_nil _).symm, rfl⟩
  trans := .trans
  frame _ _ _ houtbox := ⟨houtbox.trans (List.append_nil _).symm, rfl⟩
  callback _ _ _ := ⟨(List.append_nil _).symm, rfl⟩
  queued _ _ := ⟨rfl, rfl⟩
  other _ _ _ := ⟨(List.append_nil _).symm, rfl⟩

/-! ## The outbox is a queue -/

/-- What was waiting and what is queued is what is routed and what is waiting then. -/
def Fifo (k : BacktestKernel σ) (es : List Entry) (k' : BacktestKernel σ) : Prop :=
  k.waiting ++ queuedCommands es = routedCommands es ++ k'.waiting

omit [DecimalWidth] in
theorem Queues.fifo (h : Queues k es k') : Fifo k es k' := by
  rw [Fifo, h.routed, waiting, waiting, h.outbox, List.filter_append]
  rfl

omit [DecimalWidth] in
theorem Fifo.trans (h : Fifo k es k') (h' : Fifo k' es' k'') : Fifo k (es ++ es') k'' := by
  calc k.waiting ++ queuedCommands (es ++ es')
      = k.waiting ++ queuedCommands es ++ queuedCommands es' := by
        rw [queuedCommands_append, List.append_assoc]
    _ = routedCommands es ++ (k'.waiting ++ queuedCommands es') := by
        rw [show k.waiting ++ queuedCommands es = _ from h, List.append_assoc]
    _ = routedCommands (es ++ es') ++ k''.waiting := by
        rw [show k'.waiting ++ queuedCommands es' = _ from h', routedCommands_append,
          List.append_assoc]

theorem fifo_narrates : Narrates setup (Fifo (σ := σ)) := by
  have hQ : Narrates setup (Queues (σ := σ)) := queues_narrates
  exact
    { refl := fun k ↦ (hQ.refl k).fifo
      trans := .trans
      frame := fun hcore hops hjournal houtbox ↦ (hQ.frame hcore hops hjournal houtbox).fifo
      callback := fun k cb hcb ↦ (hQ.callback k cb hcb).fifo
      queued := fun k cmd ↦ (hQ.queued k cmd).fifo
      other := fun k op hop ↦ (hQ.other k op hop).fifo }

/-- An engine call that a command asked for, and the callbacks it leads to. -/
theorem performThen_routed {op : CoreOp}
    {handle : OrderEvent → BacktestKernel σ → BacktestKernel σ}
    {entries : OrderEvent → BacktestKernel σ → List Entry}
    (hhandle : ∀ k ev, Queues k (entries ev k) (handle ev k)) :
    let es := performThenEntries setup .routed op handle entries k
    (performThen setup op handle k).outbox = k.outbox ++ es.filterMap Entry.queued? ∧
      routedCommands es = op.command?.toList := by
  have hQ : Narrates setup (Queues (σ := σ)) := queues_narrates
  have h := hQ.foldl (k := (perform setup op k).2) hhandle (perform setup op k).1
  refine ⟨h.outbox, ?_⟩
  rw [performThenEntries, ← List.singleton_append, routedCommands_append, h.routed,
    List.append_nil]
  cases hcmd : op.command? <;> simp [routedCommands, Entry.command?, hcmd]

theorem route_spec (now : UnixNanos) (k : BacktestKernel σ) (cmd : StrategyCommand) :
    (route setup now k cmd).outbox
        = k.outbox ++ (routeEntries setup now k cmd).filterMap Entry.queued? ∧
      routedCommands (routeEntries setup now k cmd)
        = [cmd].filter StrategyCommand.reachesEngine := by
  cases cmd with
  | submit order => exact performThen_routed fun _ ev ↦ queues_narrates.notifySubmitted ev
  | cancel id => exact performThen_routed fun _ ev ↦ queues_narrates.notifyEvent ev
  | modify id quantity price => exact ⟨(List.append_nil _).symm, rfl⟩

theorem processOutbox_spec (k : BacktestKernel σ) :
    (processOutbox setup k).outbox = (processOutboxEntries setup k).filterMap Entry.queued? ∧
      routedCommands (processOutboxEntries setup k) = k.waiting := by
  have hfold (now : UnixNanos) (cmds : List StrategyCommand) (k : BacktestKernel σ) :
      let es := foldEntries (route setup now) (routeEntries setup now) cmds k
      (cmds.foldl (route setup now) k).outbox = k.outbox ++ es.filterMap Entry.queued? ∧
        routedCommands es = cmds.filter StrategyCommand.reachesEngine := by
    induction cmds generalizing k with
    | nil => exact ⟨(List.append_nil _).symm, rfl⟩
    | cons cmd cmds ih =>
      obtain ⟨houtbox, hrouted⟩ : (route setup now k cmd).outbox = _ ∧ _ = _ :=
        route_spec now k cmd
      obtain ⟨houtbox', hrouted'⟩ := ih (route setup now k cmd)
      constructor
      · rw [List.foldl_cons, houtbox', houtbox, foldEntries, List.filterMap_append,
          List.append_assoc]
      · rw [foldEntries, routedCommands_append, hrouted, hrouted', ← List.filter_append]
        rfl
  exact hfold k.core.clock.now k.outbox { k with outbox := [] }

theorem fifo_narratesLoop : NarratesLoop setup (Fifo (σ := σ)) := by
  have houtbox (k : BacktestKernel σ) :
      Fifo k (processOutboxEntries setup k) (processOutbox setup k) := by
    obtain ⟨hleft, hrouted⟩ : (processOutbox setup k).outbox = _ ∧ _ = _ := processOutbox_spec k
    rw [Fifo, hrouted, waiting, waiting, hleft]
    rfl
  refine ⟨fifo_narrates, houtbox, fun k ts ↦ fifo_narrates.timers houtbox ?_ ?_ ts⟩
  · exact fun k ts ↦ Queues.fifo ⟨(List.append_nil _).symm, rfl⟩
  · exact fun k t ↦ Queues.fifo ⟨(List.append_nil _).symm, rfl⟩

/-! ## Whole runs -/

/-- **Commands.** In a run that ends, the submits and cancels that handlers queue are routed, each
once and in their order, if and only if the callbacks made while the last outbox is processed queue
none. -/
theorem routed_iff {fuel : ℕ} {events : List MarketEvent}
    (hrun : run setup fuel (sortedEvents events) (start setup) = some k) :
    routedCommands (transcript setup fuel events) = queuedCommands (transcript setup fuel events) ↔
      queuedCommands (processOutboxEntries setup (call setup .stop (loopOf setup fuel events).2))
        = [] := by
  have hfifo : Fifo (build setup) (transcript setup fuel events) (stateOf setup fuel events) :=
    fifo_narratesLoop.transcript fuel events
  rw [stateOf_of_run hrun] at hfifo
  obtain ⟨-, rfl⟩ := run_eq_some_iff.mp hrun
  -- what is waiting at the end was queued while the last outbox was processed
  have hwaiting : (finish setup (loopOf setup fuel events).2).waiting = queuedCommands
      (processOutboxEntries setup (call setup .stop (loopOf setup fuel events).2)) :=
    congrArg (List.filter StrategyCommand.reachesEngine) (processOutbox_spec _).1
  have hqueued : queuedCommands (transcript setup fuel events)
      = routedCommands (transcript setup fuel events) ++ queuedCommands
        (processOutboxEntries setup (call setup .stop (loopOf setup fuel events).2)) := by
    rw [← hwaiting]
    exact hfifo
  rw [hqueued, List.self_eq_append_right]

end Fifo

section Instances

open scoped RustDecimal

/-- When the run stops the strategy buys at market. If `again`, it answers the first order event
with a second order. -/
def lateBuyer (again : Bool) : Setup Bool where
  config := ⟨[Position.perp false], ⟨"USDT", 2, two_le_maxPrecision⟩,
    ⟨100000, ⟨"USDT", 2, two_le_maxPrecision⟩⟩,
    .unlimited, ({ latencyNs := 0 } : DefaultBrokerageModel).brokerage, 0⟩
  strategyId := ⟨"S"⟩
  strategy := ⟨fun wants cb ↦ match wants, cb with
    | wants, .stop => .submitMarket (Position.perp false).id .buy ⟨1, 0⟩ fun _ ↦ .done wants
    | true, .orderEvent _ => .submitMarket (Position.perp false).id .sell ⟨1, 0⟩ fun _ ↦ .done false
    | wants, _ => .done wants⟩
  initial := again
  killed := false
  hash := .lastInserted

theorem isSome_run_lateBuyer (again : Bool) :
    (run (lateBuyer again) 0 (sortedEvents []) (start (lateBuyer again))).isSome = true := by
  cases again <;> decide

/-- The order of `onStop` is routed. -/
theorem routed_iff_lateBuyer :
    (routedCommands (transcript (lateBuyer false) 0 [])).length = 1 ∧
      routedCommands (transcript (lateBuyer false) 0 [])
        = queuedCommands (transcript (lateBuyer false) 0 []) := by
  have hrun := (Option.some_get (isSome_run_lateBuyer false)).symm
  exact ⟨by decide, (routed_iff hrun).mpr (by decide)⟩

/-- The answer to its order event is not. -/
theorem not_routed_of_answer :
    (run (lateBuyer true) 0 (sortedEvents []) (start (lateBuyer true))).isSome = true ∧
      routedCommands (transcript (lateBuyer true) 0 [])
        ≠ queuedCommands (transcript (lateBuyer true) 0 []) := by
  refine ⟨isSome_run_lateBuyer true, fun h ↦ ?_⟩
  have hlength := congrArg List.length h
  exact absurd hlength (by decide)

end Instances

end BacktestKernel

end Coinext
