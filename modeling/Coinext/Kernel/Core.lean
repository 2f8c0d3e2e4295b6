import Coinext.Core.Clock
import Coinext.Engine.Exec

/-!
# The core the kernel drives

The backtest kernel owns the clock, the cache, the order-management engine and the simulated venue,
and it touches them through a fixed set of operations: it advances the clock, drains the venue's
delayed queue, folds reports, routes submits and cancels, publishes market events, and closes
positions at expiry or liquidation. `CoreOp` lists them, `Core.exec` is what each of them does, and
a run of the kernel is a sequence of them.
-/

namespace Coinext

/-- The components the kernel owns. -/
structure Core where
  clock : HistoricalClock
  oms : Oms
  /-- Reports that were drained and wait to be folded: the local `reports` of the main loop. -/
  pending : List ExecutionReport
  /-- Every fill the venue has scheduled; kept for the statements only. -/
  issued : List Fill
  /-- Every synthetic fill that closed a position; kept for the statements only. -/
  closes : List Fill

/-- What the kernel can do to its components. -/
inductive CoreOp where
  | advance (ts : UnixNanos)
  | drain (frontier : UnixNanos)
  /-- Fold the next drained report. -/
  | applyNext
  | submit (risk : RiskEngine) (portfolio : Portfolio) (order : Order) (now : UnixNanos)
  | cancel (id : ClientOrderId) (now : UnixNanos)
  /-- The data engine writes a market event into the cache. -/
  | process (ev : MarketEvent)
  /-- The venue matches its resting orders against a market event. -/
  | onMarket (ev : MarketEvent)
  | closeAt (iid : InstrumentId) (px : Price) (now : UnixNanos) (tagSuffix : String)
  | setTimer (name : String) (ts : UnixNanos)
  | cancelTimer (id : TimerId)
  | popDue (frontier : UnixNanos)

/-! ## Closing a position -/

/-- The synthetic fill that closes a position, if it is open. -/
def closingFill (pos : Position) (inst : Instrument) (iid : InstrumentId) (px : Price)
    (now : UnixNanos) (tagSuffix : String) : Option Fill :=
  let tag := iid.display ++ "-" ++ tagSuffix
  let closeSide : Option OrderSide := match pos.side with
    | .long => some .sell
    | .short => some .buy
    | .flat => none
  closeSide.map fun side ↦
    { tradeId := ⟨tag⟩
      clientOrderId := ⟨tag⟩
      venueOrderId := ⟨tag⟩
      instrumentId := iid
      side := side
      lastPx := px
      lastQty := pos.quantity
      fee := Money.zero inst.settlementCurrency
      liquidity := .taker
      tsEvent := now
      tsInit := now }

/-- The fill that closes the position of `iid`, when there is one to close. -/
def Oms.closing (s : Oms) (iid : InstrumentId) (px : Price) (now : UnixNanos)
    (tagSuffix : String) : Option (Instrument × Position × Fill) := do
  let inst ← s.cache.instrument iid
  let pos ← s.cache.position iid
  let fill ← closingFill pos inst iid px now tagSuffix
  some (inst, pos, fill)

namespace Core

variable [DecimalWidth] (model : BrokerageModel)

/-! ## What each operation does -/

/-- Carry out an operation. The order events that it applied, or stands for, are returned. -/
def exec (c : Core) : CoreOp → List OrderEvent × Core
  | .advance ts => ([], { c with clock := c.clock.advanceTo ts })
  | .drain frontier =>
    let (reports, queue) := c.oms.sim.queue.drainDue frontier
    ([], { c with
      pending := c.pending ++ reports
      oms := { c.oms with sim := { c.oms.sim with queue := queue } } })
  | .applyNext => match c.pending with
    | [] => ([], c)
    | r :: rest =>
      let (applied, oms) := ExecutionEngine.applyReport r c.clock.now c.oms
      (applied, { c with oms := oms, pending := rest })
  | .submit risk portfolio order now =>
    let (applied, oms) :=
      ExecutionEngine.submit risk portfolio model c.clock.now order now c.oms
    (applied, { c with oms := oms })
  | .cancel id now =>
    let (applied, oms) := ExecutionEngine.cancel model c.clock.now id now c.oms
    (applied, { c with oms := oms })
  | .process ev => ([], { c with oms := { c.oms with cache := c.oms.cache.process ev } })
  | .onMarket ev =>
    let sim := SimulatedExecutionClient.onMarket model c.oms.cache c.clock.now ev c.oms.sim
    ([], { c with
      oms := { c.oms with sim := sim }
      issued := c.issued ++ sim.fills.diff c.oms.sim.fills })
  | .closeAt iid px now tagSuffix => match c.oms.closing iid px now tagSuffix with
    | none => ([], c)
    | some (inst, pos, fill) =>
      ([.filled fill], { c with
        oms := { c.oms with cache := c.oms.cache.upsertPosition (pos.applied inst fill) }
        closes := c.closes ++ [fill] })
  | .setTimer name ts => ([], { c with clock := (c.clock.setTimer name ts).2 })
  | .cancelTimer id => ([], { c with clock := c.clock.cancelTimer id })
  | .popDue frontier => ([], { c with clock := (c.clock.popDue frontier).1 })

/-- The core after an operation. -/
def step (c : Core) (op : CoreOp) : Core := (c.exec model op).2

theorem applyNext_cases (c : Core) : (c.pending = [] ∧ c.step model .applyNext = c) ∨
    ∃ r rest, c.pending = r :: rest ∧ c.step model .applyNext = { c with
      oms := (ExecutionEngine.applyReport r c.clock.now c.oms).2
      pending := rest } := by
  cases hpending : c.pending with
  | nil => exact .inl ⟨rfl, by simp only [step, exec, hpending]⟩
  | cons r rest => exact .inr ⟨r, rest, rfl, by simp only [step, exec, hpending]⟩

/-- A position is closed, if there is one to close. -/
theorem closeAt_cases (c : Core) (iid : InstrumentId) (px : Price) (now : UnixNanos)
    (tagSuffix : String) :
    (c.oms.closing iid px now tagSuffix = none ∧
      c.step model (.closeAt iid px now tagSuffix) = c) ∨
    ∃ inst pos f, c.oms.closing iid px now tagSuffix = some (inst, pos, f) ∧
      c.step model (.closeAt iid px now tagSuffix) = { c with
        oms := { c.oms with cache := c.oms.cache.upsertPosition (pos.applied inst f) }
        closes := c.closes ++ [f] } := by
  cases hclosing : c.oms.closing iid px now tagSuffix with
  | none => exact .inl ⟨rfl, by simp only [step, exec, hclosing]⟩
  | some x => exact .inr ⟨x.1, x.2.1, x.2.2, rfl, by simp only [step, exec, hclosing]⟩

end Core

theorem diff_perm_of_perm_append {α : Type} [DecidableEq α] {l new old : List α}
    (h : l.Perm (new ++ old)) : (l.diff old).Perm new := by
  rw [List.perm_iff_count]
  intro a
  rw [List.count_diff, h.count_eq, List.count_append, Nat.add_sub_cancel]

end Coinext
