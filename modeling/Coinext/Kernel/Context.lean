import Coinext.Core.Clock
import Coinext.Engine.Ports
import Coinext.Engine.Cache

/-!
# Strategies

A strategy reaches the platform through its context only: it reads the clock and the cache, sets and
cancels timers, asks the order factory for orders, and leaves commands in the outbox. A handler is a
`Program`, the tree of these requests, each continued by what the platform answers; so a strategy is
deterministic, and it cannot do anything else.
-/

namespace Coinext

/-! ## The order factory -/

/-- What a factory method asks for; the factory adds the strategy and a fresh client order id. -/
structure OrderSpec where
  instrumentId : InstrumentId
  side : OrderSide
  orderType : OrderType
  qty : Quantity
  price : Option Price
  trigger : Option Price
  tif : TimeInForce
  flags : OrderFlags
  ts : UnixNanos

namespace OrderSpec

variable (instrumentId : InstrumentId) (side : OrderSide) (qty : Quantity)

def market (ts : UnixNanos) : OrderSpec :=
  ⟨instrumentId, side, .market, qty, none, none, .ioc, {}, ts⟩

def limit (price : Price) (tif : TimeInForce) (flags : OrderFlags) (ts : UnixNanos) : OrderSpec :=
  ⟨instrumentId, side, .limit, qty, some price, none, tif, flags, ts⟩

/-- Rests until the market crosses `trigger`, then takes liquidity. -/
def stopMarket (trigger : Price) (ts : UnixNanos) : OrderSpec :=
  ⟨instrumentId, side, .stopMarket, qty, none, some trigger, .gtc, {}, ts⟩

/-- Rests until the market crosses `trigger`, then rests as a limit order at `price`. -/
def stopLimit (trigger price : Price) (ts : UnixNanos) : OrderSpec :=
  ⟨instrumentId, side, .stopLimit, qty, some price, some trigger, .gtc, {}, ts⟩

/-- `trigger` is the initial stop level. -/
def trailingStop (trigger : Price) (ts : UnixNanos) : OrderSpec :=
  ⟨instrumentId, side, .trailingStopMarket, qty, none, some trigger, .gtc, {}, ts⟩

end OrderSpec

/-- The single owner of the client order ids. -/
structure OrderFactory where
  strategyId : StrategyId
  seq : ℕ

namespace OrderFactory

def new (strategyId : StrategyId) : OrderFactory := ⟨strategyId, 0⟩

/-- The id that comes next. -/
def nextId (f : OrderFactory) : ClientOrderId := ⟨f.strategyId.text ++ "-" ++ pad20 (f.seq + 1)⟩

def make (f : OrderFactory) (spec : OrderSpec) : Order × OrderFactory :=
  (Order.new f.strategyId f.nextId spec.instrumentId spec.side spec.orderType spec.qty spec.price
    spec.trigger spec.tif spec.flags spec.ts, { f with seq := f.seq + 1 })

end OrderFactory

/-! ## Handlers -/

/-- What a handler does with its context before it returns. -/
inductive Program (α : Type) : Type where
  | done (a : α)
  | nowNs (k : UnixNanos → Program α)
  | setTimer (name : String) (ts : UnixNanos) (k : TimerId → Program α)
  | cancelTimer (id : TimerId) (next : Program α)
  | position (id : InstrumentId) (k : Option Position → Program α)
  | quote (id : InstrumentId) (k : Option QuoteTick → Program α)
  | mark (id : InstrumentId) (k : Option Price → Program α)
  | orderBook (id : InstrumentId) (k : Option OrderBook → Program α)
  | instrument (id : InstrumentId) (k : Option Instrument → Program α)
  /-- A method of the order factory. -/
  | order (spec : OrderSpec) (k : Order → Program α)
  | seq (k : ℕ → Program α)
  /-- Restore the factory's cursor. -/
  | restoreSeq (seq : ℕ) (next : Program α)
  /-- Leave a command in the outbox. -/
  | emit (cmd : StrategyCommand) (next : Program α)

namespace Program

variable {α : Type}

def submit (order : Order) (next : Program α) : Program α := emit (.submit order) next

def cancel (id : ClientOrderId) (next : Program α) : Program α := emit (.cancel id) next

def modify (id : ClientOrderId) (quantity : Option Quantity) (price : Option Price)
    (next : Program α) : Program α :=
  emit (.modify id quantity price) next

/-- Build an order at the current time, submit it and continue with its id. -/
def submitSpec (spec : UnixNanos → OrderSpec) (k : ClientOrderId → Program α) : Program α :=
  nowNs fun ts ↦ order (spec ts) fun o ↦ submit o (k o.clientOrderId)

variable (instrumentId : InstrumentId) (side : OrderSide) (qty : Quantity)

def submitMarket (k : ClientOrderId → Program α) : Program α :=
  submitSpec (.market instrumentId side qty) k

def submitLimit (price : Price) (k : ClientOrderId → Program α) : Program α :=
  submitSpec (.limit instrumentId side qty price .gtc {}) k

def submitStopMarket (trigger : Price) (k : ClientOrderId → Program α) : Program α :=
  submitSpec (.stopMarket instrumentId side qty trigger) k

def submitStopLimit (trigger price : Price) (k : ClientOrderId → Program α) : Program α :=
  submitSpec (.stopLimit instrumentId side qty trigger price) k

/-- A trailing stop `offset` away from the current mark, or at `offset` without a mark. -/
def submitTrailingStop (offset : Price) (k : ClientOrderId → Program α) : Program α :=
  nowNs fun ts ↦ mark instrumentId fun m ↦
    let trigger := match m, side with
      | some m, .sell => match m.checkedSub offset with
        | .ok p => p
        | .error _ => offset
      | some m, .buy => match m.checkedAdd offset with
        | .ok p => p
        | .error _ => offset
      | none, _ => offset
    order (.trailingStop instrumentId side qty trigger ts) fun o ↦ submit o (k o.clientOrderId)

end Program

/-- A call the kernel makes to the strategy. -/
inductive Callback where
  | start
  | quote (q : QuoteTick)
  | trade (t : TradeTick)
  | bar (b : Bar)
  | book (b : OrderBook)
  | orderEvent (e : OrderEvent)
  | orderFilled (f : Fill)
  | timer (t : TimerEvent)
  | stop
deriving DecidableEq

/-- The strategy trait: from its own state and a callback, the handler that leaves its next
state. -/
structure Strategy (σ : Type) where
  handle : σ → Callback → Program σ

end Coinext
