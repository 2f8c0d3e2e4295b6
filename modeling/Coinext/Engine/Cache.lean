import Coinext.Model.MarketData
import Coinext.Model.Order
import Coinext.Model.Position

/-!
# The cache

The in-memory store every component reads and writes, and the market-data engine that keeps its
quotes, marks and books.
-/

namespace Coinext

structure Cache where
  instruments : Map InstrumentId Instrument
  quotes : Map InstrumentId QuoteTick
  marks : Map InstrumentId Price
  orderBooks : Map InstrumentId OrderBook
  orders : Map ClientOrderId Order
  positions : Map InstrumentId Position
  /-- Balances of the account. -/
  account : Option (Map Currency Money)
deriving DecidableEq

namespace Cache

def new : Cache := ⟨∅, ∅, ∅, ∅, ∅, ∅, none⟩

def addInstrument (c : Cache) (inst : Instrument) : Cache :=
  { c with instruments := c.instruments.insert inst.id inst }

def instrument (c : Cache) (id : InstrumentId) : Option Instrument := c.instruments.lookup id

/-- Store the latest quote and refresh the mark to its mid. -/
def addQuote (c : Cache) (q : QuoteTick) : Cache :=
  { c with
    quotes := c.quotes.insert q.instrumentId q
    marks := c.marks.insert q.instrumentId q.mid }

def quote (c : Cache) (id : InstrumentId) : Option QuoteTick := c.quotes.lookup id

def setMark (c : Cache) (id : InstrumentId) (mark : Price) : Cache :=
  { c with marks := c.marks.insert id mark }

def mark (c : Cache) (id : InstrumentId) : Option Price := c.marks.lookup id

/-- Fold a delta into the instrument's book, creating it on first sight. -/
def applyBookDelta (c : Cache) (d : OrderBookDelta) : Cache :=
  let book := (c.orderBooks.lookup d.instrumentId).getD (OrderBook.new d.instrumentId)
  { c with orderBooks := c.orderBooks.insert d.instrumentId (book.apply d).1 }

def orderBook (c : Cache) (id : InstrumentId) : Option OrderBook := c.orderBooks.lookup id

def addOrder (c : Cache) (o : Order) : Cache :=
  { c with orders := c.orders.insert o.clientOrderId o }

def order (c : Cache) (id : ClientOrderId) : Option Order := c.orders.lookup id

/-- Write an order back under the key it was borrowed from. -/
def setOrder (c : Cache) (id : ClientOrderId) (o : Order) : Cache :=
  { c with orders := c.orders.insert id o }

def upsertPosition (c : Cache) (pos : Position) : Cache :=
  { c with positions := c.positions.insert pos.instrumentId pos }

def position (c : Cache) (id : InstrumentId) : Option Position := c.positions.lookup id

def setAccount (c : Cache) (balances : Map Currency Money) : Cache :=
  { c with account := some balances }

/-- What the data engine does with a market event before publishing it. -/
def process (c : Cache) : MarketEvent → Cache
  | .quote q => c.addQuote q
  | .trade t => c.setMark t.instrumentId t.price
  | .bar b => c.setMark b.barType.instrumentId b.close
  | .delta d => c.applyBookDelta d

theorem process_frame (c : Cache) (ev : MarketEvent) :
    (c.process ev).instruments = c.instruments ∧ (c.process ev).orders = c.orders ∧
      (c.process ev).positions = c.positions ∧ (c.process ev).account = c.account := by
  cases ev <;> exact ⟨rfl, rfl, rfl, rfl⟩

end Cache

end Coinext
