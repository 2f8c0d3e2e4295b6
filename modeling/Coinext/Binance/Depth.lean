import Coinext.Binance.Book
import Coinext.Binance.Wire
import Coinext.Model.MarketData

/-!
# The live depth pipeline

Frames of the combined stream are normalized to market events. Depth diffs go through a
`DepthResyncer`, which follows the update ids of each symbol and asks for a REST snapshot on a gap;
the snapshot is turned into a `Clear` and one `Add` for each level, and emitted before the deltas of
the frame. Nothing is emitted for a symbol whose book is not synced.
-/

namespace Coinext.Binance

/-! ## Normalizing -/

section Normalize

variable [DecimalText] [DecimalWidth]

def normalizeTrade (data : Json) (tsInit : UnixNanos) : Except WireError TradeTick := do
  let symbol ← strField data "s"
  let price ← parsePrice (← strField data "p")
  let size ← parseQty (← strField data "q")
  let tradeId ← numField data "t"
  let buyerIsMaker := (data.getBool "m").getD false
  let tsEvent := msToNanos (← numField data "T")
  return {
    instrumentId := instrumentId symbol
    price := price
    size := size
    aggressor := if buyerIsMaker then .sell else .buy
    tradeId := ⟨toString tradeId⟩
    tsEvent := tsEvent
    tsInit := tsInit }

/-- The ticker has no event time; the time of ingestion stands in. -/
def normalizeBookTicker (data : Json) (tsInit : UnixNanos) : Except WireError QuoteTick := do
  let symbol ← strField data "s"
  let bid ← parsePrice (← strField data "b")
  let ask ← parsePrice (← strField data "a")
  let bidSize ← parseQty (← strField data "B")
  let askSize ← parseQty (← strField data "A")
  return {
    instrumentId := instrumentId symbol
    bid := bid
    ask := ask
    bidSize := bidSize
    askSize := askSize
    tsEvent := tsInit
    tsInit := tsInit }

/-- Price and size of one level. `what` names the message in the error texts. -/
def readLevel (what : String) (level : Json) : Except WireError (Price × Quantity) := do
  let pair ← orError level.asArray (what ++ ": level not a [price, qty] pair")
  let price ← parsePrice (← orError (pair.head?.bind Json.asStr) (what ++ ": missing price"))
  let size ← parseQty (← orError (pair[1]?.bind Json.asStr) (what ++ ": missing size"))
  return (price, size)

/-- The levels under a key. -/
def readLevels (what : String) (data : Json) (key : String) :
    Except WireError (List (Price × Quantity)) := do
  let levels ← orError (data.getArray key) (what ++ ": missing `" ++ key ++ "` levels")
  levels.mapM (readLevel what)

/-- The delta of a level in a diff. A size of zero removes the level. -/
def diffDelta (id : InstrumentId) (sequence : ℕ) (tsEvent tsInit : UnixNanos) (side : OrderSide)
    (level : Price × Quantity) : OrderBookDelta where
  instrumentId := id
  action := if level.2.isZero then .delete else .update
  side := side
  price := level.1
  size := level.2
  sequence := sequence
  tsEvent := tsEvent
  tsInit := tsInit

/-- A depth diff: its ids and one delta for each level, bids first. -/
def normalizeDepth (data : Json) (tsInit : UnixNanos) :
    Except WireError (DepthUpdate × List OrderBookDelta) := do
  let symbol ← strField data "s"
  let firstUpdateId ← numField data "U"
  let sequence ← numField data "u"
  let tsEvent := msToNanos (← numField data "E")
  let bids ← readLevels "depth" data "b"
  let asks ← readLevels "depth" data "a"
  let delta := diffDelta (instrumentId symbol) sequence tsEvent tsInit
  return (⟨firstUpdateId, sequence, data.getU64 "pu"⟩,
    bids.map (delta .buy) ++ asks.map (delta .sell))

/-- The delta of a level in a snapshot. -/
def snapshotDelta (id : InstrumentId) (sequence : ℕ) (tsEvent tsInit : UnixNanos) (side : OrderSide)
    (level : Price × Quantity) : OrderBookDelta where
  instrumentId := id
  action := .add
  side := side
  price := level.1
  size := level.2
  sequence := sequence
  tsEvent := tsEvent
  tsInit := tsInit

/-- The boundary before the levels of a snapshot. Price, size and side are placeholders. -/
def clearDelta (id : InstrumentId) (sequence : ℕ) (tsEvent tsInit : UnixNanos) :
    OrderBookDelta where
  instrumentId := id
  action := .clear
  side := .buy
  price := .zero wirePrecision
  size := .zero wirePrecision
  sequence := sequence
  tsEvent := tsEvent
  tsInit := tsInit

/-- A snapshot: its id, and the deltas that rebuild the book from it. -/
def normalizeDepthSnapshot (symbol : String) (body : Json) (tsEvent tsInit : UnixNanos) :
    Except WireError (ℕ × List OrderBookDelta) := do
  let lastUpdateId ← orError (body.getU64 "lastUpdateId") "depth snapshot missing lastUpdateId"
  let bids ← readLevels "depth snapshot" body "bids"
  let asks ← readLevels "depth snapshot" body "asks"
  let id := instrumentId symbol
  let delta := snapshotDelta id lastUpdateId tsEvent tsInit
  return (lastUpdateId, clearDelta id lastUpdateId tsEvent tsInit ::
    (bids.map (delta .buy) ++ asks.map (delta .sell)))

end Normalize

/-! ## The resyncer -/

inductive DepthAction where
  | continue_
  /-- The caller has to fetch a snapshot. -/
  | needSnapshot
deriving DecidableEq

structure BookState where
  book : LocalOrderBook := .new
  /-- Diffs that wait for a snapshot. -/
  buffer : List DepthUpdate := []
  awaitingSnapshot : Bool := false
deriving DecidableEq

/-- The books by symbol; one that was never touched is in its default state. -/
structure DepthResyncer where
  books : String → BookState

namespace DepthResyncer

def new : DepthResyncer := ⟨fun _ ↦ {}⟩

def set (r : DepthResyncer) (symbol : String) (state : BookState) : DepthResyncer :=
  ⟨Function.update r.books symbol state⟩

@[simp] theorem books_set_self (r : DepthResyncer) (symbol : String) (state : BookState) :
    (r.set symbol state).books symbol = state := Function.update_self ..

theorem books_set_of_ne (r : DepthResyncer) {symbol other : String} (h : other ≠ symbol)
    (state : BookState) : (r.set symbol state).books other = r.books other :=
  Function.update_of_ne h ..

/-- After a reconnect no book is trusted. -/
def markAllForResync (r : DepthResyncer) : DepthResyncer :=
  ⟨fun symbol ↦ { r.books symbol with book := .new, buffer := [], awaitingSnapshot := false }⟩

end DepthResyncer

namespace BookState

/-- Take one diff in. -/
def onDiff (state : BookState) (update : DepthUpdate) : DepthAction × BookState :=
  if state.awaitingSnapshot then
    (.needSnapshot, { state with buffer := state.buffer ++ [update] })
  else if state.book.synced = false ∧ state.book.lastUpdateId = 0 then
    (.needSnapshot, { state with awaitingSnapshot := true, buffer := state.buffer ++ [update] })
  else match state.book.applyDiff update with
    | (.resync, book) => (.needSnapshot, ⟨book, [update], true⟩)
    | (_, book) => (.continue_, { state with book := book })

/-- Replay buffered diffs over a snapshot, dropping those it covers. A gap ends the replay. -/
def replay (snapshotLastId : ℕ) :
    List DepthUpdate → LocalOrderBook → DepthAction × LocalOrderBook
  | [], book => (.continue_, book)
  | update :: rest, book =>
    if update.lastUpdateId ≤ snapshotLastId then replay snapshotLastId rest book
    else match book.applyDiff update with
      | (.resync, book') => (.needSnapshot, book')
      | (_, book') => replay snapshotLastId rest book'

/-- Install a snapshot and replay the buffered diffs over it. -/
def onSnapshot (state : BookState) (snapshotLastId : ℕ) : DepthAction × BookState :=
  match replay snapshotLastId state.buffer (state.book.installSnapshot snapshotLastId) with
  | (.continue_, book) => (.continue_, ⟨book, [], false⟩)
  | (.needSnapshot, book) => (.needSnapshot, ⟨book, [], true⟩)

end BookState

/-! ## Processing a frame -/

/-- A text message of the stream: the parsed frame, when the text is JSON; the time of ingestion;
and how the depth snapshots that are fetched meanwhile turn out, `none` for a request that fails. -/
structure Incoming where
  frame : Option Json
  tsInitMs : ℕ
  responses : List (Option Json)

/-- Whether the stream name has `part` in it. -/
def containsText (stream part : String) : Bool := part.toList <:+: stream.toList

def endsWith (stream suffix : String) : Bool := suffix.toList <:+ stream.toList

section Process

variable [DecimalText] [DecimalWidth]

/-- The events of a frame taken alone; `none` for a frame that is not recognized. -/
def normalizeCombinedFrame (frame : Json) (tsInitMs : ℕ) : Option (List MarketEvent) := do
  let stream ← frame.getStr "stream"
  let data ← frame.get "data"
  let tsInit := msToNanos tsInitMs
  if endsWith stream "@trade" then
    let tick ← (normalizeTrade data tsInit).toOption
    some [.trade tick]
  else if endsWith stream "@bookTicker" then
    let tick ← (normalizeBookTicker data tsInit).toOption
    some [.quote tick]
  else if containsText stream "@depth" then
    let (_, deltas) ← (normalizeDepth data tsInit).toOption
    some (deltas.map .delta)
  else none

/-- A fetched snapshot; `none` when the request fails or its body cannot be read. -/
def fetchDepthSnapshot (symbol : String) (response : Option Json) (tsEvent tsInit : UnixNanos) :
    Option (ℕ × List OrderBookDelta) :=
  response.bind fun body ↦ (normalizeDepthSnapshot symbol body tsEvent tsInit).toOption

/-- Fetch snapshots as long as one is needed, keeping the deltas of the last. `none` when a request
fails, after which the next diff tries again. -/
def fetchWhileNeeded (symbol : String) (tsEvent tsInit : UnixNanos) :
    List (Option Json) → DepthAction → List OrderBookDelta → BookState →
      Option (List OrderBookDelta) × BookState
  | _, .continue_, deltas, state => (some deltas, state)
  | [], .needSnapshot, _, state => (none, state)
  | response :: rest, .needSnapshot, _, state =>
    match fetchDepthSnapshot symbol response tsEvent tsInit with
    | none => (none, state)
    | some (lastId, deltas) =>
      let (action, state') := state.onSnapshot lastId
      fetchWhileNeeded symbol tsEvent tsInit rest action deltas state'

/-- A depth frame: the deltas it emits and the resyncer after it. -/
def processDepth (data : Json) (tsInit : UnixNanos) (responses : List (Option Json))
    (r : DepthResyncer) : List OrderBookDelta × DepthResyncer :=
  match normalizeDepth data tsInit, strField data "s" with
  | .ok (update, deltas), .ok symbol =>
    -- the snapshot takes the event time of the frame, so that it sorts just before it
    let snapTsEvent := match numField data "E" with
      | .ok e => msToNanos e
      | .error _ => tsInit
    let (action, state) := (r.books symbol).onDiff update
    let (snapshot, state') := fetchWhileNeeded symbol snapTsEvent tsInit responses action [] state
    let emitted := match snapshot with
      | some snapshotDeltas => if state'.book.synced then snapshotDeltas ++ deltas else []
      | none => []
    (emitted, r.set symbol state')
  | _, _ => ([], r)

/-- Process one message of the stream. -/
def processFrame (input : Incoming) (r : DepthResyncer) : List MarketEvent × DepthResyncer :=
  match input.frame with
  | none => ([], r)
  | some frame => match frame.getStr "stream", frame.get "data" with
    | some stream, some data =>
      if containsText stream "@depth" then
        let (deltas, r') := processDepth data (msToNanos input.tsInitMs) input.responses r
        (deltas.map .delta, r')
      else ((normalizeCombinedFrame frame input.tsInitMs).getD [], r)
    | _, _ => ([], r)

/-! ## The pump -/

/-- What the WebSocket delivers. -/
inductive WsMessage where
  | text (input : Incoming)
  | reconnected

/-- The pump and everything it has sent to the core. -/
structure Pump where
  resyncer : DepthResyncer
  sent : List MarketEvent

namespace Pump

def new : Pump := ⟨.new, []⟩

def step (p : Pump) : WsMessage → Pump
  | .text input =>
    let (events, resyncer) := processFrame input p.resyncer
    ⟨resyncer, p.sent ++ events⟩
  | .reconnected => { p with resyncer := p.resyncer.markAllForResync }

end Pump

end Process

end Coinext.Binance
