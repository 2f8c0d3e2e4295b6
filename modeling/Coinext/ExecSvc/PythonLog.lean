import Coinext.ExecSvc.Venue

/-!
# The order log read from Python

The table of order events is also read from Python. `SqliteEventLog` declares the table with the
same columns, and reads the text of an event as a flat record with a field `client_order_id` and a
field `event`. What the Rust store writes there is the serialized enumeration: an object with one
member, whose name is the variant. Such a text has neither of the two fields, and a record without
an order id is passed over, so from Python no order of a log that Rust has written is open.
-/

namespace Coinext

/-! ## The text of an event -/

section Serialized

variable (reasonText : Reason → String)

def Quantity.serialize (q : Quantity) : Json :=
  .obj [("raw", .uint q.raw), ("precision", .uint q.precision)]

def Price.serialize (p : Price) : Json :=
  .obj [("raw", .number p.raw), ("precision", .uint p.precision)]

/-- The code is an array of eight bytes, padded with zeros. -/
def Currency.serialize (c : Currency) : Json :=
  let bytes := (c.code.toList.flatMap String.utf8EncodeChar ++ List.replicate 8 0).take 8
  .obj [("code", .arr (bytes.map fun b ↦ .uint b.toNat)), ("precision", .uint c.precision)]

def Money.serialize (m : Money) : Json :=
  .obj [("amount", .number m.raw), ("currency", m.currency.serialize)]

def InstrumentId.serialize (id : InstrumentId) : Json :=
  .obj [("symbol", .str id.symbol.text), ("venue", .str id.venue.text)]

def OrderSide.serialize : OrderSide → Json
  | .buy => .str "Buy"
  | .sell => .str "Sell"

def OrderType.serialize : OrderType → Json
  | .market => .str "Market"
  | .limit => .str "Limit"
  | .stopMarket => .str "StopMarket"
  | .stopLimit => .str "StopLimit"
  | .marketIfTouched => .str "MarketIfTouched"
  | .trailingStopMarket => .str "TrailingStopMarket"

def TimeInForce.serialize : TimeInForce → Json
  | .gtc => .str "Gtc"
  | .ioc => .str "Ioc"
  | .fok => .str "Fok"
  | .gtd => .str "Gtd"
  | .day => .str "Day"

def LiquiditySide.serialize : LiquiditySide → Json
  | .maker => .str "Maker"
  | .taker => .str "Taker"

/-- An option is its value, or null. -/
def serializeOption {α : Type} (f : α → Json) : Option α → Json
  | some a => f a
  | none => .null

def OrderFlags.serialize (flags : OrderFlags) : Json :=
  .obj [("post_only", .bool flags.postOnly), ("reduce_only", .bool flags.reduceOnly),
    ("display_qty", serializeOption Quantity.serialize flags.displayQty)]

def Fill.serialize (f : Fill) : Json :=
  .obj [("trade_id", .str f.tradeId.text), ("client_order_id", .str f.clientOrderId.text),
    ("venue_order_id", .str f.venueOrderId.text), ("instrument_id", f.instrumentId.serialize),
    ("side", f.side.serialize), ("last_px", f.lastPx.serialize),
    ("last_qty", f.lastQty.serialize), ("fee", f.fee.serialize),
    ("liquidity", f.liquidity.serialize), ("ts_event", .uint f.tsEvent),
    ("ts_init", .uint f.tsInit)]

namespace OrderEvent

/-- The name of the variant. -/
def variant : OrderEvent → String
  | initialized .. => "Initialized"
  | submitted _ => "Submitted"
  | accepted .. => "Accepted"
  | pendingUpdate _ => "PendingUpdate"
  | updated .. => "Updated"
  | pendingCancel _ => "PendingCancel"
  | partiallyFilled _ => "PartiallyFilled"
  | filled _ => "Filled"
  | denied .. => "Denied"
  | rejected .. => "Rejected"
  | canceled _ => "Canceled"
  | expired _ => "Expired"

/-- The content of the variant. -/
def content : OrderEvent → Json
  | initialized id iid side orderType quantity price trigger tif flags ts =>
    .obj [("client_order_id", .str id.text), ("instrument_id", iid.serialize),
      ("side", side.serialize), ("order_type", orderType.serialize),
      ("quantity", quantity.serialize), ("price", serializeOption Price.serialize price),
      ("trigger", serializeOption Price.serialize trigger), ("tif", tif.serialize),
      ("flags", flags.serialize), ("ts", .uint ts)]
  | submitted ts | pendingUpdate ts | pendingCancel ts | canceled ts | expired ts =>
    .obj [("ts", .uint ts)]
  | accepted v ts => .obj [("venue_order_id", .str v.text), ("ts", .uint ts)]
  | updated quantity price ts =>
    .obj [("quantity", serializeOption Quantity.serialize quantity),
      ("price", serializeOption Price.serialize price), ("ts", .uint ts)]
  | partiallyFilled f | filled f => f.serialize
  | denied reason ts | rejected reason ts =>
    .obj [("reason", .str (reasonText reason)), ("ts", .uint ts)]

/-- The text that is stored, as the value it is parsed to: an object with one member. -/
def serialize (ev : OrderEvent) : Json := .obj [(ev.variant, ev.content reasonText)]

end OrderEvent

end Serialized

namespace ExecSvc

/-! ## Reading it from Python -/

inductive PyError where
  /-- A value that is no dictionary has no `get`. -/
  | attribute
  | typeError
  | value
deriving DecidableEq

/-- The conversions of the built-in types that depend on how values print or are read. -/
class PyBuiltins where
  /-- `str` of a value that is no string. -/
  str : Json → String
  lower : String → String
  float : Json → Except PyError F64
  int : Json → Except PyError ℤ

/-- Whether a value counts as true. -/
def truthy : Json → Bool
  | .null => false
  | .bool b => b
  | .uint n => n ≠ 0
  | .number q => q ≠ 0
  | .str s => s ≠ ""
  | .arr l => !l.isEmpty
  | .obj fields => !fields.isEmpty

structure LocalOrderEvent where
  clientOrderId : String
  event : String
  symbol : String := ""
  side : String := ""
  qty : F64 := .finite 0
  px : F64 := .finite 0
  tsNs : ℤ := 0
  venueOrderId : String := ""

section Python

variable [PyBuiltins]

/-- `str(raw.get(key, ""))` -/
def strField (raw : Json) (key : String) : String :=
  match raw.get key with
  | none => ""
  | some (.str s) => s
  | some v => PyBuiltins.str v

/-- `raw.get(key) or zero`, converted. -/
def numField {α : Type} (raw : Json) (key : String) (convert : Json → Except PyError α)
    (zero : α) : Except PyError α :=
  match raw.get key with
  | some v => if truthy v then convert v else .ok zero
  | none => .ok zero

def LocalOrderEvent.fromDict (raw : Json) : Except PyError LocalOrderEvent :=
  match raw with
  | .obj _ => do
    let qty ← numField raw "qty" PyBuiltins.float (.finite 0)
    let px ← numField raw "px" PyBuiltins.float (.finite 0)
    let tsNs ← numField raw "ts_ns" PyBuiltins.int 0
    .ok {
      clientOrderId := strField raw "client_order_id"
      event := PyBuiltins.lower (strField raw "event")
      symbol := strField raw "symbol"
      side := PyBuiltins.lower (strField raw "side")
      qty := qty
      px := px
      tsNs := tsNs
      venueOrderId := strField raw "venue_order_id" }
  | _ => .error .attribute

/-- The events of a strategy, or of all without one, by client order id and number. -/
def loadLocalEvents (reasonText : Reason → String) (store : SqliteEventStore)
    (strategyId : Option String) : Except PyError (List LocalOrderEvent) :=
  let rows : List EventRow := match strategyId.filter (· ≠ "") with
    | some sid => store.rows.filter fun r ↦ r.strategyId.text = sid
    | none => store.rows
  (rows.mergeSort SqliteEventStore.before).mapM fun r : EventRow ↦
    LocalOrderEvent.fromDict (r.event.serialize reasonText)

end Python

/-- The orders that are open by the events, each with the last event that opened it. -/
def openOrdersFromEvents (events : List LocalOrderEvent) : Map String LocalOrderEvent :=
  events.foldl (fun openMap ev ↦
    if ev.clientOrderId = "" then openMap
    else if ev.event ∈ ["submitted", "accepted", "partially_filled"] then
      openMap.insert ev.clientOrderId ev
    else if ev.event ∈ ["filled", "canceled", "cancelled", "rejected", "expired"] then
      openMap.erase ev.clientOrderId
    else openMap) ∅

/-! ## Both readers -/

section Readers

variable [PyBuiltins] {reasonText : Reason → String}

/-- The fields that the record is read from. -/
def recordFields : List String :=
  ["client_order_id", "event", "symbol", "side", "qty", "px", "ts_ns", "venue_order_id"]

/-- The record that a text without these fields is read as. -/
def blankEvent : LocalOrderEvent where
  clientOrderId := ""
  event := PyBuiltins.lower ""
  side := PyBuiltins.lower ""

theorem fromDict_of_get_eq_none {fields : List (String × Json)}
    (h : ∀ key ∈ recordFields, (Json.obj fields).get key = none) :
    LocalOrderEvent.fromDict (.obj fields) = .ok blankEvent := by
  have hstr (key : String) (hkey : key ∈ recordFields) : strField (.obj fields) key = "" := by
    rw [strField, h key hkey]
  have hnum {α : Type} (convert : Json → Except PyError α) (zero : α) (key : String)
      (hkey : key ∈ recordFields) : numField (.obj fields) key convert zero = .ok zero := by
    rw [numField, h key hkey]
  unfold LocalOrderEvent.fromDict
  simp only [hnum _ _ "qty" (by decide), hnum _ _ "px" (by decide), hnum _ _ "ts_ns" (by decide),
    hstr "client_order_id" (by decide), hstr "event" (by decide), hstr "symbol" (by decide),
    hstr "side" (by decide), hstr "venue_order_id" (by decide)]
  rfl

theorem fromDict_serialize (ev : OrderEvent) :
    LocalOrderEvent.fromDict (ev.serialize reasonText) = .ok blankEvent := by
  refine fromDict_of_get_eq_none fun key hkey ↦ ?_
  have hne : key ≠ ev.variant := by
    rintro rfl
    revert hkey
    cases ev <;> simp [OrderEvent.variant, recordFields]
  have hbeq : (key == ev.variant) = false := beq_eq_false_iff_ne.mpr hne
  simp only [Json.get, List.lookup_cons, List.lookup_nil, hbeq]

theorem loadLocalEvents_eq (store : SqliteEventStore) (strategyId : Option String) :
    ∃ n, loadLocalEvents reasonText store strategyId = .ok (List.replicate n blankEvent) := by
  have hblank (rows : List EventRow) :
      rows.mapM (fun r ↦ LocalOrderEvent.fromDict (r.event.serialize reasonText))
        = .ok (List.replicate rows.length blankEvent) := by
    induction rows with
    | nil => rfl
    | cons r rows ih =>
      rw [List.mapM_cons, fromDict_serialize, ih]
      rfl
  exact ⟨_, hblank _⟩

omit [PyBuiltins] in
theorem openOrdersFromEvents_replicate {ev : LocalOrderEvent} (hev : ev.clientOrderId = "")
    (n : ℕ) : openOrdersFromEvents (List.replicate n ev) = ∅ := by
  unfold openOrdersFromEvents
  induction n with
  | zero => rfl
  | succ n ih =>
    rw [List.replicate_succ, List.foldl_cons, if_pos hev]
    exact ih

/-- An event, and what it is appended with. -/
structure Appended where
  strategyId : StrategyId
  clientOrderId : ClientOrderId
  event : OrderEvent
  ts : UnixNanos

/-- The table after a sequence of appends. -/
def tableOf (log : List Appended) : SqliteEventStore :=
  log.foldl (fun s a ↦ s.append a.strategyId a.clientOrderId a.event a.ts) .empty

/-- The events that were appended to an order. -/
def eventsOf (log : List Appended) (coid : ClientOrderId) : List OrderEvent :=
  (log.filter (·.clientOrderId = coid)).map (·.event)

omit [PyBuiltins] in
theorem replay_tableOf (log : List Appended) (coid : ClientOrderId) :
    (tableOf log).replay coid = eventsOf log coid := by
  have hfold (s : SqliteEventStore) :
      (log.foldl (fun s a ↦ s.append a.strategyId a.clientOrderId a.event a.ts) s).replay coid
        = s.replay coid ++ eventsOf log coid := by
    induction log generalizing s with
    | nil => simp [eventsOf]
    | cons a log ih =>
      rw [List.foldl_cons, ih, SqliteEventStore.replay_append]
      by_cases hid : coid = a.clientOrderId
      · simp [eventsOf, hid]
      · have hne : a.clientOrderId ≠ coid := fun h ↦ hid h.symm
        simp [eventsOf, hid, hne]
  exact (hfold .empty).trans (by simp)

/-- The orders that Python finds open. -/
def pythonOpenIds (reasonText : Reason → String) (store : SqliteEventStore) :
    Except PyError (Finset String) :=
  (loadLocalEvents reasonText store none).map fun events ↦
    (openOrdersFromEvents events).keys.toFinset

theorem pythonOpenIds_eq_empty (store : SqliteEventStore) :
    pythonOpenIds reasonText store = .ok ∅ := by
  obtain ⟨n, hload⟩ : ∃ n, loadLocalEvents reasonText store none
      = .ok (List.replicate n blankEvent) := loadLocalEvents_eq store none
  have hblank : blankEvent.clientOrderId = "" := rfl
  rw [pythonOpenIds, hload, Except.map, openOrdersFromEvents_replicate hblank]
  rfl

/-- **Two readers of one log.** Python and Rust find the same orders open exactly when none is:
every order whose events ever opened it was closed again, and not opened after that. -/
theorem open_orders_agree_iff (reasonText : Reason → String) (log : List Appended) :
    pythonOpenIds reasonText (tableOf log)
        = .ok ((localOpenClientIds (tableOf log)).image ClientOrderId.text)
      ↔ ∀ coid, isOpen (eventsOf log coid) = false := by
  rw [pythonOpenIds_eq_empty, Except.ok.injEq, eq_comm, Finset.image_eq_empty,
    Finset.eq_empty_iff_forall_notMem]
  refine forall_congr' fun coid ↦ ?_
  rw [mem_localOpenClientIds, replay_tableOf, Bool.not_eq_true]

end Readers

section Instances

/-- An order is submitted. Rust finds it open, and Python finds no order. -/
theorem not_open_orders_agree_submitted :
    ¬ ∀ (_ : PyBuiltins) (reasonText : Reason → String) (log : List Appended),
      pythonOpenIds reasonText (tableOf log)
        = .ok ((localOpenClientIds (tableOf log)).image ClientOrderId.text) := by
  intro h
  let builtins : PyBuiltins :=
    ⟨fun _ ↦ "", id, fun _ ↦ .error .typeError, fun _ ↦ .error .typeError⟩
  let log : List Appended := [⟨⟨"s"⟩, ⟨"s-1"⟩, .submitted 1, 1⟩]
  have hagree := h builtins (fun _ ↦ "") log
  rw [pythonOpenIds_eq_empty, Except.ok.injEq, eq_comm, Finset.image_eq_empty] at hagree
  have hopen : (⟨"s-1"⟩ : ClientOrderId) ∈ localOpenClientIds (tableOf log) := by
    rw [mem_localOpenClientIds, replay_tableOf]
    decide
  rw [hagree] at hopen
  cases Finset.notMem_empty _ hopen

end Instances

end ExecSvc

end Coinext
