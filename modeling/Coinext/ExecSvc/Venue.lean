import Coinext.Binance.OrderEntry
import Coinext.Persist.Store
import Mathlib.Data.Finset.Lattice.Basic

/-!
# The venue side of the execution service

`VenueBridge` forwards submits and cancels to the Binance execution client. In the other direction
`publishVenueReport` notes each report of the venue in the durable log and publishes it, and
`reconcileOnStart` compares the orders that are open at the venue with those that the log says are
open, `localOpenClientIds`, and seeds the log with the former.

The log is read by the last event of an order that says anything: `mem_localOpenClientIds`.
-/

namespace Coinext

/-- A double as a JSON number; JSON has none that is not finite. -/
def F64.toJson : F64 → Json
  | finite q => .number q
  | nan | infinite _ => .null

end Coinext

namespace Coinext.ExecSvc

/-! ## Texts and numbers -/

/-- How the values print whose text contains rendered decimals. -/
class Rendering where
  modelError : ModelError → String
  report : ExecutionReport → String

namespace BlankText

/-- Nothing is rendered, for evaluating the service on inputs where nothing is printed. -/
scoped instance : Rendering := ⟨fun _ ↦ "", fun _ ↦ ""⟩

end BlankText

/-- The text with its ASCII letters in lower case. -/
def toAsciiLowercase (s : String) : String := String.ofList (s.toList.map Char.toLower)

/-- The parts before and after the last occurrence of a character. -/
def rsplitOnce (sep : Char) (s : String) : Option (String × String) :=
  let reversed := s.toList.reverse
  let last := reversed.takeWhile (· ≠ sep)
  match reversed.drop last.length with
  | [] => none
  | _ :: front => some (String.ofList front.reverse, String.ofList last.reverse)

/-- Parse `SYMBOL.VENUE`. -/
def parseInstrumentId (s : String) : Option InstrumentId :=
  (rsplitOnce '.' s).map fun p ↦ ⟨⟨p.1⟩, ⟨p.2⟩⟩

def parseSide (s : String) : Except String OrderSide :=
  match toAsciiLowercase s with
  | "buy" | "b" => .ok .buy
  | "sell" | "s" => .ok .sell
  | other => .error ("invalid side " ++ other)

/-- A quantity from a double. -/
def quantityFromF64 [DecimalWidth] [Rendering] (v : F64) (precision : ℕ) :
    Except String Quantity :=
  match v with
  | .finite q => (Quantity.fromDecimal q precision).mapError Rendering.modelError
  | .nan => .error "value is not finite: quantity NaN"
  | .infinite true => .error "value is not finite: quantity -inf"
  | .infinite false => .error "value is not finite: quantity inf"

/-! ## Submits and cancels -/

/-- The connected execution client. -/
structure VenueBridge (σ : Type) where
  rest : RestClient σ

/-- The precision of the quantities sent to the venue. -/
def orderPrecision : ℕ := 8

/-- The market order of a submit command. -/
def marketOrder [DecimalWidth] [Rendering] (strategyId coid symbol venue side : String) (qty : F64)
    (nowNs : UnixNanos) : Except String Order := do
  let instrument := symbol ++ "." ++ venue
  let iid ← match parseInstrumentId instrument with
    | some iid => .ok iid
    | none => .error ("bad instrument id " ++ instrument)
  let side ← parseSide side
  let quantity ← quantityFromF64 qty.maxZero orderPrecision
  .ok (Order.new ⟨strategyId⟩ ⟨coid⟩ iid side .market quantity none none .gtc {} nowNs)

theorem marketOrder_eq_ok_iff [DecimalWidth] [Rendering]
    {strategyId coid symbol venue side : String} {qty : F64} {nowNs : UnixNanos} {order : Order} :
    marketOrder strategyId coid symbol venue side qty nowNs = .ok order
      ↔ ∃ iid, parseInstrumentId (symbol ++ "." ++ venue) = some iid
        ∧ ∃ side', parseSide side = .ok side'
        ∧ ∃ quantity, quantityFromF64 qty.maxZero orderPrecision = .ok quantity
        ∧ order
          = Order.new ⟨strategyId⟩ ⟨coid⟩ iid side' .market quantity none none .gtc {} nowNs := by
  cases hiid : parseInstrumentId (symbol ++ "." ++ venue) with
  | none => simp [marketOrder, hiid, bind, Except.bind]
  | some iid =>
    simp only [marketOrder, hiid, Except.bind_eq_ok_iff, Option.some.injEq, Except.ok.injEq,
      exists_eq_left', eq_comm (a := order)]

namespace VenueBridge

variable {σ : Type} (bridge : VenueBridge σ)

/-- The error as its text. -/
def textResult (r : Except PortError Unit × σ) : Except String Unit × σ :=
  (r.1.mapError PortError.display, r.2)

def submitMarket [DecimalWidth] [Rendering] (strategyId coid symbol venue side : String)
    (qty : F64) (nowNs : UnixNanos) (s : σ) : Except String Unit × σ :=
  match marketOrder strategyId coid symbol venue side qty nowNs with
  | .error e => (.error e, s)
  | .ok order => textResult (Binance.submitOrder bridge.rest order s)

def cancel (coid symbol venue : String) (s : σ) : Except String Unit × σ :=
  match parseInstrumentId (symbol ++ "." ++ venue) with
  | none => (.error ("bad instrument id " ++ symbol ++ "." ++ venue), s)
  | some iid => textResult (Binance.cancelOrder bridge.rest ⟨coid⟩ iid s)

end VenueBridge

/-! ## Reports of the venue -/

/-- The event noted in the log for a report. -/
def reportEvent (now : UnixNanos) : ExecutionReport → OrderEvent
  | .accepted _ venueOrderId => .accepted venueOrderId now
  | .canceled _ => .canceled now
  | .rejected _ reason => .rejected reason now
  | .fill f => .filled f
  -- every other report is noted as a submit
  | _ => .submitted now

/-- The text of a reason. -/
def reasonJson : Reason → Json
  | .text s => .str s
  | _ => .null

/-- What is published of a report besides the order and the time. -/
def reportFields [Rendering] : ExecutionReport → String × List (String × Json)
  | .accepted _ venueOrderId => ("accepted", [("venue_order_id", .str venueOrderId.text)])
  | .fill f => ("filled", [("qty", .number f.lastQty.asDecimal), ("px", .number f.lastPx.asDecimal),
      ("instrument", .str f.instrumentId.display)])
  | .canceled _ => ("canceled", [])
  | .rejected _ reason => ("rejected", [("reason", reasonJson reason)])
  | other => ("report", [("detail", .str (Rendering.report other))])

/-- Note a report in the log, and the event published for it. -/
def publishVenueReport [Rendering] (store : SqliteEventStore) (now : UnixNanos)
    (report : ExecutionReport) : SqliteEventStore × Json :=
  let (kind, extra) := reportFields report
  (store.append ⟨"venue"⟩ report.clientOrderId (reportEvent now report) now,
    .obj ([("kind", .str kind), ("client_order_id", .str report.clientOrderId.text),
      ("source", .str "venue"), ("ts_ns", .uint now)] ++ extra))

/-! ## The open orders of the log -/

/-- Whether an event opens or closes its order; two kinds do neither. -/
def opens : OrderEvent → Option Bool
  | .submitted _ | .accepted .. | .partiallyFilled _ | .pendingCancel _ | .pendingUpdate _ =>
    some true
  | .filled _ | .canceled _ | .rejected .. | .denied .. | .expired _ => some false
  | .initialized .. | .updated .. => none

/-- Whether an order with these events is open. -/
def isOpen (events : List OrderEvent) : Bool :=
  events.foldl (fun isOpen ev ↦ (opens ev).getD isOpen) false

/-- The orders that are open by their events. -/
def localOpenClientIds (store : SqliteEventStore) : Finset ClientOrderId :=
  store.listOrders.foldl
    (fun openIds p ↦ if isOpen (store.replay p.2) then insert p.2 openIds else openIds) ∅

@[simp] theorem isOpen_nil : isOpen [] = false := rfl

theorem isOpen_append (events : List OrderEvent) (ev : OrderEvent) :
    isOpen (events ++ [ev]) = (opens ev).getD (isOpen events) := by
  simp [isOpen, List.foldl_append]

theorem mem_foldl_insert {α β : Type} [DecidableEq β] {p : α → Bool} {f : α → β} {b : β}
    (l : List α) (acc : Finset β) :
    b ∈ l.foldl (fun acc a ↦ if p a then insert (f a) acc else acc) acc
      ↔ b ∈ acc ∨ ∃ a ∈ l, p a = true ∧ f a = b := by
  induction l generalizing acc with
  | nil => simp
  | cons a l ih =>
    rw [List.foldl_cons, ih]
    by_cases ha : p a = true
    · simp only [ha, if_true, Finset.mem_insert, List.mem_cons, exists_eq_or_imp, true_and,
        eq_comm (a := b)]
      rw [or_assoc, or_left_comm]
    · simp [ha]

/-- **What the open set is.** An order is in it exactly when the last of its events that says
anything opens it. -/
theorem mem_localOpenClientIds {store : SqliteEventStore} {id : ClientOrderId} :
    id ∈ localOpenClientIds store ↔ isOpen (store.replay id) = true := by
  rw [localOpenClientIds, mem_foldl_insert (p := fun p ↦ isOpen (store.replay p.2)) (f := Prod.snd)]
  constructor
  · rintro (h | ⟨p, -, hp, rfl⟩)
    · cases Finset.notMem_empty _ h
    · exact hp
  · intro h
    -- an open order has an event, so the list of orders names it
    have hevents : store.replay id ≠ [] := by
      rintro hnil
      rw [hnil] at h
      cases h
    obtain ⟨sid, hsid⟩ := SqliteEventStore.exists_mem_listOrders.mpr hevents
    exact .inr ⟨(sid, id), hsid, h, rfl⟩

/-- Every event noted for a report opens or closes the order. -/
theorem opens_reportEvent (now : UnixNanos) (report : ExecutionReport) :
    opens (reportEvent now report) = some (match report with
      | .fill _ | .canceled _ | .rejected .. => false
      | _ => true) := by
  cases report <;> rfl

/-! ## Reconciliation -/

/-- What a reconciliation found. -/
structure ReconcileSummary where
  venueOpen : ℕ
  localOpen : ℕ
  orphans : ℕ
  missingLocal : ℕ
  ok : Bool

/-- Seed the log with one report of an order that is missing in it. The report is noted twice: once
as an acceptance of the strategy `reconcile`, and once as a report of the venue. -/
def seedReport [Rendering] (now : UnixNanos) (store : SqliteEventStore)
    (report : ExecutionReport × UnixNanos) : SqliteEventStore :=
  let seeded := match report.1 with
    | .accepted coid venueOrderId =>
      store.append ⟨"reconcile"⟩ coid (.accepted venueOrderId now) now
    | _ => store
  (publishVenueReport seeded report.2 report.1).1

/-- Compare the open orders of the venue with those of the log, and seed the log with the orders
only the venue has open. The second component of a report is the time it is published at. -/
def reconcileOnStart [Rendering] (store : SqliteEventStore) (now : UnixNanos)
    (venueReports : List (ExecutionReport × UnixNanos)) : SqliteEventStore × ReconcileSummary :=
  let venueIds := (venueReports.map fun r ↦ r.1.clientOrderId).toFinset
  let localIds := localOpenClientIds store
  let missingLocal := venueIds \ localIds
  let orphans := localIds \ venueIds
  let seeded := venueReports.foldl
    (fun store r ↦ if r.1.clientOrderId ∈ missingLocal then seedReport now store r else store) store
  (seeded,
    { venueOpen := venueIds.card
      localOpen := localIds.card
      orphans := orphans.card
      missingLocal := missingLocal.card
      ok := orphans = ∅ ∧ missingLocal = ∅ })

end Coinext.ExecSvc
