import Coinext.ExecSvc.Venue

/-!
# The order management of the execution service

`PaperOms.handleAsync` handles one command: it notes events in the durable log and returns the
events to publish. Without a venue a submit is accepted and filled on paper; with one it is
forwarded, and what becomes of it arrives as reports. While the kill switch is engaged every submit
is denied.

A command without a client order id has one minted from the sequence cursor of its strategy. The
clock reading and whether the cursor fails are the circumstances a command is handled under.
-/

namespace Coinext.ExecSvc

/-- A command, with the defaults of the fields it leaves out. -/
structure ExecCommand where
  kind : String
  strategyId : String := "default"
  symbol : String := "BTCUSDT"
  venue : String := "BINANCE"
  side : Option String := none
  qty : Option F64 := none
  clientOrderId : Option String := none
deriving DecidableEq

/-- What a command asks for. -/
inductive CommandKind where
  | submit | cancel | unknown
deriving DecidableEq

/-- The kind of a command, whatever the case of its letters. -/
def ExecCommand.commandKind (cmd : ExecCommand) : CommandKind :=
  match toAsciiLowercase cmd.kind with
  | "submitmarket" | "submit_market" | "submit" => .submit
  | "cancel" => .cancel
  | _ => .unknown

/-- The client order id a command carries; an empty one counts as none. -/
def ExecCommand.explicitId (cmd : ExecCommand) : Option String := cmd.clientOrderId.filter (· ≠ "")

namespace ExecCommand

variable (cmd : ExecCommand)

def instrument : String := cmd.symbol ++ "." ++ cmd.venue

def sideText : String := cmd.side.getD "buy"

def qtyValue : F64 := cmd.qty.getD (.finite 0)

variable [DecimalWidth] [Rendering]

/-- Forward the market order of a submit to the venue. -/
def submitTo {σ : Type} (bridge : VenueBridge σ) (coid : ClientOrderId) (now : UnixNanos) (s : σ) :
    Except String Unit × σ :=
  bridge.submitMarket cmd.strategyId coid.text cmd.symbol cmd.venue cmd.sideText cmd.qtyValue now s

/-- The parts of the market order can be read. -/
def Orderable : Prop :=
  (∃ iid, parseInstrumentId cmd.instrument = some iid) ∧ (∃ side, parseSide cmd.sideText = .ok side)
    ∧ ∃ qty, quantityFromF64 cmd.qtyValue.maxZero orderPrecision = .ok qty

/-- A submit whose order can be built sends a request for it, under its id. -/
theorem submitTo_of_orderable (h : cmd.Orderable) (coid : ClientOrderId) (now : UnixNanos) :
    ∃ front, "newClientOrderId" ∉ front.map Prod.fst
      ∧ ∀ {σ : Type} (bridge : VenueBridge σ) (s : σ), cmd.submitTo bridge coid now s
        = VenueBridge.textResult (Binance.portResult (bridge.rest.send
          (Binance.orderRequest (front ++ [("newClientOrderId", coid.text)])) s)) := by
  obtain ⟨⟨iid, hiid⟩, ⟨side, hside⟩, qty, hqty⟩ := h
  obtain ⟨front, hparams, hfront⟩ : ∃ front, Binance.buildOrderParams (Order.new ⟨cmd.strategyId⟩
        ⟨coid.text⟩ iid side .market qty none none .gtc {} now)
      = .ok (front ++ [("newClientOrderId", coid.text)])
      ∧ "newClientOrderId" ∉ front.map Prod.fst := Binance.buildOrderParams_market rfl
  refine ⟨front, hfront, fun bridge s ↦ ?_⟩
  have horder : marketOrder cmd.strategyId coid.text cmd.symbol cmd.venue cmd.sideText
      cmd.qtyValue now = .ok (Order.new ⟨cmd.strategyId⟩ ⟨coid.text⟩ iid side .market qty none none
        .gtc {} now) :=
    marketOrder_eq_ok_iff.mpr ⟨iid, hiid, side, hside, qty, hqty, rfl⟩
  simp only [submitTo, VenueBridge.submitMarket, horder, Binance.submitOrder, hparams]

theorem submitTo_of_not_orderable (h : ¬ cmd.Orderable) {σ : Type} (bridge : VenueBridge σ)
    (coid : ClientOrderId) (now : UnixNanos) (s : σ) :
    ∃ e, cmd.submitTo bridge coid now s = (.error e, s) := by
  cases horder : marketOrder cmd.strategyId coid.text cmd.symbol cmd.venue cmd.sideText
      cmd.qtyValue now with
  | error e => exact ⟨e, by simp only [submitTo, VenueBridge.submitMarket, horder]⟩
  | ok order =>
    obtain ⟨iid, hiid, side, hside, qty, hqty, -⟩ := marketOrder_eq_ok_iff.mp horder
    exact absurd ⟨⟨iid, hiid⟩, ⟨side, hside⟩, qty, hqty⟩ h

end ExecCommand

/-- What the environment supplies while a command is handled. -/
structure Circumstances where
  now : UnixNanos
  /-- The sequence cursor returns an error. -/
  cursorFails : Bool := false
deriving DecidableEq

structure PaperOms where
  store : SqliteEventStore
  cursor : SeqCursor
  kill : Bool
  submits : ℕ
  cancels : ℕ
  denials : ℕ

namespace PaperOms

/-- The service over tables as they are created. -/
def fresh : PaperOms where
  store := .empty
  cursor := .empty
  kill := false
  submits := 0
  cancels := 0
  denials := 0

/-- Note an event in the log. -/
def note (oms : PaperOms) (strategy : StrategyId) (coid : ClientOrderId) (ev : OrderEvent)
    (now : UnixNanos) : PaperOms :=
  { oms with store := oms.store.append strategy coid ev now }

@[simp] theorem replay_note (oms : PaperOms) (strategy : StrategyId) (coid : ClientOrderId)
    (ev : OrderEvent) (now : UnixNanos) (id : ClientOrderId) :
    (oms.note strategy coid ev now).store.replay id
      = if id = coid then oms.store.replay id ++ [ev] else oms.store.replay id :=
  SqliteEventStore.replay_append ..

/-! ## Client order ids -/

/-- `STRATEGY-SEQ`, the number padded to twenty digits. -/
def mintedId (strategy : String) (seq : ℕ) : ClientOrderId := ⟨strategy ++ "-" ++ pad20 seq⟩

/-- The client order id of a submit, and the cursor behind it. A cursor that fails counts as one
that has issued the number one. -/
def resolveId (oms : PaperOms) (cmd : ExecCommand) (fails : Bool) : ClientOrderId × SeqCursor :=
  match cmd.explicitId with
  | some id => (⟨id⟩, oms.cursor)
  | none =>
    let (seq, cursor) := oms.cursor.next cmd.strategyId fails
    (mintedId cmd.strategyId (seq.getD 1), cursor)

/-! ## Published events -/

section Published

variable (cmd : ExecCommand) (coid : ClientOrderId) (now : UnixNanos)

def deniedEvent : Json :=
  .obj [("kind", .str "denied"), ("client_order_id", .str coid.text),
    ("strategy_id", .str cmd.strategyId), ("instrument", .str cmd.instrument),
    ("side", .str cmd.sideText), ("qty", cmd.qtyValue.toJson),
    ("reason", .str "kill-switch engaged"), ("ts_ns", .uint now)]

def venueSubmittedEvent : Json :=
  .obj [("kind", .str "submitted"), ("client_order_id", .str coid.text),
    ("strategy_id", .str cmd.strategyId), ("instrument", .str cmd.instrument),
    ("side", .str cmd.sideText), ("qty", cmd.qtyValue.toJson), ("mode", .str "venue"),
    ("note", .str "routed to Binance ExecutionClient; fills via user-stream pump"),
    ("ts_ns", .uint now)]

def rejectedEvent (reason : String) : Json :=
  .obj [("kind", .str "rejected"), ("client_order_id", .str coid.text), ("reason", .str reason),
    ("mode", .str "venue"), ("ts_ns", .uint now)]

def paperSubmittedEvent : Json :=
  .obj [("kind", .str "submitted"), ("client_order_id", .str coid.text),
    ("strategy_id", .str cmd.strategyId), ("instrument", .str cmd.instrument),
    ("side", .str cmd.sideText), ("qty", cmd.qtyValue.toJson), ("mode", .str "paper"),
    ("ts_ns", .uint now)]

/-- The venue order id of a paper order. -/
def paperVenueOrderId : VenueOrderId := ⟨"PAPER-" ++ coid.text⟩

def paperAcceptedEvent : Json :=
  .obj [("kind", .str "accepted"), ("client_order_id", .str coid.text),
    ("venue_order_id", .str (paperVenueOrderId coid).text), ("mode", .str "paper"),
    ("ts_ns", .uint now)]

def paperFilledEvent : Json :=
  .obj [("kind", .str "filled"), ("client_order_id", .str coid.text),
    ("instrument", .str cmd.instrument), ("side", .str cmd.sideText),
    ("qty", cmd.qtyValue.toJson), ("px", .number 0), ("mode", .str "paper"),
    ("note", .str "paper fill"), ("ts_ns", .uint now)]

def cancelErrorEvent (reason : String) : Json :=
  .obj [("kind", .str "error"), ("client_order_id", .str coid.text), ("reason", .str reason),
    ("mode", .str "venue"), ("ts_ns", .uint now)]

def pendingCancelEvent : Json :=
  .obj [("kind", .str "pending_cancel"), ("client_order_id", .str coid.text),
    ("strategy_id", .str cmd.strategyId), ("mode", .str "venue"), ("ts_ns", .uint now)]

def canceledEvent : Json :=
  .obj [("kind", .str "canceled"), ("client_order_id", .str coid.text),
    ("strategy_id", .str cmd.strategyId), ("mode", .str "paper"), ("ts_ns", .uint now)]

/-- An error that belongs to no order. -/
def errorEvent (reason : String) (now : UnixNanos) : Json :=
  .obj [("kind", .str "error"), ("reason", .str reason), ("ts_ns", .uint now)]

end Published

/-! ## Handling a command -/

/-- The outcome of a command. -/
structure Handled (σ : Type) where
  published : List Json
  oms : PaperOms
  world : σ

section Handle

variable [DecimalWidth] [Rendering] {σ : Type}

/-- Note a submit that goes through, and accept and fill it on paper. -/
def paperSubmit (oms : PaperOms) (cmd : ExecCommand) (coid : ClientOrderId) (now : UnixNanos)
    (s : σ) : Handled σ :=
  let strategy : StrategyId := ⟨cmd.strategyId⟩
  let oms := oms.note strategy coid (.submitted now) now
  let oms := oms.note strategy coid (.accepted (paperVenueOrderId coid) now) now
  ⟨[paperSubmittedEvent cmd coid now, paperAcceptedEvent coid now, paperFilledEvent cmd coid now],
    oms, s⟩

/-- Note a submit that goes through, and forward it to the venue. -/
def venueSubmit (oms : PaperOms) (cmd : ExecCommand) (coid : ClientOrderId) (now : UnixNanos)
    (bridge : VenueBridge σ) (s : σ) : Handled σ :=
  let strategy : StrategyId := ⟨cmd.strategyId⟩
  let oms := oms.note strategy coid (.submitted now) now
  match cmd.submitTo bridge coid now s with
  | (.ok (), s) => ⟨[venueSubmittedEvent cmd coid now], oms, s⟩
  | (.error e, s) =>
    let oms := { oms with denials := oms.denials + 1 }
    ⟨[rejectedEvent coid now e], oms.note strategy coid (.rejected (.text e) now) now, s⟩

/-- What forwarding a submit writes: a submit, and a rejection behind it if the call fails. -/
theorem venueSubmit_cases (oms : PaperOms) (cmd : ExecCommand) (coid : ClientOrderId)
    (now : UnixNanos) (bridge : VenueBridge σ) (s : σ) :
    let handled := oms.venueSubmit cmd coid now bridge s
    handled.world = (cmd.submitTo bridge coid now s).2
      ∧ (((cmd.submitTo bridge coid now s).1 = .ok ()
          ∧ handled.published = [venueSubmittedEvent cmd coid now]
          ∧ ∀ id, handled.oms.store.replay id
            = if id = coid then oms.store.replay id ++ [.submitted now] else oms.store.replay id)
        ∨ ∃ e, (cmd.submitTo bridge coid now s).1 = .error e
          ∧ handled.published = [rejectedEvent coid now e]
          ∧ ∀ id, handled.oms.store.replay id = if id = coid
            then oms.store.replay id ++ [.submitted now, .rejected (.text e) now]
            else oms.store.replay id) := by
  intro handled
  simp only [handled, venueSubmit]
  rcases cmd.submitTo bridge coid now s with ⟨_ | _, s'⟩
  · refine ⟨rfl, .inr ⟨_, rfl, rfl, fun id ↦ ?_⟩⟩
    by_cases hid : id = coid <;> simp [hid]
  · exact ⟨rfl, .inl ⟨rfl, rfl, replay_note _ _ _ _ _⟩⟩

def handleSubmit (oms : PaperOms) (cmd : ExecCommand) (env : Circumstances)
    (venue : Option (VenueBridge σ)) (s : σ) : Handled σ :=
  let (coid, cursor) := oms.resolveId cmd env.cursorFails
  let oms := { oms with cursor := cursor }
  if oms.kill then
    let oms := { oms with denials := oms.denials + 1 }
    ⟨[deniedEvent cmd coid env.now], oms.note ⟨cmd.strategyId⟩ coid
      (.denied (.text "kill-switch engaged") env.now) env.now, s⟩
  else
    let oms := { oms with submits := oms.submits + 1 }
    match venue with
    | some bridge => venueSubmit oms cmd coid env.now bridge s
    | none => paperSubmit oms cmd coid env.now s

def handleCancel (oms : PaperOms) (cmd : ExecCommand) (env : Circumstances)
    (venue : Option (VenueBridge σ)) (s : σ) : Handled σ :=
  match cmd.explicitId with
  | none => ⟨[errorEvent "cancel requires client_order_id" env.now], oms, s⟩
  | some id =>
    let coid : ClientOrderId := ⟨id⟩
    let oms := { oms with cancels := oms.cancels + 1 }
    match venue with
    | some bridge =>
      match bridge.cancel coid.text cmd.symbol cmd.venue s with
      | (.error e, s) => ⟨[cancelErrorEvent coid env.now e], oms, s⟩
      | (.ok (), s) => ⟨[pendingCancelEvent cmd coid env.now],
          oms.note ⟨cmd.strategyId⟩ coid (.pendingCancel env.now) env.now, s⟩
    | none => ⟨[canceledEvent cmd coid env.now],
        oms.note ⟨cmd.strategyId⟩ coid (.canceled env.now) env.now, s⟩

/-- Handle one command. -/
def handleAsync (oms : PaperOms) (cmd : ExecCommand) (env : Circumstances)
    (venue : Option (VenueBridge σ)) (s : σ) : Handled σ :=
  match cmd.commandKind with
  | .submit => oms.handleSubmit cmd env venue s
  | .cancel => oms.handleCancel cmd env venue s
  | .unknown => ⟨[errorEvent ("unknown command kind " ++ cmd.kind) env.now], oms, s⟩

end Handle

end PaperOms

/-! ## Runs of commands -/

/-- What the service is given: commands, and settings of the kill switch. -/
inductive ServiceStep where
  | command (cmd : ExecCommand) (env : Circumstances)
  | killSwitch (engaged : Bool)

/-- The service, what it talks to, and what it has published. -/
structure Service (σ : Type) where
  oms : PaperOms
  world : σ
  published : List Json

namespace Service

variable [DecimalWidth] [Rendering] {σ : Type}

def step (venue : Option (VenueBridge σ)) (v : Service σ) : ServiceStep → Service σ
  | .command cmd env =>
    let handled := v.oms.handleAsync cmd env venue v.world
    ⟨handled.oms, handled.world, v.published ++ handled.published⟩
  | .killSwitch engaged => { v with oms := { v.oms with kill := engaged } }

/-- The service on paper, before any command. -/
def onPaper : Service Unit := ⟨.fresh, (), []⟩

end Service

end Coinext.ExecSvc
