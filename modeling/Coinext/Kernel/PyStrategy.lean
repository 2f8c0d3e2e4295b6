import Coinext.Kernel.Handlers
import Coinext.Kernel.Paper
import Mathlib.Data.List.AList

/-!
# Strategies in Python

The adapter runs a handler of a Python object on a context that only records: a submit is checked
and queued, and Python gets the id that the order is going to have, counted on from the sequence of
the order factory. When the handler has returned, or raised, what it has queued is replayed on the
real context, where the factory mints the ids.

Two counters have to agree, the one of the recording context and the one of the factory. The replay
makes the checks of the recording again, so an intent that was queued is not dropped, and every
queued submit mints exactly one id (`PyStrategyAdapter.runs_replay`).

A handler is the list of the calls it makes, those that raise included, until it returns or raises
itself: from its own state, the event and its context. How it comes to make them is up to Python.
-/

namespace Coinext

/-! ## The recording context -/

/-- One queued intent of a handler. -/
inductive PyIntent where
  | submit (side : String) (qty : F64) (limitPx trigger trailOffset : Option F64)
    (symbol : Option String)
  | cancel (clientOrderId : String)
  | setTimer (name : String) (at_ : UnixNanos)
deriving DecidableEq

/-- What a call raises. -/
inductive PyError where
  | unknownSymbol (symbol : String)
  | value (e : BuildError)
  | offsetNotPositive
deriving DecidableEq

/-- The context that a handler of a Python strategy sees. -/
structure PyCtx where
  now : UnixNanos
  signedPositions : List (String × ℚ)
  defaultSymbol : String
  /-- The price and size precision of a symbol. -/
  metas : String → Option (ℕ × ℕ)
  strategyId : String
  baseSeq : ℕ
  submitCount : ℕ
  outbox : List PyIntent

section Recording

variable [DecimalWidth] (retain : ℚ → Option Decimal)

/-- A quantity from a double. -/
def quantityFromF64 (v : F64) (precision : ℕ) : Except BuildError Quantity :=
  match v with
  | .finite q => match retain q with
    | some d => (Quantity.fromDecimal d precision).mapError .model
    | none => .error (.outOfRange v)
  | v => .error (.notFinite v)

namespace PyCtx

variable (c : PyCtx)

/-- The id that the next submit will have, once it is replayed. -/
def nextCoid : String × PyCtx :=
  (c.strategyId ++ "-" ++ pad20 (c.baseSeq + (c.submitCount + 1)),
    { c with submitCount := c.submitCount + 1 })

/-- The precisions of a symbol, or of the default one. -/
def resolve (symbol : Option String) : Except PyError (ℕ × ℕ) :=
  match c.metas (symbol.getD c.defaultSymbol) with
  | some precisions => .ok precisions
  | none => .error (.unknownSymbol (symbol.getD c.defaultSymbol))

/-- A price that a double stands for, at a precision. -/
def checkPrice (px : F64) (precision : ℕ) : Except PyError Unit :=
  ((priceFromF64 retain px precision).map fun _ ↦ ()).mapError .value

/-- An offset that a double stands for, above zero. -/
def checkOffset (offset : F64) (precision : ℕ) : Except PyError Unit :=
  match priceFromF64 retain offset precision with
  | .error e => .error (.value e)
  | .ok off => if off.raw ≤ 0 then .error .offsetNotPositive else .ok ()

/-- What all submits check: the symbol, the quantity, and the prices at the symbol's precision. -/
def checks (symbol : Option String) (qty : F64) (prices : ℕ → Except PyError Unit) :
    Except PyError Unit :=
  match c.resolve symbol with
  | .error e => .error e
  | .ok (pp, sp) => match quantityFromF64 retain qty sp with
    | .error e => .error (.value e)
    | .ok _ => prices pp

/-- Check a submit, queue it and answer with its id. -/
def queue (symbol : Option String) (qty : F64) (prices : ℕ → Except PyError Unit)
    (intent : PyIntent) : Except PyError (Option String) × PyCtx :=
  match checks retain c symbol qty prices with
  | .error e => (.error e, c)
  | .ok () =>
    let (id, c) := { c with outbox := c.outbox ++ [intent] }.nextCoid
    (.ok (some id), c)

def submitMarket (side : String) (qty : F64) (symbol : Option String) :
    Except PyError (Option String) × PyCtx :=
  queue retain c symbol qty (fun _ ↦ .ok ()) (.submit side qty none none none symbol)

def submitLimit (side : String) (qty price : F64) (symbol : Option String) :
    Except PyError (Option String) × PyCtx :=
  queue retain c symbol qty (checkPrice retain price)
    (.submit side qty (some price) none none symbol)

def submitStop (side : String) (qty trigger : F64) (symbol : Option String) :
    Except PyError (Option String) × PyCtx :=
  queue retain c symbol qty (checkPrice retain trigger)
    (.submit side qty none (some trigger) none symbol)

def submitStopLimit (side : String) (qty trigger price : F64) (symbol : Option String) :
    Except PyError (Option String) × PyCtx :=
  queue retain c symbol qty
    (fun pp ↦ do checkPrice retain trigger pp; checkPrice retain price pp)
    (.submit side qty (some price) (some trigger) none symbol)

def submitTrailing (side : String) (qty offset : F64) (symbol : Option String) :
    Except PyError (Option String) × PyCtx :=
  queue retain c symbol qty (checkOffset retain offset)
    (.submit side qty none none (some offset) symbol)

def cancel (clientOrderId : String) : PyCtx :=
  { c with outbox := c.outbox ++ [.cancel clientOrderId] }

def setTimer (name : String) (at_ : UnixNanos) : PyCtx :=
  { c with outbox := c.outbox ++ [.setTimer name at_] }

end PyCtx

/-- A call that a handler makes on its context. -/
inductive PyCall where
  | submitMarket (side : String) (qty : F64) (symbol : Option String)
  | submitLimit (side : String) (qty price : F64) (symbol : Option String)
  | submitStop (side : String) (qty trigger : F64) (symbol : Option String)
  | submitStopLimit (side : String) (qty trigger price : F64) (symbol : Option String)
  | submitTrailing (side : String) (qty offset : F64) (symbol : Option String)
  | cancel (clientOrderId : String)
  | setTimer (name : String) (at_ : UnixNanos)
deriving DecidableEq

/-- What a call returns or raises, and the context after it. -/
def PyCtx.call (c : PyCtx) : PyCall → Except PyError (Option String) × PyCtx
  | .submitMarket side qty symbol => c.submitMarket retain side qty symbol
  | .submitLimit side qty price symbol => c.submitLimit retain side qty price symbol
  | .submitStop side qty trigger symbol => c.submitStop retain side qty trigger symbol
  | .submitStopLimit side qty trigger price symbol =>
    c.submitStopLimit retain side qty trigger price symbol
  | .submitTrailing side qty offset symbol => c.submitTrailing retain side qty offset symbol
  | .cancel clientOrderId => (.ok none, c.cancel clientOrderId)
  | .setTimer name at_ => (.ok none, c.setTimer name at_)

/-- The calls of a handler that do not raise, each with what it returns, and the context after
them. -/
def PyCtx.record (c : PyCtx) : List PyCall → List (PyCall × Option String) × PyCtx
  | [] => ([], c)
  | call :: calls =>
    let (answer, c) := c.call retain call
    let (accepted, c) := c.record calls
    match answer with
    | .error _ => (accepted, c)
    | .ok value => ((call, value) :: accepted, c)

end Recording

/-! ## The adapter -/

structure InstrumentMeta where
  iid : InstrumentId
  pricePrecision : ℕ
  sizePrecision : ℕ

/-- A Python object as a strategy. -/
structure PyStrategyAdapter (σ : Type) where
  /-- The calls that the handler of a callback makes, and the object after it. -/
  obj : σ → Callback → PyCtx → List PyCall × σ
  instruments : AList fun _ : String ↦ InstrumentMeta
  defaultSymbol : String
  strategyId : String

/-- The signed quantity of a position. -/
def signedQtyOf : Option Position → ℚ
  | some p => match p.side with
    | .long => p.quantity.asDecimal
    | .short => -p.quantity.asDecimal
    | .flat => 0
  | none => 0

/-- Two texts agree up to the case of ASCII letters. -/
def eqIgnoreAsciiCase (s t : String) : Bool := s.toList.map Char.toLower = t.toList.map Char.toLower

/-- The side that a text stands for. -/
def pySide (side : String) : OrderSide := if eqIgnoreAsciiCase side "sell" then .sell else .buy

namespace PyStrategyAdapter

variable {σ α : Type} [DecimalWidth] (retain : ℚ → Option Decimal) (A : PyStrategyAdapter σ)

/-- Place an order that was queued, unless a price does not convert. -/
def replaySubmit (inst : InstrumentMeta) (side : OrderSide) (q : Quantity)
    (limitPx trigger trailOffset : Option F64) (next : Program α) : Program α :=
  match trailOffset with
  | some off => match priceFromF64 retain off inst.pricePrecision with
    | .ok o => .submitTrailingStop inst.iid side q o fun _ ↦ next
    | .error _ => next
  | none => match trigger, limitPx with
    | some trig, some px =>
      match priceFromF64 retain trig inst.pricePrecision,
        priceFromF64 retain px inst.pricePrecision with
      | .ok t, .ok p => .submitStopLimit inst.iid side q t p fun _ ↦ next
      | _, _ => next
    | some trig, none => match priceFromF64 retain trig inst.pricePrecision with
      | .ok t => .submitStopMarket inst.iid side q t fun _ ↦ next
      | .error _ => next
    | none, some px => match priceFromF64 retain px inst.pricePrecision with
      | .ok p => .submitLimit inst.iid side q p fun _ ↦ next
      | .error _ => next
    | none, none => .submitMarket inst.iid side q fun _ ↦ next

/-- Replay what a handler has queued; what does not check is dropped. -/
def replay : List PyIntent → Program α → Program α
  | [], next => next
  | .submit side qty limitPx trigger trailOffset symbol :: intents, next =>
    match A.instruments.lookup (symbol.getD A.defaultSymbol) with
    | none => replay intents next
    | some inst => match quantityFromF64 retain qty inst.sizePrecision with
      | .error _ => replay intents next
      | .ok q => replaySubmit retain inst (pySide side) q limitPx trigger trailOffset
        (replay intents next)
  | .cancel clientOrderId :: intents, next => .cancel ⟨clientOrderId⟩ (replay intents next)
  | .setTimer name at_ :: intents, next => .setTimer name at_ fun _ ↦ replay intents next

/-- Read the positions of the instruments. -/
def snapshot : List (Sigma fun _ : String ↦ InstrumentMeta) → List (String × ℚ) →
    (List (String × ℚ) → Program α) → Program α
  | [], positions, k => k positions
  | ⟨symbol, inst⟩ :: rest, positions, k =>
    .position inst.iid fun p ↦ snapshot rest (positions ++ [(symbol, signedQtyOf p)]) k

/-- The fresh context of a handler. -/
def freshCtx (now : UnixNanos) (baseSeq : ℕ) (positions : List (String × ℚ)) : PyCtx where
  now := now
  signedPositions := positions
  defaultSymbol := A.defaultSymbol
  metas symbol := (A.instruments.lookup symbol).map fun m ↦ (m.pricePrecision, m.sizePrecision)
  strategyId := A.strategyId
  baseSeq := baseSeq
  submitCount := 0
  outbox := []

/-- Run the handler of a callback, then replay what it has queued. `fin` says what is kept of the
object and of what it was answered. -/
def runHandlerWith (fin : σ → List (PyCall × Option String) → α) (s : σ)
    (cb : Callback) : Program α :=
  .nowNs fun now ↦ .seq fun baseSeq ↦ snapshot A.instruments.entries [] fun positions ↦
    let ctx := A.freshCtx now baseSeq positions
    let (calls, s') := A.obj s cb ctx
    let (accepted, ctx) := ctx.record retain calls
    A.replay retain ctx.outbox (.done (fin s' accepted))

/-- The handler of a callback. -/
def runHandler (s : σ) (cb : Callback) : Program σ := A.runHandlerWith retain (fun s' _ ↦ s') s cb

/-- The handler of a callback, and what Python was answered. -/
def observed (s : σ) (cb : Callback) : Program (σ × List (PyCall × Option String)) :=
  A.runHandlerWith retain Prod.mk s cb

def strategy : Strategy σ := ⟨A.runHandler retain⟩

end PyStrategyAdapter

/-! ## What is queued -/

/-- The intent that a call queues. -/
def PyCall.intent : PyCall → PyIntent
  | .submitMarket side qty symbol => .submit side qty none none none symbol
  | .submitLimit side qty price symbol => .submit side qty (some price) none none symbol
  | .submitStop side qty trigger symbol => .submit side qty none (some trigger) none symbol
  | .submitStopLimit side qty trigger price symbol =>
    .submit side qty (some price) (some trigger) none symbol
  | .submitTrailing side qty offset symbol => .submit side qty none none (some offset) symbol
  | .cancel clientOrderId => .cancel clientOrderId
  | .setTimer name at_ => .setTimer name at_

namespace PyStrategyAdapter

variable {σ : Type} [DecimalWidth] {retain : ℚ → Option Decimal} {A : PyStrategyAdapter σ}

/-- The order that a submit asks for, at some time and some mark. -/
inductive Asks (retain : ℚ → Option Decimal) (A : PyStrategyAdapter σ) :
    PyCall → OrderSpec → Prop where
  | market {side : String} {qty : F64} {symbol : Option String} {inst : InstrumentMeta}
      {q : Quantity} (hinst : A.instruments.lookup (symbol.getD A.defaultSymbol) = some inst)
      (hqty : quantityFromF64 retain qty inst.sizePrecision = .ok q) (ts : UnixNanos) :
      Asks retain A (.submitMarket side qty symbol) (.market inst.iid (pySide side) q ts)
  | limit {side : String} {qty price : F64} {symbol : Option String} {inst : InstrumentMeta}
      {q : Quantity} {p : Price}
      (hinst : A.instruments.lookup (symbol.getD A.defaultSymbol) = some inst)
      (hqty : quantityFromF64 retain qty inst.sizePrecision = .ok q)
      (hprice : priceFromF64 retain price inst.pricePrecision = .ok p) (ts : UnixNanos) :
      Asks retain A (.submitLimit side qty price symbol)
        (.limit inst.iid (pySide side) q p .gtc {} ts)
  | stop {side : String} {qty trigger : F64} {symbol : Option String} {inst : InstrumentMeta}
      {q : Quantity} {t : Price}
      (hinst : A.instruments.lookup (symbol.getD A.defaultSymbol) = some inst)
      (hqty : quantityFromF64 retain qty inst.sizePrecision = .ok q)
      (htrigger : priceFromF64 retain trigger inst.pricePrecision = .ok t) (ts : UnixNanos) :
      Asks retain A (.submitStop side qty trigger symbol)
        (.stopMarket inst.iid (pySide side) q t ts)
  | stopLimit {side : String} {qty trigger price : F64} {symbol : Option String}
      {inst : InstrumentMeta} {q : Quantity} {t p : Price}
      (hinst : A.instruments.lookup (symbol.getD A.defaultSymbol) = some inst)
      (hqty : quantityFromF64 retain qty inst.sizePrecision = .ok q)
      (htrigger : priceFromF64 retain trigger inst.pricePrecision = .ok t)
      (hprice : priceFromF64 retain price inst.pricePrecision = .ok p) (ts : UnixNanos) :
      Asks retain A (.submitStopLimit side qty trigger price symbol)
        (.stopLimit inst.iid (pySide side) q t p ts)
  | trailing {side : String} {qty offset : F64} {symbol : Option String} {inst : InstrumentMeta}
      {q : Quantity} {o : Price}
      (hinst : A.instruments.lookup (symbol.getD A.defaultSymbol) = some inst)
      (hqty : quantityFromF64 retain qty inst.sizePrecision = .ok q)
      (hoffset : priceFromF64 retain offset inst.pricePrecision = .ok o) (trigger : Price)
      (ts : UnixNanos) : Asks retain A (.submitTrailing side qty offset symbol)
        (.trailingStop inst.iid (pySide side) q trigger ts)

/-- The context is one of the adapter's. -/
structure Fits (A : PyStrategyAdapter σ) (c : PyCtx) : Prop where
  defaultSymbol : c.defaultSymbol = A.defaultSymbol
  metas : c.metas = fun symbol ↦
    (A.instruments.lookup symbol).map fun m ↦ (m.pricePrecision, m.sizePrecision)
  strategyId : c.strategyId = A.strategyId

/-- Calls that were answered, with ids that count on from a number. -/
inductive Numbered (retain : ℚ → Option Decimal) (A : PyStrategyAdapter σ) :
    ℕ → List (PyCall × Option String) → Prop where
  | nil (n : ℕ) : Numbered retain A n []
  | submit {n : ℕ} {call : PyCall} {spec : OrderSpec} {rest : List (PyCall × Option String)}
      (hasks : Asks retain A call spec) (hrest : Numbered retain A (n + 1) rest) :
      Numbered retain A n ((call, some (A.strategyId ++ "-" ++ pad20 (n + 1))) :: rest)
  | cancel {n : ℕ} {id : String} {rest : List (PyCall × Option String)}
      (hrest : Numbered retain A n rest) : Numbered retain A n ((.cancel id, none) :: rest)
  | setTimer {n : ℕ} {name : String} {at_ : UnixNanos} {rest : List (PyCall × Option String)}
      (hrest : Numbered retain A n rest) :
      Numbered retain A n ((.setTimer name at_, none) :: rest)

/-- **What a submit does to the recording context.** It raises and changes nothing; or its symbol,
quantity and prices convert, and it is queued and counted. -/
theorem queue_cases {c : PyCtx} (hc : Fits A c) (symbol : Option String) (qty : F64)
    (prices : ℕ → Except PyError Unit) (intent : PyIntent) :
    (∃ e, c.queue retain symbol qty prices intent = (.error e, c))
      ∨ ∃ inst q, A.instruments.lookup (symbol.getD A.defaultSymbol) = some inst
        ∧ quantityFromF64 retain qty inst.sizePrecision = .ok q
        ∧ prices inst.pricePrecision = .ok ()
        ∧ c.queue retain symbol qty prices intent
          = (.ok (some (A.strategyId ++ "-" ++ pad20 (c.baseSeq + c.submitCount + 1))),
            { c with outbox := c.outbox ++ [intent], submitCount := c.submitCount + 1 }) := by
  unfold PyCtx.queue PyCtx.checks PyCtx.resolve
  rw [hc.defaultSymbol, hc.metas]
  dsimp only
  cases hinst : A.instruments.lookup (symbol.getD A.defaultSymbol) with
  | none => exact .inl ⟨_, rfl⟩
  | some inst =>
    dsimp only [Option.map_some]
    cases hqty : quantityFromF64 retain qty inst.sizePrecision with
    | error e => exact .inl ⟨_, rfl⟩
    | ok q =>
      dsimp only
      cases hprices : prices inst.pricePrecision with
      | error e => exact .inl ⟨_, rfl⟩
      | ok =>
        refine .inr ⟨inst, q, rfl, hqty, hprices, ?_⟩
        rw [PyCtx.nextCoid, hc.strategyId, ← Nat.add_assoc]

theorem checkPrice_eq_ok {px : F64} {precision : ℕ}
    (h : PyCtx.checkPrice retain px precision = .ok ()) :
    ∃ p, priceFromF64 retain px precision = .ok p := by
  unfold PyCtx.checkPrice at h
  cases hprice : priceFromF64 retain px precision with
  | error e =>
    rw [hprice] at h
    cases h
  | ok p => exact ⟨p, rfl⟩

variable (retain) in
/-- **The cases of a call.** It raises and changes nothing; or it submits an order, and is queued
and counted; or it cancels or sets a timer, and is queued. -/
theorem call_cases {c : PyCtx} (hc : Fits A c) (call : PyCall) :
    (∃ e, c.call retain call = (.error e, c))
      ∨ (∃ spec, Asks retain A call spec ∧ c.call retain call
        = (.ok (some (A.strategyId ++ "-" ++ pad20 (c.baseSeq + c.submitCount + 1))),
          { c with outbox := c.outbox ++ [call.intent], submitCount := c.submitCount + 1 }))
      ∨ (((∃ id, call = .cancel id) ∨ ∃ name at_, call = .setTimer name at_)
        ∧ c.call retain call = (.ok none, { c with outbox := c.outbox ++ [call.intent] })) := by
  have hqueue (symbol : Option String) (qty : F64) (prices : ℕ → Except PyError Unit)
      (intent : PyIntent) (hasks : ∀ inst q,
        A.instruments.lookup (symbol.getD A.defaultSymbol) = some inst →
        quantityFromF64 retain qty inst.sizePrecision = .ok q →
        prices inst.pricePrecision = .ok () → ∃ spec, Asks retain A call spec) :
      (∃ e, c.queue retain symbol qty prices intent = (.error e, c))
        ∨ ∃ spec, Asks retain A call spec ∧ c.queue retain symbol qty prices intent
          = (.ok (some (A.strategyId ++ "-" ++ pad20 (c.baseSeq + c.submitCount + 1))),
            { c with outbox := c.outbox ++ [intent], submitCount := c.submitCount + 1 }) := by
    rcases queue_cases hc symbol qty prices intent with
      herror | ⟨inst, q, hinst, hqty, hprices, heq⟩
    · exact .inl herror
    · obtain ⟨spec, hspec⟩ := hasks inst q hinst hqty hprices
      exact .inr ⟨spec, hspec, heq⟩
  cases call with
  | submitMarket side qty symbol =>
    refine (hqueue symbol qty (fun _ ↦ .ok ()) _ fun inst q hinst hqty _ ↦ ?_).imp_right .inl
    exact ⟨_, .market hinst hqty 0⟩
  | submitLimit side qty price symbol =>
    refine (hqueue symbol qty (PyCtx.checkPrice retain price) _
      fun inst q hinst hqty hprices ↦ ?_).imp_right .inl
    obtain ⟨p, hp⟩ := checkPrice_eq_ok hprices
    exact ⟨_, .limit hinst hqty hp 0⟩
  | submitStop side qty trigger symbol =>
    refine (hqueue symbol qty (PyCtx.checkPrice retain trigger) _
      fun inst q hinst hqty hprices ↦ ?_).imp_right .inl
    obtain ⟨t, ht⟩ := checkPrice_eq_ok hprices
    exact ⟨_, .stop hinst hqty ht 0⟩
  | submitStopLimit side qty trigger price symbol =>
    refine (hqueue symbol qty
      (fun pp ↦ do PyCtx.checkPrice retain trigger pp; PyCtx.checkPrice retain price pp) _
      fun inst q hinst hqty hprices ↦ ?_).imp_right .inl
    obtain ⟨⟨⟩, htrigger, hprice⟩ := (Except.bind_eq_ok_iff ..).mp hprices
    obtain ⟨t, ht⟩ := checkPrice_eq_ok htrigger
    obtain ⟨p, hp⟩ := checkPrice_eq_ok hprice
    exact ⟨_, .stopLimit hinst hqty ht hp 0⟩
  | submitTrailing side qty offset symbol =>
    refine (hqueue symbol qty (PyCtx.checkOffset retain offset) _
      fun inst q hinst hqty hprices ↦ ?_).imp_right .inl
    unfold PyCtx.checkOffset at hprices
    cases hoffset : priceFromF64 retain offset inst.pricePrecision with
    | error e =>
      rw [hoffset] at hprices
      cases hprices
    | ok o => exact ⟨_, .trailing hinst hqty hoffset o 0⟩
  | cancel id => exact .inr (.inr ⟨.inl ⟨id, rfl⟩, rfl⟩)
  | setTimer name at_ => exact .inr (.inr ⟨.inr ⟨name, at_, rfl⟩, rfl⟩)

variable (retain) in
/-- **Recording.** What is queued are the intents of the calls that were answered, and their ids
count on from the sequence of the factory. -/
theorem record_spec {c : PyCtx} (hc : Fits A c) (calls : List PyCall) :
    (c.record retain calls).2.outbox
        = c.outbox ++ (c.record retain calls).1.map (fun p ↦ p.1.intent)
      ∧ Numbered retain A (c.baseSeq + c.submitCount) (c.record retain calls).1 := by
  induction calls generalizing c with
  | nil => exact ⟨(List.append_nil _).symm, .nil _⟩
  | cons call calls ih =>
    rcases call_cases retain hc call with ⟨e, heq⟩ | ⟨spec, hasks, heq⟩ | ⟨hcall, heq⟩
    · have hrest := ih hc
      simp only [PyCtx.record, heq]
      exact hrest
    · have hrest := ih (c := { c with
        outbox := c.outbox ++ [call.intent], submitCount := c.submitCount + 1 }) ⟨hc.1, hc.2, hc.3⟩
      simp only [PyCtx.record, heq]
      refine ⟨hrest.1.trans (List.append_assoc _ [call.intent] _), .submit hasks ?_⟩
      exact hrest.2
    · have hrest := ih (c := { c with outbox := c.outbox ++ [call.intent] }) ⟨hc.1, hc.2, hc.3⟩
      simp only [PyCtx.record, heq]
      refine ⟨hrest.1.trans (List.append_assoc _ [call.intent] _), ?_⟩
      rcases hcall with ⟨id, rfl⟩ | ⟨name, at_, rfl⟩
      · exact .cancel hrest.2
      · exact .setTimer hrest.2

/-! ## What is replayed -/

/-- The commands that come of calls which were answered: each submit is an order that a factory
makes of what was asked for, with the id that was answered. -/
inductive Replays (retain : ℚ → Option Decimal) (A : PyStrategyAdapter σ) : OrderFactory →
    List (PyCall × Option String) → List StrategyCommand → OrderFactory → Prop where
  | nil (f : OrderFactory) : Replays retain A f [] [] f
  | submit {f f' : OrderFactory} {call : PyCall} {spec : OrderSpec}
      {rest : List (PyCall × Option String)} {cmds : List StrategyCommand}
      (hasks : Asks retain A call spec) (hrest : Replays retain A (f.make spec).2 rest cmds f') :
      Replays retain A f ((call, some (f.make spec).1.clientOrderId.text) :: rest)
        (.submit (f.make spec).1 :: cmds) f'
  | cancel {f f' : OrderFactory} {id : String} {rest : List (PyCall × Option String)}
      {cmds : List StrategyCommand} (hrest : Replays retain A f rest cmds f') :
      Replays retain A f ((.cancel id, none) :: rest) (.cancel ⟨id⟩ :: cmds) f'
  | setTimer {f f' : OrderFactory} {name : String} {at_ : UnixNanos}
      {rest : List (PyCall × Option String)} {cmds : List StrategyCommand}
      (hrest : Replays retain A f rest cmds f') :
      Replays retain A f ((.setTimer name at_, none) :: rest) cmds f'

/-- An order that was asked for is placed when its intent is replayed. -/
theorem runs_replay_submit {α : Type} {call : PyCall} {spec : OrderSpec}
    (hasks : Asks retain A call spec) {intents : List PyIntent} {next : Program α}
    {f f' : OrderFactory} {cmds : List StrategyCommand} {r : α}
    (h : (A.replay retain (call.intent :: intents) next).Runs f cmds r f') :
    ∃ spec' cmds', Asks retain A call spec' ∧ cmds = .submit (f.make spec').1 :: cmds'
      ∧ (A.replay retain intents next).Runs (f.make spec').2 cmds' r f' := by
  cases hasks with
  | market hinst hqty =>
    simp only [PyCall.intent, replay, hinst, hqty, replaySubmit] at h
    obtain ⟨ts, cmds', rfl, hnext⟩ := h.of_submitSpec
    exact ⟨_, cmds', .market hinst hqty ts, rfl, hnext⟩
  | limit hinst hqty hprice =>
    simp only [PyCall.intent, replay, hinst, hqty, replaySubmit, hprice] at h
    obtain ⟨ts, cmds', rfl, hnext⟩ := h.of_submitSpec
    exact ⟨_, cmds', .limit hinst hqty hprice ts, rfl, hnext⟩
  | stop hinst hqty htrigger =>
    simp only [PyCall.intent, replay, hinst, hqty, replaySubmit, htrigger] at h
    obtain ⟨ts, cmds', rfl, hnext⟩ := h.of_submitSpec
    exact ⟨_, cmds', .stop hinst hqty htrigger ts, rfl, hnext⟩
  | stopLimit hinst hqty htrigger hprice =>
    simp only [PyCall.intent, replay, hinst, hqty, replaySubmit, htrigger, hprice] at h
    obtain ⟨ts, cmds', rfl, hnext⟩ := h.of_submitSpec
    exact ⟨_, cmds', .stopLimit hinst hqty htrigger hprice ts, rfl, hnext⟩
  | trailing hinst hqty hoffset trigger =>
    simp only [PyCall.intent, replay, hinst, hqty, replaySubmit, hoffset] at h
    obtain ⟨trigger, ts, cmds', rfl, hnext⟩ := h.of_submitTrailingStop
    exact ⟨_, cmds', .trailing hinst hqty hoffset trigger ts, rfl, hnext⟩

/-- **Replay.** With the factory's sequence where the numbers start, every queued intent is
replayed, and the factory mints the ids that were answered. -/
theorem runs_replay {α : Type} {n : ℕ} {accepted : List (PyCall × Option String)}
    (hnum : Numbered retain A n accepted) {f f' : OrderFactory} {cmds : List StrategyCommand}
    {a r : α} (hid : f.strategyId.text = A.strategyId) (hseq : f.seq = n)
    (h : (A.replay retain (accepted.map fun p ↦ p.1.intent) (.done a)).Runs f cmds r f') :
    r = a ∧ Replays retain A f accepted cmds f' := by
  induction hnum generalizing f cmds with
  | nil n =>
    cases h
    exact ⟨rfl, .nil _⟩
  | submit hasks hrest ih =>
    obtain ⟨spec, cmds', hasks', rfl, hnext⟩ := runs_replay_submit hasks h
    obtain ⟨rfl, hreplays⟩ := ih (f := (f.make spec).2) hid (congrArg (· + 1) hseq) hnext
    refine ⟨rfl, ?_⟩
    rw [← hid, ← hseq]
    exact .submit hasks' hreplays
  | cancel hrest ih =>
    cases h with
    | emit h =>
      obtain ⟨rfl, hreplays⟩ := ih hid hseq h
      exact ⟨rfl, .cancel hreplays⟩
  | setTimer hrest ih =>
    cases h with
    | setTimer _ h =>
      obtain ⟨rfl, hreplays⟩ := ih hid hseq h
      exact ⟨rfl, .setTimer hreplays⟩

omit [DecimalWidth] in
/-- Reading the positions leaves the factory alone. -/
theorem runs_snapshot {α : Type} {entries : List (Sigma fun _ : String ↦ InstrumentMeta)}
    {positions : List (String × ℚ)} {k : List (String × ℚ) → Program α} {f f' : OrderFactory}
    {cmds : List StrategyCommand} {r : α} (h : (snapshot entries positions k).Runs f cmds r f') :
    ∃ positions', (k positions').Runs f cmds r f' := by
  induction entries generalizing positions with
  | nil => exact ⟨positions, h⟩
  | cons entry entries ih =>
    cases h with
    | position p h => exact ih h

/-- **One handler.** At some time and some positions, what is kept is the object after the handler
and what it was answered, and the commands are those of the calls that were answered. -/
theorem runs_runHandlerWith {α : Type} {fin : σ → List (PyCall × Option String) → α} {s : σ}
    {cb : Callback} {f f' : OrderFactory} {cmds : List StrategyCommand} {r : α}
    (hid : f.strategyId.text = A.strategyId)
    (h : (A.runHandlerWith retain fin s cb).Runs f cmds r f') :
    ∃ now positions,
      let ctx := A.freshCtx now f.seq positions
      let accepted := (ctx.record retain (A.obj s cb ctx).1).1
      r = fin (A.obj s cb ctx).2 accepted ∧ Replays retain A f accepted cmds f' := by
  cases h with
  | nowNs now h =>
    cases h with
    | seq h =>
      obtain ⟨positions, h⟩ := runs_snapshot h
      have hfits : Fits A (A.freshCtx now f.seq positions) := ⟨rfl, rfl, rfl⟩
      have hrecord := record_spec retain hfits
        (A.obj s cb (A.freshCtx now f.seq positions)).1
      dsimp only at h
      rw [hrecord.1] at h
      exact ⟨now, positions, runs_replay hrecord.2 hid rfl h⟩

/-! ## Many handlers -/

/-- Some handlers run one after the other: all calls that were answered, and all commands. -/
inductive Invoked (retain : ℚ → Option Decimal) (A : PyStrategyAdapter σ) : σ → OrderFactory →
    List (PyCall × Option String) → List StrategyCommand → σ → OrderFactory → Prop where
  | nil (s : σ) (f : OrderFactory) : Invoked retain A s f [] [] s f
  | handler {s s' s'' : σ} {f f' f'' : OrderFactory} {cb : Callback}
      {accepted accepted' : List (PyCall × Option String)} {cmds cmds' : List StrategyCommand}
      (hruns : (A.observed retain s cb).Runs f cmds (s', accepted) f')
      (hrest : Invoked retain A s' f' accepted' cmds' s'' f'') :
      Invoked retain A s f (accepted ++ accepted') (cmds ++ cmds') s'' f''

namespace Replays

variable {f f' f'' : OrderFactory} {accepted accepted' : List (PyCall × Option String)}
  {cmds cmds' : List StrategyCommand}

theorem append (h : Replays retain A f accepted cmds f')
    (h' : Replays retain A f' accepted' cmds' f'') :
    Replays retain A f (accepted ++ accepted') (cmds ++ cmds') f'' := by
  induction h with
  | nil => exact h'
  | submit hasks _ ih => exact .submit hasks (ih h')
  | cancel _ ih => exact .cancel (ih h')
  | setTimer _ ih => exact .setTimer (ih h')

theorem answered (h : Replays retain A f accepted cmds f') :
    accepted.filterMap Prod.snd = (submittedOrders cmds).map fun o ↦ o.clientOrderId.text := by
  induction h with
  | nil => rfl
  | submit _ _ ih => exact congrArg (_ :: ·) ih
  | cancel _ ih | setTimer _ ih => exact ih

theorem minted (h : Replays retain A f accepted cmds f') :
    accepted.filterMap Prod.snd = (List.range' (f.seq + 1) (f'.seq - f.seq)).map
      (fun n ↦ f.strategyId.text ++ "-" ++ pad20 n) ∧ f.seq ≤ f'.seq := by
  induction h with
  | nil f =>
    rw [Nat.sub_self]
    exact ⟨rfl, le_rfl⟩
  | @submit f f' call spec rest cmds hasks _ ih =>
    obtain ⟨heq, hle⟩ := ih
    have hle' : f.seq + 1 ≤ f'.seq := hle
    have hcount : f'.seq - f.seq = f'.seq - (f.seq + 1) + 1 := by omega
    refine ⟨?_, (Nat.le_succ _).trans hle'⟩
    rw [hcount, List.range'_succ, List.map_cons]
    exact congrArg (_ :: ·) heq
  | cancel _ ih | setTimer _ ih => exact ih

end Replays

/-- **Predicted ids.** Of any handlers that run one after the other, every call that was answered is
replayed; each id that a submit was answered is the one the factory mints for this order; and no two
submits were answered the same id. -/
theorem predicted_eq_minted {s s' : σ} {f f' : OrderFactory} {cmds : List StrategyCommand}
    {accepted : List (PyCall × Option String)} (hid : f.strategyId.text = A.strategyId)
    (h : Invoked retain A s f accepted cmds s' f') :
    Replays retain A f accepted cmds f'
      ∧ accepted.filterMap Prod.snd = (submittedOrders cmds).map (fun o ↦ o.clientOrderId.text)
      ∧ (accepted.filterMap Prod.snd).Nodup := by
  have hreplays : Replays retain A f accepted cmds f' := by
    induction h with
    | nil s f => exact .nil f
    | handler hruns _ ih =>
      have hstrategy := hruns.strategyId
      obtain ⟨now, positions, heq, hfirst⟩ := runs_runHandlerWith hid hruns
      cases heq
      exact hfirst.append (ih (by rw [hstrategy]; exact hid))
  refine ⟨hreplays, hreplays.answered, ?_⟩
  rw [hreplays.minted.1]
  refine (List.nodup_range' ..).map fun m n hmn ↦ pad20_injective ?_
  have htext := congrArg String.toList hmn
  simp only [String.toList_append] at htext
  exact String.toList_inj.mp (List.append_cancel_left htext)

end PyStrategyAdapter

/-! ## In the kernels -/

/-- What a callback of the live kernel leaves in the outbox comes of the calls that its handler was
answered. -/
theorem LiveKernel.call_replays {σ ε : Type} [DecimalWidth] {retain : ℚ → Option Decimal}
    {A : PyStrategyAdapter σ} {setup : LiveSetup σ ε}
    (hstrategy : setup.strategy = A.strategy retain) (cb : Callback) {k : LiveKernel σ ε}
    (hid : k.factory.strategyId.text = A.strategyId) :
    ∃ now positions cmds,
      let ctx := A.freshCtx now k.factory.seq positions
      (call setup cb k).strategy = (A.obj k.strategy cb ctx).2
        ∧ (call setup cb k).outbox = k.outbox ++ cmds
        ∧ A.Replays retain k.factory (ctx.record retain (A.obj k.strategy cb ctx).1).1 cmds
          (call setup cb k).factory := by
  obtain ⟨cmds, hruns, hout, -⟩ := runs_runProgram setup
    (A.runHandlerWith retain (fun s' _ ↦ s') k.strategy cb) k
  obtain ⟨now, positions, hresult, hreplays⟩ := PyStrategyAdapter.runs_runHandlerWith hid hruns
  rw [call, hstrategy]
  exact ⟨now, positions, cmds, hresult, hout, hreplays⟩

/-- So does a callback of the backtest kernel. -/
theorem BacktestKernel.call_replays {σ : Type} [DecimalWidth] {retain : ℚ → Option Decimal}
    {A : PyStrategyAdapter σ} {setup : Setup σ} (hstrategy : setup.strategy = A.strategy retain)
    (cb : Callback) {k : BacktestKernel σ} (hid : k.factory.strategyId.text = A.strategyId) :
    ∃ now positions cmds,
      let ctx := A.freshCtx now k.factory.seq positions
      (call setup cb k).strategy = (A.obj k.strategy cb ctx).2
        ∧ (call setup cb k).outbox = k.outbox ++ cmds
        ∧ A.Replays retain k.factory (ctx.record retain (A.obj k.strategy cb ctx).1).1 cmds
          (call setup cb k).factory := by
  obtain ⟨cmds, hruns, hout⟩ := runs_runProgram setup
    (A.runHandlerWith retain (fun s' _ ↦ s') k.strategy cb)
    { k with journal := k.journal ++ [cb] }
  obtain ⟨now, positions, hresult, hreplays⟩ := PyStrategyAdapter.runs_runHandlerWith hid hruns
  rw [call, hstrategy]
  exact ⟨now, positions, cmds, hresult, hout, hreplays⟩

section Instances

open scoped RustDecimal

/-- A Python strategy whose handlers ask for an order in an unknown symbol and then for two in a
known one, the first of which they cancel. -/
def pySample : PyStrategyAdapter Unit where
  obj _ _ _ := ([.submitMarket "buy" (.finite 1) (some "ETHUSDT"),
    .submitMarket "buy" (.finite 1) none, .submitLimit "Sell" (.finite 1) (.finite 100) none,
    .cancel "py-paper-00000000000000000001"], ())
  instruments := (∅ : AList fun _ : String ↦ InstrumentMeta).insert "BTCUSDT"
    ⟨buyOnce.instrument.id, 2, 3⟩
  defaultSymbol := "BTCUSDT"
  strategyId := "py-paper"

/-- One of its handlers, run on a kernel that has just been built. -/
def pySampleRun :=
  LiveKernel.runProgram (buyOnce.setup (Money.zero paperSettle) ⟨10000, 2⟩)
    (pySample.observed some () .start)
    (LiveKernel.build (buyOnce.setup (Money.zero paperSettle) ⟨10000, 2⟩))

/-- The two orders are placed, under the ids that were answered. -/
theorem predicted_eq_minted_sample :
    pySampleRun.1.2.filterMap Prod.snd
        = ["py-paper-00000000000000000001", "py-paper-00000000000000000002"]
      ∧ pySampleRun.1.2.filterMap Prod.snd
        = (submittedOrders pySampleRun.2.outbox).map fun o ↦ o.clientOrderId.text := by
  refine ⟨by decide +kernel, ?_⟩
  obtain ⟨cmds, hruns, hout, -⟩ := LiveKernel.runs_runProgram
    (buyOnce.setup (Money.zero paperSettle) ⟨10000, 2⟩) (pySample.observed some () .start)
    (LiveKernel.build (buyOnce.setup (Money.zero paperSettle) ⟨10000, 2⟩))
  have hspec := PyStrategyAdapter.predicted_eq_minted rfl (.handler hruns (.nil _ _))
  rw [List.append_nil, List.append_nil] at hspec
  rw [pySampleRun, hout]
  exact hspec.2.1

end Instances

end Coinext
