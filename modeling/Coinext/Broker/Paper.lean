import Coinext.Broker.AshareRules
import Coinext.Support.Sweep

/-!
# The paper broker for equities

`PaperEquityBroker` as state passing. Orders are objects in a table, which the matching loops go
through and mutate one at a time while the loop body also updates cash, positions, the quantities
bought on each day and the list of fills; so a loop is a sweep over the table, and `fill` returns
the broker and the order. Keys of listings are the texts `VENUE:SYMBOL`.

Floats are exact rationals. What instrument specs, calendars and the wall clock answer is taken as
given; the clock is read one reading after the other.
-/

namespace Coinext.Broker

/-- What is looked up outside the broker. -/
class Lookups extends PyText, Calendars where
  /-- The currency of `instrument_spec`, and its taker fee. -/
  currency : String → String
  takerFee : String → String → ℚ
  /-- The readings of the wall clock. -/
  clock : ℕ → ℤ

variable [Lookups]

inductive OrderType where
  | market | limit
deriving DecidableEq

inductive OrderStatus where
  | pending | accepted | partFilled | filled | canceled | rejected
deriving DecidableEq

/-- The text of a rejection, with the numbers it prints. -/
inductive RejectReason where
  | noMark (key : String)
  | outsideBand (price down up prevClose pct : ℚ)
  | insufficientCash (currency : String) (cash cost : ℚ)
  | tPlusOne (sellable qty pos : ℚ)
  | insufficientPosition (pos qty : ℚ)
deriving DecidableEq

structure BrokerOrder where
  clientOrderId : String
  venue : String
  symbol : String
  side : Side
  orderType : OrderType
  qty : ℚ
  limitPrice : Option ℚ
  status : OrderStatus
  filledQty : ℚ
  avgPrice : ℚ
  tsSubmitNs : ℤ
  tsUpdateNs : ℤ
  rejectReason : Option RejectReason
deriving DecidableEq

structure BrokerFill where
  clientOrderId : String
  venue : String
  symbol : String
  side : Side
  qty : ℚ
  price : ℚ
  fee : ℚ
  tsEventNs : ℤ
  tradeId : String
deriving DecidableEq

/-- The key of a listing. -/
def listingKey (venue symbol : String) : String := venue ++ ":" ++ symbol

def BrokerOrder.key (o : BrokerOrder) : String := listingKey o.venue o.symbol

def BrokerFill.key (f : BrokerFill) : String := listingKey f.venue f.symbol

/-- The order is in the hands of the market. -/
def BrokerOrder.working (o : BrokerOrder) : Bool :=
  o.status = .accepted ∨ o.status = .partFilled

/-- The status is a final one. -/
def OrderStatus.terminal (s : OrderStatus) : Bool :=
  s = .filled ∨ s = .canceled ∨ s = .rejected

def BrokerOrder.reject (o : BrokerOrder) (reason : RejectReason) (tsNs : ℤ) : BrokerOrder :=
  { o with status := .rejected, rejectReason := some reason, tsUpdateNs := tsNs }

abbrev Table (κ : Type) [DecidableEq κ] (ν : Type) := AList fun _ : κ ↦ ν

structure PaperEquityBroker where
  enforceT1 : Bool
  enforcePriceLimits : Bool
  clampToLimit : Bool
  cash : Table String ℚ
  positions : Table String ℚ
  orders : List BrokerOrder
  fills : List BrokerFill
  marks : Table String ℚ
  prevClose : Table String ℚ
  /-- Bought quantity by listing and session day. -/
  boughtOn : Table (String × Day) ℚ
  closesBySession : Table String (Table Day ℚ)
  sessionDay : Option Day
  /-- How many ids have been handed out. -/
  idSeq : ℕ
  connected : Bool
  /-- How often the clock has been read. -/
  readings : ℕ

/-- A number padded with zeros on the left to `w` digits. -/
def padZeros (w n : ℕ) : String :=
  String.ofList (List.replicate (w - (Nat.toDigits 10 n).length) '0' ++ Nat.toDigits 10 n)

omit [Lookups] in
theorem padZeros_injective (w : ℕ) : Function.Injective (padZeros w) := by
  have hvalue : ∀ n, Nat.ofDigitChars 10 (padZeros w n).toList 0 = n := by
    intro n
    rw [padZeros, String.toList_ofList, Nat.ofDigitChars_append, Nat.ofDigitChars_replicate_zero,
      Nat.mul_zero, Nat.ofDigitChars_toDigits (by decide) (by decide)]
  intro m n h
  rw [← hvalue m, h, hvalue n]

/-- The id of the `n`-th order. -/
def paperId (n : ℕ) : String := "paper-" ++ padZeros 8 n

omit [Lookups] in
theorem paperId_injective : Function.Injective paperId := by
  intro m n h
  have htext := congrArg String.toList h
  rw [paperId, paperId, String.toList_append, String.toList_append] at htext
  exact padZeros_injective 8 (String.toList_inj.mp (List.append_cancel_left htext))

/-- Balances by the upper case of their currencies. -/
def openingCash (startingCash : List (String × ℚ)) : Table String ℚ :=
  startingCash.foldl (fun (cash : Table String ℚ) p ↦ cash.insert (PyText.upper p.1) p.2) ∅

namespace PaperEquityBroker

/-- A broker with cash in some currencies. -/
def new (startingCash : List (String × ℚ)) (enforceT1 enforcePriceLimits clampToLimit : Bool) :
    PaperEquityBroker where
  enforceT1 := enforceT1
  enforcePriceLimits := enforcePriceLimits
  clampToLimit := clampToLimit
  cash := openingCash startingCash
  positions := ∅
  orders := []
  fills := []
  marks := ∅
  prevClose := ∅
  boughtOn := ∅
  closesBySession := ∅
  sessionDay := none
  idSeq := 0
  connected := false
  readings := 0

variable (b : PaperEquityBroker)

/-- The balance in a currency. -/
def balance (currency : String) : ℚ := (b.cash.lookup currency).getD 0

/-- The position in a listing. -/
def position (key : String) : ℚ := (b.positions.lookup key).getD 0

/-- What was bought of a listing on a day. -/
def bought (key : String) (day : Day) : ℚ := (b.boughtOn.lookup (key, day)).getD 0

/-- Read the clock. -/
def nowNs : ℤ × PaperEquityBroker :=
  (Lookups.clock b.readings, { b with readings := b.readings + 1 })

/-- What may be sold on a day: under T+1, what was not bought on it. -/
def sellableQty (venue symbol : String) (day : Day) : ℚ :=
  let key := listingKey (PyText.upper venue) (PyText.upper symbol)
  let pos := b.position key
  if b.enforceT1 = false ∨ isT1Venue venue = false then pos else max 0 (pos - b.bought key day)

/-- The day a fill is booked on: the session day, if there is one. -/
def dayInForce (tsNs : ℤ) (venue : String) : Day :=
  b.sessionDay.getD (tradeDateFromNs tsNs venue)

/-! ## Filling -/

/-- The slack that comparisons of quantities leave. -/
def slack : ℚ := 1 / 10 ^ 12

/-- The order once `qty` more of it has been filled at `price`. -/
def filledBy (o : BrokerOrder) (price qty : ℚ) (tsNs : ℤ) : BrokerOrder :=
  let filled := o.filledQty + qty
  { o with
    filledQty := filled
    avgPrice :=
      if filled > 0 then
        if o.filledQty > 0 then (o.avgPrice * o.filledQty + price * qty) / filled else price
      else o.avgPrice
    status := if filled ≥ o.qty - slack then .filled else .partFilled
    tsUpdateNs := tsNs }

/-- The report of a fill. -/
def makeFill (o : BrokerOrder) (price qty fee : ℚ) (tsNs : ℤ) : BrokerFill where
  clientOrderId := o.clientOrderId
  venue := o.venue
  symbol := o.symbol
  side := o.side
  qty := qty
  price := price
  fee := fee
  tsEventNs := tsNs
  tradeId := "f-" ++ toString (b.fills.length + 1)

/-- Fill an order, or reject it for want of cash or of shares to sell. -/
def fill (o : BrokerOrder) (price qty : ℚ) (tsNs : ℤ) : PaperEquityBroker × BrokerOrder :=
  if qty ≤ 0 ∨ o.status.terminal then (b, o)
  else
    let ccy := Lookups.currency o.venue
    let notional := |qty * price|
    let fee := notional * Lookups.takerFee o.venue o.symbol
    let pos := b.position o.key
    let cash := b.balance ccy
    let day := b.dayInForce tsNs o.venue
    let fills := b.fills ++ [b.makeFill o price qty fee tsNs]
    match o.side with
    | .buy =>
      let cost := notional + fee
      if cash < cost then (b, o.reject (.insufficientCash ccy cash cost) tsNs)
      else ({ b with
          cash := b.cash.insert ccy (cash - cost)
          positions := b.positions.insert o.key (pos + qty)
          boughtOn := if b.enforceT1 ∧ isT1Venue o.venue then
              b.boughtOn.insert (o.key, day) (b.bought o.key day + qty) else b.boughtOn
          fills := fills }, filledBy o price qty tsNs)
    | .sell =>
      let sellable := b.sellableQty o.venue o.symbol day
      if sellable < qty - slack then
        (b, o.reject (if isT1Venue o.venue ∧ b.enforceT1 ∧ pos ≥ qty then .tPlusOne sellable qty pos
          else .insufficientPosition pos qty) tsNs)
      else ({ b with
          cash := b.cash.insert ccy (cash + notional - fee)
          positions := b.positions.insert o.key (pos - qty)
          fills := fills }, filledBy o price qty tsNs)

/-- The price between `low` and `high` reaches the limit of an order. -/
def hit (low high px : ℚ) : Side → Bool
  | .buy => decide (low ≤ px)
  | .sell => decide (high ≥ px)

/-- One round of `_match_limits`. -/
def matchLimit (venue symbol : String) (mark : ℚ) (b : PaperEquityBroker) (o : BrokerOrder) :
    PaperEquityBroker × BrokerOrder :=
  if o.venue ≠ venue ∨ o.symbol ≠ symbol then (b, o)
  else match o.limitPrice with
    | none => (b, o)
    | some px =>
      if o.working ∧ hit mark mark px o.side then
        let remain := o.qty - o.filledQty
        if remain > 0 then
          let (ts, b) := b.nowNs
          b.fill o px remain ts
        else (b, o)
      else (b, o)

/-- Fill the resting limits that the mark crosses. -/
def matchLimits (venue symbol : String) (mark : ℚ) : PaperEquityBroker :=
  let (b', orders) := sweep (matchLimit venue symbol mark) b b.orders
  { b' with orders := orders }

/-- One round of the loop of `on_bar`. -/
def matchBar (venue symbol : String) (high low : ℚ) (tsNs : ℤ) (b : PaperEquityBroker)
    (o : BrokerOrder) : PaperEquityBroker × BrokerOrder :=
  if o.working then
    match o.limitPrice with
    | none => (b, o)
    | some px =>
      if o.venue ≠ venue ∨ o.symbol ≠ symbol then (b, o)
      else if hit low high px o.side then b.fill o px (o.qty - o.filledQty) tsNs
      else (b, o)
  else (b, o)

/-! ## Calls -/

def connect : PaperEquityBroker := { b with connected := true }

def disconnect : PaperEquityBroker := { b with connected := false }

def setSessionDay (day : Day) : PaperEquityBroker := { b with sessionDay := some day }

def setPrevClose (venue symbol : String) (prevClose : ℚ) : PaperEquityBroker :=
  let key := listingKey (PyText.upper venue) (PyText.upper symbol)
  { b with prevClose := b.prevClose.insert key prevClose }

/-- Update the mark and try to fill resting limits. -/
def setMark (venue symbol : String) (price : ℚ) : PaperEquityBroker :=
  let v := PyText.upper venue
  let s := PyText.upper symbol
  matchLimits { b with marks := b.marks.insert (listingKey v s) price } v s price

/-- What a bar does before the limits are matched: the session day, and the previous close. -/
def openBar (venue symbol : String) (ts : ℤ) : PaperEquityBroker :=
  let v := PyText.upper venue
  let key := listingKey v (PyText.upper symbol)
  let sess := tradeDateFromNs ts v
  let byDay := (b.closesBySession.lookup key).getD ∅
  { b with
    sessionDay := if b.enforceT1 then some sess else b.sessionDay
    prevClose := match resolvePrevClose byDay sess v with
      | some pc => b.prevClose.insert key pc
      | none => b.prevClose }

/-- Drive the session day, the previous close, the matching of limits and the mark. -/
def onBar (venue symbol : String) (high low close : ℚ) (tsNs : Option ℤ) : PaperEquityBroker :=
  let (ts, b) := match tsNs with
    | some ts => (ts, b)
    | none => b.nowNs
  let v := PyText.upper venue
  let s := PyText.upper symbol
  let key := listingKey v s
  let b := b.openBar venue symbol ts
  let (b', orders) := sweep (matchBar v s high low ts) b b.orders
  let byDay := (b.closesBySession.lookup key).getD ∅
  { b' with
    orders := orders
    marks := b'.marks.insert key close
    closesBySession :=
      b'.closesBySession.insert key (byDay.insert (tradeDateFromNs ts v) close) }

/-- Check a price against the band of the day. -/
def checkPrice (venue symbol : String) (side : Side) (price : ℚ) (isMarket : Bool) :
    Except RejectReason ℚ :=
  if b.enforcePriceLimits then
    match b.prevClose.lookup (listingKey venue symbol) with
    | none => .ok price
    | some prev =>
      match limitBand venue symbol prev with
      | none => .ok price
      | some band =>
        if band.allows price side then .ok price
        else if isMarket ∧ b.clampToLimit then .ok (band.clamp price)
        else .error (.outsideBand price band.down band.up prev band.pct)
  else .ok price

/-- A fresh order, not in the table yet. -/
def newOrder (venue symbol : String) (side : Side) (orderType : OrderType) (qty : ℚ)
    (limitPrice : Option ℚ) : BrokerOrder × PaperEquityBroker :=
  let (now, b) := b.nowNs
  ({ clientOrderId := paperId (b.idSeq + 1)
     venue := PyText.upper (PyText.strip venue)
     symbol := PyText.upper (PyText.strip symbol)
     side := side
     orderType := orderType
     qty := qty
     limitPrice := limitPrice
     status := .pending
     filledQty := 0
     avgPrice := 0
     tsSubmitNs := now
     tsUpdateNs := now
     rejectReason := none }, { b with idSeq := b.idSeq + 1 })

/-- Put an order behind the others of the table. -/
def addOrder (o : BrokerOrder) : PaperEquityBroker := { b with orders := b.orders ++ [o] }

/-- What a call raises. -/
inductive BrokerError where
  | notConnected
  | qtyNotPositive
  | unknownOrder (clientOrderId : String)
deriving DecidableEq

/-- Submit a market order, which fills at the mark or is rejected. -/
def submitMarket (venue symbol : String) (side : Side) (qty : ℚ) :
    Except BrokerError BrokerOrder × PaperEquityBroker :=
  if ¬ b.connected then (.error .notConnected, b)
  else if qty ≤ 0 then (.error .qtyNotPositive, b)
  else
    let (o, b) := b.newOrder venue symbol side .market qty none
    match b.marks.lookup o.key with
    | none =>
      let (now, b) := b.nowNs
      let o := o.reject (.noMark o.key) now
      (.ok o, b.addOrder o)
    | some mark =>
      match b.checkPrice o.venue o.symbol side mark true with
      | .error reason =>
        let (now, b) := b.nowNs
        let o := o.reject reason now
        (.ok o, b.addOrder o)
      | .ok px =>
        let (now, b) := b.nowNs
        let (b, o) := b.fill { o with status := .accepted } px qty now
        (.ok o, b.addOrder o)

/-- Submit a limit order, which rests unless the mark crosses it. -/
def submitLimit (venue symbol : String) (side : Side) (qty price : ℚ) :
    Except BrokerError BrokerOrder × PaperEquityBroker :=
  if ¬ b.connected then (.error .notConnected, b)
  else if qty ≤ 0 then (.error .qtyNotPositive, b)
  else
    let (o, b) := b.newOrder venue symbol side .limit qty (some price)
    match b.checkPrice o.venue o.symbol side price false with
    | .error reason =>
      let (now, b) := b.nowNs
      let o := o.reject reason now
      (.ok o, b.addOrder o)
    | .ok px =>
      let o := { o with limitPrice := some px, status := .accepted }
      let b := b.addOrder o
      match b.marks.lookup o.key with
      | none => (.ok o, b)
      | some mark =>
        let b := b.matchLimits o.venue o.symbol mark
        (.ok ((b.orders.find? fun o' ↦ o'.clientOrderId = o.clientOrderId).getD o), b)

/-- Cancel an order, unless its status is final. -/
def cancel (clientOrderId : String) : Except BrokerError BrokerOrder × PaperEquityBroker :=
  if ¬ b.connected then (.error .notConnected, b)
  else match b.orders.find? fun o ↦ o.clientOrderId = clientOrderId with
    | none => (.error (.unknownOrder clientOrderId), b)
    | some o =>
      if o.status.terminal then (.ok o, b)
      else
        let (now, b) := b.nowNs
        let update (o : BrokerOrder) := { o with status := .canceled, tsUpdateNs := now }
        let orders := replaceFirst (fun o ↦ o.clientOrderId = clientOrderId) update b.orders
        (.ok (update o), { b with orders := orders })

/-- The calls of a run. -/
inductive Call where
  | connect
  | disconnect
  | setSessionDay (day : Day)
  | setPrevClose (venue symbol : String) (prevClose : ℚ)
  | setMark (venue symbol : String) (price : ℚ)
  | onBar (venue symbol : String) (high low close : ℚ) (tsNs : Option ℤ)
  | submitMarket (venue symbol : String) (side : Side) (qty : ℚ)
  | submitLimit (venue symbol : String) (side : Side) (qty price : ℚ)
  | cancel (clientOrderId : String)

/-- The broker after a call, whether it raises or not. -/
def step (b : PaperEquityBroker) : Call → PaperEquityBroker
  | .connect => b.connect
  | .disconnect => b.disconnect
  | .setSessionDay day => b.setSessionDay day
  | .setPrevClose venue symbol prevClose => b.setPrevClose venue symbol prevClose
  | .setMark venue symbol price => b.setMark venue symbol price
  | .onBar venue symbol high low close tsNs => b.onBar venue symbol high low close tsNs
  | .submitMarket venue symbol side qty => (b.submitMarket venue symbol side qty).2
  | .submitLimit venue symbol side qty price => (b.submitLimit venue symbol side qty price).2
  | .cancel clientOrderId => (b.cancel clientOrderId).2

/-! ## What a fill does -/

end PaperEquityBroker

/-- Cash in a currency that a fill brings in. -/
def BrokerFill.cashFlow (currency : String) (f : BrokerFill) : ℚ :=
  if Lookups.currency f.venue = currency then
    match f.side with
    | .buy => -(|f.qty * f.price| + f.fee)
    | .sell => |f.qty * f.price| - f.fee
  else 0

/-- Shares of a listing that a fill brings in. -/
def BrokerFill.signedQty (key : String) (f : BrokerFill) : ℚ :=
  if f.key = key then
    match f.side with
    | .buy => f.qty
    | .sell => -f.qty
  else 0

omit [Lookups] in
theorem getD_lookup_insert {κ : Type} [DecidableEq κ] (t : Table κ ℚ) (k k' : κ) (v : ℚ) :
    ((t.insert k v).lookup k').getD 0 = if k' = k then v else (t.lookup k').getD 0 := by
  by_cases h : k' = k
  · subst h
    rw [AList.lookup_insert, if_pos rfl, Option.getD_some]
  · rw [AList.lookup_insert_ne h, if_neg h]

namespace PaperEquityBroker

variable {b : PaperEquityBroker} {o : BrokerOrder} {price qty : ℚ} {tsNs : ℤ}

/-- The report of a fill at the broker's fee. -/
def report (b : PaperEquityBroker) (o : BrokerOrder) (price qty : ℚ) (tsNs : ℤ) : BrokerFill :=
  b.makeFill o price qty (|qty * price| * Lookups.takerFee o.venue o.symbol) tsNs

/-- The cash a fill brings in, in its own currency and in another. -/
theorem cashFlow_report (b : PaperEquityBroker) (o : BrokerOrder) (price qty : ℚ) (tsNs : ℤ)
    (c : String) : (b.report o price qty tsNs).cashFlow c
      = if c = Lookups.currency o.venue then
          match o.side with
          | .buy => -(|qty * price| + |qty * price| * Lookups.takerFee o.venue o.symbol)
          | .sell => |qty * price| - |qty * price| * Lookups.takerFee o.venue o.symbol
        else 0 := by
  by_cases h : c = Lookups.currency o.venue
  · rw [if_pos h]
    exact if_pos h.symm
  · rw [if_neg h]
    exact if_neg (Ne.symm h)

theorem signedQty_report (b : PaperEquityBroker) (o : BrokerOrder) (price qty : ℚ) (tsNs : ℤ)
    (k : String) : (b.report o price qty tsNs).signedQty k
      = if k = o.key then
          match o.side with
          | .buy => qty
          | .sell => -qty
        else 0 := by
  by_cases h : k = o.key
  · rw [if_pos h]
    exact if_pos h.symm
  · rw [if_neg h]
    exact if_neg (Ne.symm h)

/-- What a fill changes, once it goes through. -/
structure Executed (b : PaperEquityBroker) (o : BrokerOrder) (price qty : ℚ) (tsNs : ℤ)
    (b' : PaperEquityBroker) : Prop where
  fills : b'.fills = b.fills ++ [b.report o price qty tsNs]
  balance : ∀ c, b'.balance c = b.balance c + (b.report o price qty tsNs).cashFlow c
  position : ∀ k, b'.position k = b.position k + (b.report o price qty tsNs).signedQty k
  bought : ∀ k d, b'.bought k d = b.bought k d
    + if o.side = .buy ∧ (b.enforceT1 = true ∧ isT1Venue o.venue = true) ∧ k = o.key
        ∧ d = b.dayInForce tsNs o.venue then qty else 0
  /-- Nothing else changes. -/
  frame : ∃ cash positions fills boughtOn, b' = { b with cash, positions, fills, boughtOn }
  covered : o.side = .buy → |qty * price| + |qty * price| * Lookups.takerFee o.venue o.symbol
    ≤ b.balance (Lookups.currency o.venue)
  held : o.side = .sell →
    qty - slack ≤ b.sellableQty o.venue o.symbol (b.dayInForce tsNs o.venue)

/-- **The cases of a fill.** It does nothing, or rejects the order, or goes through. -/
theorem fill_cases (b : PaperEquityBroker) (o : BrokerOrder) (price qty : ℚ) (tsNs : ℤ) :
    (b.fill o price qty tsNs = (b, o) ∧ (qty ≤ 0 ∨ o.status.terminal = true))
      ∨ (0 < qty ∧ o.status.terminal = false
        ∧ ((∃ reason, b.fill o price qty tsNs = (b, o.reject reason tsNs))
          ∨ (Executed b o price qty tsNs (b.fill o price qty tsNs).1
            ∧ (b.fill o price qty tsNs).2 = filledBy o price qty tsNs))) := by
  by_cases hguard : qty ≤ 0 ∨ o.status.terminal = true
  · exact .inl ⟨if_pos hguard, hguard⟩
  obtain ⟨hqty, hstatus⟩ := not_or.mp hguard
  refine .inr ⟨not_le.mp hqty, eq_false_of_ne_true hstatus, ?_⟩
  unfold fill
  rw [if_neg hguard]
  cases hside : o.side with
  | buy =>
    dsimp only
    by_cases hcash : b.balance (Lookups.currency o.venue)
        < |qty * price| + |qty * price| * Lookups.takerFee o.venue o.symbol
    · rw [if_pos hcash]
      exact .inl ⟨_, rfl⟩
    · rw [if_neg hcash]
      refine .inr ⟨⟨rfl, fun c ↦ ?_, fun k ↦ ?_, fun k d ↦ ?_, ⟨_, _, _, _, rfl⟩,
        fun _ ↦ not_lt.mp hcash, fun h ↦ ?_⟩, rfl⟩
      · change ((b.cash.insert _ _).lookup c).getD 0 = _
        rw [getD_lookup_insert, cashFlow_report, hside]
        split_ifs with hc
        · rw [hc, ← sub_eq_add_neg]
        · exact (add_zero _).symm
      · change ((b.positions.insert _ _).lookup k).getD 0 = _
        rw [getD_lookup_insert, signedQty_report, hside]
        split_ifs with hk
        · rw [hk]
        · exact (add_zero _).symm
      · by_cases ht1 : b.enforceT1 = true ∧ isT1Venue o.venue = true
        · rw [bought, if_pos ht1, getD_lookup_insert]
          by_cases hkey : (k, d) = (o.key, b.dayInForce tsNs o.venue)
          · obtain ⟨rfl, rfl⟩ := Prod.mk.injEq .. ▸ hkey
            rw [if_pos rfl, if_pos ⟨hside, ht1, rfl, rfl⟩]
          · rw [if_neg hkey, if_neg (fun h ↦ hkey (Prod.ext h.2.2.1 h.2.2.2)), add_zero]
            rfl
        · rw [bought, if_neg ht1, if_neg (fun h ↦ ht1 h.2.1), add_zero]
          rfl
      · rw [hside] at h
        cases h
  | sell =>
    dsimp only
    by_cases hheld : b.sellableQty o.venue o.symbol (b.dayInForce tsNs o.venue) < qty - slack
    · rw [if_pos hheld]
      exact .inl ⟨_, rfl⟩
    · rw [if_neg hheld]
      refine .inr ⟨⟨rfl, fun c ↦ ?_, fun k ↦ ?_, fun k d ↦ ?_, ⟨_, _, _, _, rfl⟩,
        fun h ↦ ?_, fun _ ↦ not_lt.mp hheld⟩, rfl⟩
      · change ((b.cash.insert _ _).lookup c).getD 0 = _
        rw [getD_lookup_insert, cashFlow_report, hside]
        split_ifs with hc
        · rw [hc, add_sub_assoc]
        · exact (add_zero _).symm
      · change ((b.positions.insert _ _).lookup k).getD 0 = _
        rw [getD_lookup_insert, signedQty_report, hside]
        split_ifs with hk
        · rw [hk, ← sub_eq_add_neg]
        · exact (add_zero _).symm
      · rw [if_neg, add_zero]
        · rfl
        · rintro ⟨h, -⟩
          rw [hside] at h
          cases h
      · rw [hside] at h
        cases h

theorem fill_frame (b : PaperEquityBroker) (o : BrokerOrder) (price qty : ℚ) (tsNs : ℤ) :
    ∃ cash positions fills boughtOn,
      (b.fill o price qty tsNs).1 = { b with cash, positions, fills, boughtOn } := by
  rcases fill_cases b o price qty tsNs with ⟨h, -⟩ | ⟨-, -, ⟨_, h⟩ | ⟨h, -⟩⟩
  · exact ⟨_, _, _, _, by rw [h]⟩
  · exact ⟨_, _, _, _, by rw [h]⟩
  · exact h.frame

/-- The limit of the order is reached by a price between `low` and `high`. -/
structure Reached (venue symbol : String) (low high : ℚ) (o : BrokerOrder) (px : ℚ) : Prop where
  limit : o.limitPrice = some px
  working : o.working = true
  venue : o.venue = venue
  symbol : o.symbol = symbol
  hit : hit low high px o.side = true

/-- A round of `_match_limits` fills an order that the mark reaches. -/
theorem matchLimit_cases (b : PaperEquityBroker) (o : BrokerOrder) (venue symbol : String)
    (mark : ℚ) : b.matchLimit venue symbol mark o = (b, o)
      ∨ ∃ px, Reached venue symbol mark mark o px ∧ b.matchLimit venue symbol mark o
        = b.nowNs.2.fill o px (o.qty - o.filledQty) b.nowNs.1 := by
  unfold matchLimit
  by_cases hlisting : o.venue ≠ venue ∨ o.symbol ≠ symbol
  · rw [if_pos hlisting]
    exact .inl rfl
  rw [if_neg hlisting]
  obtain ⟨hvenue, hsymbol⟩ := not_or.mp hlisting
  cases hlimit : o.limitPrice with
  | none => exact .inl rfl
  | some px =>
    dsimp only
    split_ifs with hhit hremain
    · exact .inr ⟨px, ⟨hlimit, hhit.1, not_not.mp hvenue, not_not.mp hsymbol, hhit.2⟩, rfl⟩
    · exact .inl rfl
    · exact .inl rfl

/-- A round of the loop of `on_bar` fills an order that the bar reaches. -/
theorem matchBar_cases (b : PaperEquityBroker) (o : BrokerOrder) (venue symbol : String)
    (high low : ℚ) (tsNs : ℤ) : b.matchBar venue symbol high low tsNs o = (b, o)
      ∨ ∃ px, Reached venue symbol low high o px ∧ b.matchBar venue symbol high low tsNs o
        = b.fill o px (o.qty - o.filledQty) tsNs := by
  unfold matchBar
  by_cases hworking : o.working = true
  · rw [if_pos hworking]
    cases hlimit : o.limitPrice with
    | none => exact .inl rfl
    | some px =>
      dsimp only
      split_ifs with hlisting hhit
      · exact .inl rfl
      · obtain ⟨hvenue, hsymbol⟩ := not_or.mp hlisting
        exact .inr ⟨px, ⟨hlimit, hworking, not_not.mp hvenue, not_not.mp hsymbol, hhit⟩, rfl⟩
      · exact .inl rfl
  · rw [if_neg hworking]
    exact .inl rfl

/-- **The cases of a market order.** The call raises; or the order is rejected; or it is filled, or
not, at a price that was checked against the mark. -/
theorem submitMarket_cases (b : PaperEquityBroker) (venue symbol : String) (side : Side) (qty : ℚ) :
    (b.submitMarket venue symbol side qty).2 = b
      ∨ (0 < qty ∧ ∃ o b₁, b.newOrder venue symbol side .market qty none = (o, b₁)
        ∧ ((∃ reason, (b.submitMarket venue symbol side qty).2
            = b₁.nowNs.2.addOrder (o.reject reason b₁.nowNs.1))
          ∨ ∃ mark px, b.marks.lookup o.key = some mark
            ∧ b.checkPrice o.venue o.symbol side mark true = .ok px
            ∧ (b.submitMarket venue symbol side qty).2
              = (b₁.nowNs.2.fill { o with status := .accepted } px qty b₁.nowNs.1).1.addOrder
                (b₁.nowNs.2.fill { o with status := .accepted } px qty b₁.nowNs.1).2)) := by
  unfold submitMarket
  by_cases hconnected : ¬ b.connected = true
  · rw [if_pos hconnected]
    exact .inl rfl
  rw [if_neg hconnected]
  by_cases hqty : qty ≤ 0
  · rw [if_pos hqty]
    exact .inl rfl
  rw [if_neg hqty]
  refine .inr ⟨not_le.mp hqty, _, _, rfl, ?_⟩
  dsimp only
  have hmarks : (b.newOrder venue symbol side .market qty none).2.marks = b.marks := rfl
  rw [hmarks]
  cases hmark : b.marks.lookup (b.newOrder venue symbol side .market qty none).1.key with
  | none => exact .inl ⟨_, rfl⟩
  | some mark =>
    dsimp only
    have hcheck : ∀ v s, (b.newOrder venue symbol side .market qty none).2.checkPrice v s side mark
        true = b.checkPrice v s side mark true := fun _ _ ↦ rfl
    rw [hcheck]
    cases hprice : b.checkPrice (b.newOrder venue symbol side .market qty none).1.venue
        (b.newOrder venue symbol side .market qty none).1.symbol side mark true with
    | error reason => exact .inl ⟨_, rfl⟩
    | ok px => exact .inr ⟨mark, px, hmark, hprice, rfl⟩

/-- **The cases of a limit order.** The call raises; or the order is rejected; or it rests, and what
the mark reaches is filled. -/
theorem submitLimit_cases (b : PaperEquityBroker) (venue symbol : String) (side : Side)
    (qty price : ℚ) :
    (b.submitLimit venue symbol side qty price).2 = b
      ∨ (0 < qty ∧ ∃ o b₁, b.newOrder venue symbol side .limit qty (some price) = (o, b₁)
        ∧ ((∃ reason, (b.submitLimit venue symbol side qty price).2
            = b₁.nowNs.2.addOrder (o.reject reason b₁.nowNs.1))
          ∨ ∃ px, b.checkPrice o.venue o.symbol side price false = .ok px
            ∧ ((b.marks.lookup o.key = none ∧ (b.submitLimit venue symbol side qty price).2
                = b₁.addOrder { o with limitPrice := some px, status := .accepted })
              ∨ ∃ mark, b.marks.lookup o.key = some mark
                ∧ (b.submitLimit venue symbol side qty price).2
                  = (b₁.addOrder { o with limitPrice := some px, status := .accepted }).matchLimits
                    o.venue o.symbol mark))) := by
  unfold submitLimit
  by_cases hconnected : ¬ b.connected = true
  · rw [if_pos hconnected]
    exact .inl rfl
  rw [if_neg hconnected]
  by_cases hqty : qty ≤ 0
  · rw [if_pos hqty]
    exact .inl rfl
  rw [if_neg hqty]
  refine .inr ⟨not_le.mp hqty, _, _, rfl, ?_⟩
  dsimp only
  have hcheck : ∀ v s, (b.newOrder venue symbol side .limit qty (some price)).2.checkPrice v s side
      price false = b.checkPrice v s side price false := fun _ _ ↦ rfl
  rw [hcheck]
  cases hprice : b.checkPrice (b.newOrder venue symbol side .limit qty (some price)).1.venue
      (b.newOrder venue symbol side .limit qty (some price)).1.symbol side price false with
  | error reason => exact .inl ⟨_, rfl⟩
  | ok px =>
    refine .inr ⟨px, hprice, ?_⟩
    dsimp only
    have hkey : (BrokerOrder.key { (b.newOrder venue symbol side .limit qty (some price)).1 with
        limitPrice := some px, status := .accepted })
        = (b.newOrder venue symbol side .limit qty (some price)).1.key := rfl
    have hmarks : ((b.newOrder venue symbol side .limit qty (some price)).2.addOrder
        { (b.newOrder venue symbol side .limit qty (some price)).1 with
          limitPrice := some px, status := .accepted }).marks = b.marks := rfl
    rw [hkey, hmarks]
    cases hmark : b.marks.lookup (b.newOrder venue symbol side .limit qty (some price)).1.key with
    | none => exact .inl ⟨hmark, rfl⟩
    | some mark => exact .inr ⟨mark, hmark, rfl⟩

/-- **The cases of a cancel.** Nothing changes, or an order that is not final is canceled. -/
theorem cancel_cases (b : PaperEquityBroker) (clientOrderId : String) :
    (b.cancel clientOrderId).2 = b
      ∨ ∃ front o back, b.orders = front ++ o :: back ∧ o.status.terminal = false
        ∧ (b.cancel clientOrderId).2 = { b.nowNs.2 with
          orders := front ++ { o with status := .canceled, tsUpdateNs := b.nowNs.1 } :: back } := by
  unfold cancel
  by_cases hconnected : ¬ b.connected = true
  · rw [if_pos hconnected]
    exact .inl rfl
  rw [if_neg hconnected]
  cases hfind : b.orders.find? fun o ↦ o.clientOrderId = clientOrderId with
  | none => exact .inl rfl
  | some o =>
    dsimp only
    split_ifs with hterminal
    · exact .inl rfl
    · obtain ⟨front, back, hsplit, hreplace⟩ := replaceFirst_of_find?
        (fun o : BrokerOrder ↦ { o with status := .canceled, tsUpdateNs := b.nowNs.1 }) hfind
      refine .inr ⟨front, o, back, hsplit, eq_false_of_ne_true hterminal, ?_⟩
      rw [← hreplace]
      rfl

end PaperEquityBroker

/-- Exchanges in Shanghai and Shenzhen, and otherwise in New York in winter, on days without
holidays. -/
@[reducible] def sampleLookups : Lookups where
  upper := id
  strip := id
  isDigit := Char.isDigit
  upper_upper _ := rfl
  sessionDate tsNs venue :=
    (tsNs / 10 ^ 9 + if venue ∈ t1Venues then 8 * 3600 else -5 * 3600) / 86400
  previousSessionDate _ day := some (day - 1)
  currency venue := if venue ∈ t1Venues then "CNY" else "USD"
  takerFee venue _ := if venue ∈ t1Venues then 3 / 4000 else 1 / 10000
  clock n := 1700000000 * 10 ^ 9 + n

end Coinext.Broker
