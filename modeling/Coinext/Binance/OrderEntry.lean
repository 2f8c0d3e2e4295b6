import Coinext.Binance.Instruments
import Coinext.Engine.Ports
import Coinext.Network.Rest

/-!
# Order entry over REST

The command side of the Binance execution client: orders and cancels become signed requests, and
what the REST client answers becomes the result of the port. The order carries its client order id
as `newClientOrderId`, and only its request is marked idempotent.
-/

namespace Coinext

/-- The errors of the ports. -/
inductive PortError where
  | notConnected
  | io (e : String)
  | unsupported (e : String)
  | rejected (e : String)
deriving DecidableEq

def PortError.display : PortError → String
  | .notConnected => "not connected"
  | .io e => "io error: " ++ e
  | .unsupported e => "unsupported: " ++ e
  | .rejected e => "rejected by venue: " ++ e

namespace Binance

/-- A 4xx status is a rejection, everything else an i/o error. -/
def netToPort : NetError → PortError
  | .http status body =>
    if 400 ≤ status ∧ status < 500 then
      .rejected ("http " ++ toString status ++ ": " ++ body)
    else .io ("http " ++ toString status ++ ": " ++ body)
  | other => .io other.display

/-- A decimal without trailing zeros. -/
def trimDecimal (d : Decimal) : String :=
  let scale := normalizedScale d
  let m := mantissa |d| scale
  let sign := if d < 0 then "-" else ""
  if scale = 0 then sign ++ toString m
  else
    let digits := Nat.toDigits 10 (m.toNat % 10 ^ scale)
    let fraction := List.replicate (scale - digits.length) '0' ++ digits
    sign ++ toString (m.toNat / 10 ^ scale) ++ "." ++ String.ofList fraction

def tifToStr : TimeInForce → String
  | .gtc | .gtd | .day => "GTC"
  | .ioc => "IOC"
  | .fok => "FOK"

def orderTypeText : OrderType → Except String String
  | .market => .ok "MARKET"
  | .limit => .ok "LIMIT"
  | .stopLimit => .ok "STOP_LOSS_LIMIT"
  | .stopMarket => .ok "STOP_LOSS"
  | .marketIfTouched => .ok "TAKE_PROFIT"
  | .trailingStopMarket => .error "trailing stop is unsupported on Binance spot"

/-- The parameters of an order. -/
def buildOrderParams (order : Order) : Except String (List (String × String)) := do
  let side := match order.side with
    | .buy => "BUY"
    | .sell => "SELL"
  let orderType ← orderTypeText order.orderType
  let params :=
    [("symbol", order.instrumentId.symbol.text), ("side", side), ("type", orderType),
      ("quantity", trimDecimal order.quantity.asDecimal),
      ("newClientOrderId", order.clientOrderId.text)]
  let limitParams ←
    if order.orderType = .limit ∨ order.orderType = .stopLimit then
      match order.price with
      | some price =>
        .ok [("price", trimDecimal price.asDecimal), ("timeInForce", tifToStr order.tif)]
      | none => .error "limit order missing price"
    else .ok []
  let stopParams :=
    if order.orderType = .stopLimit ∨ order.orderType = .stopMarket
        ∨ order.orderType = .marketIfTouched then
      match order.trigger with
      | some trigger => [("stopPrice", trimDecimal trigger.asDecimal)]
      | none => []
    else []
  .ok (params ++ limitParams ++ stopParams)

/-- The request of an order: the one mutating call that may be repeated. -/
def orderRequest (params : List (String × String)) : RestRequest :=
  { (RestRequest.signedRequest .post "/api/v3/order" 1).withIdempotent true with query := params }

/-- The request of a cancel. -/
def buildCancelParams (clientOrderId : ClientOrderId) (instrumentId : InstrumentId) :
    RestRequest :=
  ((RestRequest.signedRequest .delete "/api/v3/order" 1).withParam "symbol"
    instrumentId.symbol.text).withParam "origClientOrderId" clientOrderId.text

section Client

variable {σ : Type} (rest : RestClient σ)

/-- Whether the call succeeded, or the error of the port. -/
def portResult (r : Except NetError RestResponse × σ) : Except PortError Unit × σ :=
  (match r.1 with
    | .ok _ => .ok ()
    | .error e => .error (netToPort e), r.2)

def submitOrder (order : Order) (s : σ) : Except PortError Unit × σ :=
  match buildOrderParams order with
  | .error e => (.error (.rejected ("build order params: " ++ e)), s)
  | .ok params => portResult (rest.send (orderRequest params) s)

def cancelOrder (clientOrderId : ClientOrderId) (instrumentId : InstrumentId) (s : σ) :
    Except PortError Unit × σ :=
  portResult (rest.send (buildCancelParams clientOrderId instrumentId) s)

end Client

/-- A market order's parameters, which end with its client order id. -/
theorem buildOrderParams_market {order : Order} (h : order.orderType = .market) :
    ∃ front, buildOrderParams order
      = .ok (front ++ [("newClientOrderId", order.clientOrderId.text)])
      ∧ "newClientOrderId" ∉ front.map Prod.fst := by
  refine ⟨[("symbol", order.instrumentId.symbol.text),
    ("side", match order.side with | .buy => "BUY" | .sell => "SELL"), ("type", "MARKET"),
    ("quantity", trimDecimal order.quantity.asDecimal)], ?_, by simp⟩
  simp [buildOrderParams, h, orderTypeText, bind, Except.bind]

end Binance

end Coinext
