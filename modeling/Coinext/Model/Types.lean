import Coinext.Core.Value
import Mathlib.Data.List.AList

/-!
# Identifiers, enumerations, fills and instruments

The vocabulary of `coinext-model`: the identifier newtypes, the enumerations, the `Fill`, and the
`Instrument` trait as the record of what its methods return. The five instrument families are the
dictionaries their trait implementations build.

Times are nanoseconds in a `u64`; only the saturating addition that schedules a delayed report
depends on the width. Hash maps are association lists without repeated keys, in the order of their
last insertion.
-/

namespace Coinext

/-- A hash map. -/
abbrev Map (κ ν : Type) := AList fun _ : κ ↦ ν

/-! ## Time -/

/-- Nanoseconds since the Unix epoch. -/
abbrev UnixNanos := ℕ

def u64Max : ℕ := 2 ^ 64 - 1

def saturatingAddNs (t : UnixNanos) (ns : ℕ) : UnixNanos := min (t + ns) u64Max

theorem saturatingAddNs_mono {t t' : UnixNanos} (h : t ≤ t') (ns : ℕ) :
    saturatingAddNs t ns ≤ saturatingAddNs t' ns :=
  min_le_min_right _ (Nat.add_le_add_right h ns)

/-! ## Identifiers -/

structure Symbol where
  text : String
deriving DecidableEq

structure Venue where
  text : String
deriving DecidableEq

structure ClientOrderId where
  text : String
deriving DecidableEq

structure VenueOrderId where
  text : String
deriving DecidableEq

structure StrategyId where
  text : String
deriving DecidableEq

structure PositionId where
  text : String
deriving DecidableEq

structure TradeId where
  text : String
deriving DecidableEq

structure InstrumentId where
  symbol : Symbol
  venue : Venue
deriving DecidableEq

/-- `SYMBOL.VENUE`. -/
def InstrumentId.display (id : InstrumentId) : String := id.symbol.text ++ "." ++ id.venue.text

/-- The decimal rendering of `n`, padded with zeros on the left to twenty digits. -/
def pad20 (n : ℕ) : String :=
  String.ofList (List.replicate (20 - (Nat.toDigits 10 n).length) '0' ++ Nat.toDigits 10 n)

/-- The padded rendering determines the number: it is the value of the digits. -/
theorem pad20_injective : Function.Injective pad20 := by
  have hvalue : ∀ n, Nat.ofDigitChars 10 (pad20 n).toList 0 = n := by
    intro n
    rw [pad20, String.toList_ofList, Nat.ofDigitChars_append, Nat.ofDigitChars_replicate_zero,
      Nat.mul_zero, Nat.ofDigitChars_toDigits (by decide) (by decide)]
  intro m n h
  rw [← hvalue m, h, hvalue n]

/-! ## Enumerations -/

inductive AssetClass where
  | spot | perp | future | equity | option
deriving DecidableEq

inductive OptionRight where
  | call | put
deriving DecidableEq

/-- Intrinsic value per unit of underlying. -/
def OptionRight.intrinsic (right : OptionRight) (spot strike : Decimal) : Decimal :=
  max (match right with
    | .call => spot - strike
    | .put => strike - spot) 0

inductive OrderSide where
  | buy | sell
deriving DecidableEq

/-- `+1` for a buy, `-1` for a sell. -/
def OrderSide.sign : OrderSide → ℤ
  | .buy => 1
  | .sell => -1

inductive OrderType where
  | market | limit | stopMarket | stopLimit | marketIfTouched | trailingStopMarket
deriving DecidableEq

inductive TimeInForce where
  | gtc | ioc | fok | gtd | day
deriving DecidableEq

inductive OrderStatus where
  | initialized | denied | submitted | accepted | pendingUpdate | pendingCancel
  | partiallyFilled | filled | canceled | expired | rejected
deriving DecidableEq

namespace OrderStatus

/-- Terminal states never transition further. -/
def isTerminal : OrderStatus → Bool
  | .denied | .filled | .canceled | .expired | .rejected => true
  | _ => false

/-- The name an error message prints. -/
def debug : OrderStatus → String
  | .initialized => "Initialized"
  | .denied => "Denied"
  | .submitted => "Submitted"
  | .accepted => "Accepted"
  | .pendingUpdate => "PendingUpdate"
  | .pendingCancel => "PendingCancel"
  | .partiallyFilled => "PartiallyFilled"
  | .filled => "Filled"
  | .canceled => "Canceled"
  | .expired => "Expired"
  | .rejected => "Rejected"

end OrderStatus

inductive LiquiditySide where
  | maker | taker
deriving DecidableEq

inductive PositionSide where
  | long | short | flat
deriving DecidableEq

/-! ## Fills -/

/-- A single execution against an order. -/
structure Fill where
  tradeId : TradeId
  clientOrderId : ClientOrderId
  venueOrderId : VenueOrderId
  instrumentId : InstrumentId
  side : OrderSide
  lastPx : Price
  lastQty : Quantity
  fee : Money
  liquidity : LiquiditySide
  tsEvent : UnixNanos
  tsInit : UnixNanos
deriving DecidableEq

/-- The quantity of a fill with the sign of its side. -/
def Fill.signedQty (f : Fill) : Decimal := f.side.sign * f.lastQty.asDecimal

theorem Fill.onGrid_signedQty {f : Fill} {precision : ℕ}
    (h : OnGrid f.lastQty.asDecimal precision) : OnGrid f.signedQty precision := by
  unfold Fill.signedQty OrderSide.sign
  cases f.side with
  | buy => simpa using h
  | sell => simpa using h.neg

/-! ## Instruments -/

/-- What the methods of the `Instrument` trait return. -/
structure Instrument where
  id : InstrumentId
  assetClass : AssetClass
  baseCurrency : Currency
  quoteCurrency : Currency
  settlementCurrency : Currency
  pricePrecision : ℕ
  sizePrecision : ℕ
  priceIncrement : Price
  sizeIncrement : Quantity
  minNotional : Option Money
  /-- Contract size; one for spot and equity. -/
  multiplier : Quantity
  makerFee : Decimal
  takerFee : Decimal
  isInverse : Bool
  expiryNs : Option UnixNanos := none
  strike : Option Price := none
  optionRight : Option OptionRight := none
  underlying : Option InstrumentId := none
deriving DecidableEq

/-- Quantize a decimal into a price at the instrument's precision. -/
def Instrument.makePrice [DecimalWidth] (inst : Instrument) (d : Decimal) :
    Except ModelError Price :=
  Price.fromDecimal d inst.pricePrecision

/-- The unit multiplier shared by spot and equity. -/
def unitMultiplier : Quantity := ⟨1, 0⟩

/-- Spot currency pair. Linear, multiplier one, settles in the quote currency. -/
def currencyPair (id : InstrumentId) (base quote : Currency) (pricePrecision sizePrecision : ℕ)
    (priceIncrement : Price) (sizeIncrement : Quantity) (minNotional : Option Money)
    (makerFee takerFee : Decimal) : Instrument where
  id := id
  assetClass := .spot
  baseCurrency := base
  quoteCurrency := quote
  settlementCurrency := quote
  pricePrecision := pricePrecision
  sizePrecision := sizePrecision
  priceIncrement := priceIncrement
  sizeIncrement := sizeIncrement
  minNotional := minNotional
  multiplier := unitMultiplier
  makerFee := makerFee
  takerFee := takerFee
  isInverse := false

/-- Linear or coin-margined (inverse) perpetual. -/
def cryptoPerpetual (id : InstrumentId) (base quote settlement : Currency)
    (pricePrecision sizePrecision : ℕ) (priceIncrement : Price) (sizeIncrement : Quantity)
    (minNotional : Option Money) (multiplier : Quantity) (makerFee takerFee : Decimal)
    (isInverse : Bool) : Instrument where
  id := id
  assetClass := .perp
  baseCurrency := base
  quoteCurrency := quote
  settlementCurrency := settlement
  pricePrecision := pricePrecision
  sizePrecision := sizePrecision
  priceIncrement := priceIncrement
  sizeIncrement := sizeIncrement
  minNotional := minNotional
  multiplier := multiplier
  makerFee := makerFee
  takerFee := takerFee
  isInverse := isInverse

/-- A dated linear futures contract. -/
def futuresContract (id : InstrumentId) (underlying : Option InstrumentId)
    (quote settlement : Currency) (pricePrecision sizePrecision : ℕ) (priceIncrement : Price)
    (sizeIncrement : Quantity) (minNotional : Option Money) (multiplier : Quantity)
    (makerFee takerFee : Decimal) (expiryNs : UnixNanos) : Instrument where
  id := id
  assetClass := .future
  baseCurrency := quote
  quoteCurrency := quote
  settlementCurrency := settlement
  pricePrecision := pricePrecision
  sizePrecision := sizePrecision
  priceIncrement := priceIncrement
  sizeIncrement := sizeIncrement
  minNotional := minNotional
  multiplier := multiplier
  makerFee := makerFee
  takerFee := takerFee
  isInverse := false
  expiryNs := some expiryNs
  underlying := underlying

end Coinext
