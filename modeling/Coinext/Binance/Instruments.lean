import Coinext.Binance.Wire
import Mathlib.Data.List.ReduceOption

/-!
# Instruments from exchange info

The symbols of an exchange-info body become spot instruments. Precisions are the scales of the
venue's filters: the tick size gives the price precision, which is also the precision of the quote
currency, and the step size the size precision. Both scales are taken after dropping trailing zeros,
so they differ from symbol to symbol, and from the fixed precision of the rest of the adapter.
-/

namespace Coinext.Binance

/-- The maker fee without account data. -/
def defaultMakerFee : Decimal := 1 / 1000

/-- The taker fee without account data. -/
def defaultTakerFee : Decimal := 1 / 1000

/-- The decimal places of a decimal without its trailing zeros; the library holds 28 at most. -/
def normalizedScale (d : Decimal) : ℕ :=
  ((List.range 29).find? fun p ↦ (d * 10 ^ p).den == 1).getD 28

/-- A field of the first filter of the given type. -/
def filterField (filters : List Json) (filterType field : String) : Option String :=
  (filters.find? fun f ↦ f.getStr "filterType" == some filterType).bind (Json.getStr field)

section Parse

variable [DecimalText]

def decimalScale (s : String) : Except WireError ℕ := do
  let d ← parseDecimal ("bad decimal " ++ ·) s
  .ok (min (normalizedScale d) 255)

variable [DecimalWidth]

/-- The smallest notional of a symbol; zero means that there is none. -/
def parseMinNotional (symbol : String) (quote : Currency) :
    Option String → Except WireError (Option Money)
  | none => .ok none
  | some mn => do
    let d ← parseDecimal (("symbol " ++ symbol ++ ": bad minNotional ") ++ ·) mn
    if d = 0 then .ok none
    else do
      let m ← orModelError (Money.fromDecimal d quote)
        ("symbol " ++ symbol ++ ": minNotional -> Money")
      .ok (some m)

/-- The instrument of a trading symbol. -/
def parsePair (symbol baseAsset quoteAsset : String) (sym : Json) :
    Except WireError Instrument := do
  let message (text : String) := "symbol " ++ symbol ++ ": " ++ text
  let filters ← orError (sym.getArray "filters") (message "missing filters")
  let tickSize ← orError (filterField filters "PRICE_FILTER" "tickSize")
    (message "missing PRICE_FILTER.tickSize")
  let stepSize ← orError (filterField filters "LOT_SIZE" "stepSize")
    (message "missing LOT_SIZE.stepSize")
  -- the legacy filter is only looked at when the current one is missing
  let minNotionalStr := (filterField filters "NOTIONAL" "minNotional").or
    (filterField filters "MIN_NOTIONAL" "minNotional")
  let pricePrecision ← decimalScale tickSize
  let sizePrecision ← decimalScale stepSize
  let tickDec ← parseDecimal (message "bad tickSize " ++ ·) tickSize
  let stepDec ← parseDecimal (message "bad stepSize " ++ ·) stepSize
  let priceIncrement ← orModelError (Price.fromDecimal tickDec pricePrecision)
    (message "tickSize -> Price")
  let sizeIncrement ← orModelError (Quantity.fromDecimal stepDec sizePrecision)
    (message "stepSize -> Quantity")
  let quoteCcy ← orModelError (Currency.new quoteAsset pricePrecision) (message "quote currency")
  let baseCcy ← orModelError (Currency.new baseAsset sizePrecision) (message "base currency")
  let minNotional ← parseMinNotional symbol quoteCcy minNotionalStr
  .ok (currencyPair (instrumentId symbol) baseCcy quoteCcy pricePrecision sizePrecision
    priceIncrement sizeIncrement minNotional defaultMakerFee defaultTakerFee)

/-- The instrument of an entry of the symbol list; `none` for an entry that is skipped. -/
def parseSymbol (sym : Json) : Except WireError (Option Instrument) :=
  if (sym.getStr "status").getD "" ≠ "TRADING" then .ok none
  else match sym.getStr "symbol" with
    | none => .ok none
    | some symbol =>
      let baseAsset := (sym.getStr "baseAsset").getD ""
      let quoteAsset := (sym.getStr "quoteAsset").getD ""
      if baseAsset = "" ∨ quoteAsset = "" then .ok none
      else do
        let pair ← parsePair symbol baseAsset quoteAsset sym
        .ok (some pair)

/-- The spot instruments of an exchange-info body. -/
def parseExchangeInfo (root : Json) : Except WireError (List Instrument) := do
  let symbols ← orError (root.getArray "symbols") "missing `symbols` array"
  let parsed ← symbols.mapM parseSymbol
  .ok parsed.reduceOption

/-! ## What is parsed -/

/-- How the precisions of a parsed instrument hang together. -/
structure Parsed (inst : Instrument) : Prop where
  sizeIncrement : inst.sizeIncrement.precision = inst.sizePrecision
  settlement : inst.settlementCurrency.precision = inst.pricePrecision
  le_max : inst.sizePrecision ≤ maxPrecision

theorem parsed_of_parsePair {symbol baseAsset quoteAsset : String} {sym : Json} {inst : Instrument}
    (h : parsePair symbol baseAsset quoteAsset sym = .ok inst) : Parsed inst := by
  simp only [parsePair, Except.bind_eq_ok_iff] at h
  obtain ⟨_, -, _, -, _, -, pricePrecision, -, sizePrecision, -, _, -, _, -, _, -, sizeIncrement,
    hsize, quote, hquote, _, -, _, -, h⟩ := h
  cases h
  obtain ⟨-, hle, -, -, rfl⟩ :=
    Quantity.fromDecimal_eq_ok_iff.mp (orModelError_eq_ok_iff.mp hsize)
  obtain ⟨-, -, hprecision⟩ := Currency.new_eq_ok_iff.mp (orModelError_eq_ok_iff.mp hquote)
  exact ⟨rfl, hprecision, hle⟩

theorem parsed_of_parseSymbol {sym : Json} {inst : Instrument}
    (h : parseSymbol sym = .ok (some inst)) : Parsed inst := by
  unfold parseSymbol at h
  split_ifs at h
  · cases h
  split at h
  · cases h
  · simp only at h
    split_ifs at h
    · cases h
    · obtain ⟨pair, hpair, h⟩ := Except.bind_eq_ok_iff.mp h
      cases h
      exact parsed_of_parsePair hpair

theorem parsed_of_parseExchangeInfo {root : Json} {insts : List Instrument} {inst : Instrument}
    (h : parseExchangeInfo root = .ok insts) (hmem : inst ∈ insts) : Parsed inst := by
  obtain ⟨symbols, -, h⟩ := Except.bind_eq_ok_iff.mp h
  obtain ⟨parsed, hparsed, h⟩ := Except.bind_eq_ok_iff.mp h
  cases h
  obtain ⟨sym, -, hsym⟩ :=
    Except.exists_of_mem_mapM hparsed (List.reduceOption_mem_iff.mp hmem)
  exact parsed_of_parseSymbol hsym

end Parse

end Coinext.Binance
