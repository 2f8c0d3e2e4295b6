import Coinext.Binance.Wire
import Coinext.Engine.Ports

/-!
# Execution reports of the user stream

`mapExecutionReport` turns an event of the user-data stream into a normalized execution report. A
trade becomes a fill whose price, quantity and fee are at the fixed wire precision, the fee currency
included.

What a trade event says is a `TradeEvent`, and `TradeEvent.fill` is the fill that belongs to it. For
an event that says `t`, mapping it gives `t.fill` exactly when the numbers of `t` can be held
(`Reads.mapExecutionReport_eq_ok_iff`); the rest of the development does not look at JSON again.
-/

namespace Coinext.Binance

section Map

variable [DecimalText]

def fieldStr (v : Json) (key : String) : Except WireError String :=
  orError (v.getStr key) ("missing field `" ++ key ++ "`")

def parseDec (s : String) : Except WireError Decimal := parseDecimal ("bad decimal " ++ ·) s

/-- The side of a trade. -/
def readSide : Option String → Except WireError OrderSide
  | some "BUY" => .ok .buy
  | some "SELL" => .ok .sell
  | other => .error (.badSide other)

variable [DecimalWidth]

/-- Build a fill from the last-trade fields of an event. -/
def buildFill (v : Json) (clientId : ClientOrderId) : Except WireError Fill := do
  let symbol ← orError (v.getStr "s") "missing symbol `s`"
  let orderId ← orError (v.getU64 "i") "missing order id `i`"
  let tradeId ← orError (v.getU64 "t") "missing trade id `t`"
  let side ← readSide (v.getStr "S")
  let pxText ← fieldStr v "L"
  let px ← parseDec pxText
  let lastPx ← orModelError (Price.fromDecimal px wirePrecision) ""
  let qtyText ← fieldStr v "l"
  let qty ← parseDec qtyText
  let lastQty ← orModelError (Quantity.fromDecimal qty wirePrecision) ""
  -- an event without a commission has a fee of zero
  let feeAmount ← parseDec ((v.getStr "n").getD "0")
  let feeCcyCode := (v.getStr "N").getD "USDT"
  let feeCcy ← orModelError (Currency.new feeCcyCode wirePrecision) ("fee currency " ++ feeCcyCode)
  let fee ← orModelError (Money.fromDecimal feeAmount feeCcy) ""
  let liquidity := if (v.getBool "m").getD false then LiquiditySide.maker else .taker
  let tsEvent := msToNanos ((v.getU64 "T").getD 0)
  .ok
    { tradeId := ⟨toString tradeId⟩
      clientOrderId := clientId
      venueOrderId := ⟨toString orderId⟩
      instrumentId := instrumentId symbol
      side := side
      lastPx := lastPx
      lastQty := lastQty
      fee := fee
      liquidity := liquidity
      tsEvent := tsEvent
      tsInit := tsEvent }

/-- Map an event of the user-data stream into an execution report. -/
def mapExecutionReport (v : Json) : Except WireError ExecutionReport := do
  let eventType := (v.getStr "e").getD ""
  if eventType ≠ "executionReport" then
    .error (.text ("not an executionReport event: `" ++ eventType ++ "`"))
  else do
    let execType ← orError (v.getStr "x") "missing execution type `x`"
    let client ← orError (v.getStr "c") "missing client order id `c`"
    let clientId : ClientOrderId := ⟨client⟩
    match execType with
    | "NEW" => do
      let orderId ← orError (v.getU64 "i") "NEW missing order id `i`"
      .ok (.accepted clientId ⟨toString orderId⟩)
    | "TRADE" => do
      let fill ← buildFill v clientId
      .ok (.fill fill)
    | "CANCELED" => .ok (.canceled clientId)
    | "REJECTED" => .ok (.rejected clientId (.text ((v.getStr "r").getD "NONE")))
    | "EXPIRED" => .ok (.expired clientId)
    | other => .error (.text ("unhandled execution type `" ++ other ++ "`"))

end Map

/-! ## What a trade event says -/

/-- The content of a trade event. -/
structure TradeEvent where
  clientOrderId : String
  symbol : String
  orderId : ℕ
  tradeId : ℕ
  side : OrderSide
  price : Decimal
  qty : Decimal
  commission : Decimal
  /-- The asset the commission is charged in. -/
  asset : String
  isMaker : Bool
  /-- Milliseconds. -/
  time : ℕ

namespace TradeEvent

/-- The fee currency of the event, at the wire precision. -/
def feeCurrency (t : TradeEvent) : Currency := ⟨t.asset, wirePrecision, by decide⟩

/-- The fill of a trade: every number at the wire precision. -/
def fill (t : TradeEvent) : Fill where
  tradeId := ⟨toString t.tradeId⟩
  clientOrderId := ⟨t.clientOrderId⟩
  venueOrderId := ⟨toString t.orderId⟩
  instrumentId := instrumentId t.symbol
  side := t.side
  lastPx := ⟨mantissa t.price wirePrecision, wirePrecision⟩
  lastQty := ⟨(mantissa t.qty wirePrecision).toNat, wirePrecision⟩
  fee := ⟨mantissa t.commission wirePrecision, t.feeCurrency⟩
  liquidity := if t.isMaker then .maker else .taker
  tsEvent := msToNanos t.time
  tsInit := msToNanos t.time

/-- Price, quantity and commission can be held at the wire precision, and the asset has a code. -/
structure Encodable [DecimalWidth] (t : TradeEvent) : Prop where
  price : DecimalWidth.fits (mantissa t.price wirePrecision) = true ∧
    0 ≤ mantissa t.price wirePrecision ∧ mantissa t.price wirePrecision ≤ i64Max
  qty : 0 ≤ t.qty ∧ DecimalWidth.fits (mantissa t.qty wirePrecision) = true ∧
    mantissa t.qty wirePrecision ≤ i64Max
  asset : 0 < t.asset.utf8ByteSize ∧ t.asset.utf8ByteSize ≤ 8
  commission : DecimalWidth.fits (mantissa t.commission wirePrecision) = true

/-- How the wire writes a side. -/
def sideText : OrderSide → String
  | .buy => "BUY"
  | .sell => "SELL"

/-- The JSON value is a trade event with this content. -/
structure Reads [DecimalText] (t : TradeEvent) (v : Json) : Prop where
  event : v.getStr "e" = some "executionReport"
  execType : v.getStr "x" = some "TRADE"
  clientOrderId : v.getStr "c" = some t.clientOrderId
  symbol : v.getStr "s" = some t.symbol
  orderId : v.getU64 "i" = some t.orderId
  tradeId : v.getU64 "t" = some t.tradeId
  side : v.getStr "S" = some (sideText t.side)
  price : ∃ text, v.getStr "L" = some text ∧ DecimalText.fromStr text = .ok t.price
  qty : ∃ text, v.getStr "l" = some text ∧ DecimalText.fromStr text = .ok t.qty
  commission : DecimalText.fromStr ((v.getStr "n").getD "0") = .ok t.commission
  asset : (v.getStr "N").getD "USDT" = t.asset
  isMaker : (v.getBool "m").getD false = t.isMaker
  time : (v.getU64 "T").getD 0 = t.time

/-! ## Mapping it -/

section Reading

variable [DecimalText] [DecimalWidth] {t : TradeEvent} {v : Json}

omit [DecimalText] [DecimalWidth] in
theorem readSide_eq_ok_iff {text : Option String} {side : OrderSide} :
    readSide text = .ok side ↔ text = some (sideText side) := by
  constructor
  · intro h
    unfold readSide at h
    split at h
    · cases h
      rfl
    · cases h
      rfl
    · cases h
  · rintro rfl
    cases side <;> rfl

omit [DecimalText] [DecimalWidth] in
theorem readSide_sideText (side : OrderSide) : readSide (some (sideText side)) = .ok side :=
  readSide_eq_ok_iff.mpr rfl

omit [DecimalText] [DecimalWidth] in
theorem eq_feeCurrency {c : Currency} (hcode : c.code = t.asset)
    (hprecision : c.precision = wirePrecision) : c = t.feeCurrency := by
  cases c
  cases hcode
  cases hprecision
  rfl

theorem Reads.buildFill_eq_ok_iff (h : t.Reads v) {f : Fill} :
    buildFill v ⟨t.clientOrderId⟩ = .ok f ↔ t.Encodable ∧ f = t.fill := by
  obtain ⟨pxText, hpxText, hpx⟩ := h.price
  obtain ⟨qtyText, hqtyText, hqty⟩ := h.qty
  have hwire : wirePrecision ≤ maxPrecision := by decide
  simp only [buildFill, fieldStr, h.symbol, h.orderId, h.tradeId, h.side, readSide_sideText,
    hpxText, hqtyText, h.asset, h.isMaker, h.time, Except.bind_eq_ok_iff, orError_eq_ok_iff,
    orModelError_eq_ok_iff, parseDec, parseDecimal_eq_ok_iff, Option.some.injEq,
    Except.ok.injEq, exists_eq_left', hpx, hqty, h.commission]
  constructor
  · rintro ⟨px, hpx, qty, hqty, c, hc, fee, hfee, rfl⟩
    obtain ⟨-, hfits, h0, hmax, rfl⟩ := Price.fromDecimal_eq_ok_iff.mp hpx
    obtain ⟨hqty0, -, hqtyFits, hqtyMax, rfl⟩ := Quantity.fromDecimal_eq_ok_iff.mp hqty
    obtain ⟨hasset, hcode, hprecision⟩ := Currency.new_eq_ok_iff.mp hc
    obtain rfl := eq_feeCurrency hcode hprecision
    obtain ⟨hfeeFits, rfl⟩ := Money.fromDecimal_eq_ok_iff.mp hfee
    exact ⟨⟨⟨hfits, h0, hmax⟩, ⟨hqty0, hqtyFits, hqtyMax⟩, hasset, hfeeFits⟩, rfl⟩
  · rintro ⟨⟨⟨hfits, h0, hmax⟩, ⟨hqty0, hqtyFits, hqtyMax⟩, hasset, hfeeFits⟩, rfl⟩
    refine ⟨_, Price.fromDecimal_eq_ok_iff.mpr ⟨hwire, hfits, h0, hmax, rfl⟩, _,
      Quantity.fromDecimal_eq_ok_iff.mpr ⟨hqty0, hwire, hqtyFits, hqtyMax, rfl⟩, t.feeCurrency,
      Currency.new_eq_ok_iff.mpr ⟨hasset, rfl, rfl⟩, _,
      Money.fromDecimal_eq_ok_iff.mpr ⟨hfeeFits, rfl⟩, rfl⟩

/-- **What a trade event is mapped to.** -/
theorem Reads.mapExecutionReport_eq_ok_iff (h : t.Reads v) {r : ExecutionReport} :
    mapExecutionReport v = .ok r ↔ t.Encodable ∧ r = .fill t.fill := by
  have hmap : mapExecutionReport v
      = (buildFill v ⟨t.clientOrderId⟩ >>= fun f ↦ .ok (.fill f)) := by
    simp only [mapExecutionReport, h.event, h.execType, h.clientOrderId, orError,
      Option.getD_some, ne_eq, not_true_eq_false, if_false]
    rfl
  rw [hmap, Except.bind_eq_ok_iff]
  constructor
  · rintro ⟨f, hf, hr⟩
    cases hr
    obtain ⟨hok, rfl⟩ := h.buildFill_eq_ok_iff.mp hf
    exact ⟨hok, rfl⟩
  · rintro ⟨hok, rfl⟩
    exact ⟨_, h.buildFill_eq_ok_iff.mpr ⟨hok, rfl⟩, rfl⟩

theorem exists_reads_of_fill {f : Fill} (h : mapExecutionReport v = .ok (.fill f)) :
    ∃ t : TradeEvent, t.Reads v ∧ t.Encodable ∧ f = t.fill := by
  obtain ⟨hevent, c, hx, hc, hfill⟩ : v.getStr "e" = some "executionReport" ∧
      ∃ c, v.getStr "x" = some "TRADE" ∧ v.getStr "c" = some c ∧ buildFill v ⟨c⟩ = .ok f := by
    simp only [mapExecutionReport] at h
    split_ifs at h with hevent
    simp only [Except.bind_eq_ok_iff, orError_eq_ok_iff] at h
    obtain ⟨x, hx, c, hc, hreport⟩ := h
    have hevent' : v.getStr "e" = some "executionReport" := by
      cases he : v.getStr "e" with
      | none => simp [he] at hevent
      | some e => simpa [he] using hevent
    -- of the five kinds of event, a trade alone becomes a fill
    split at hreport
    · obtain ⟨i, -, hi⟩ := Except.bind_eq_ok_iff.mp hreport
      cases hi
    · obtain ⟨g, hg, hi⟩ := Except.bind_eq_ok_iff.mp hreport
      cases hi
      exact ⟨hevent', c, hx, hc, hg⟩
    all_goals cases hreport
  have hbuilt := hfill
  simp only [buildFill, fieldStr, Except.bind_eq_ok_iff, orError_eq_ok_iff, parseDec,
    parseDecimal_eq_ok_iff, readSide_eq_ok_iff] at hbuilt
  obtain ⟨symbol, hsymbol, orderId, horderId, tradeId, htradeId, side, hside, pxText, hpxText,
    px, hpx, -, -, qtyText, hqtyText, qty, hqty, -, -, commission, hcommission, -⟩ := hbuilt
  have hreads : TradeEvent.Reads ⟨c, symbol, orderId, tradeId, side, px, qty, commission,
      (v.getStr "N").getD "USDT", (v.getBool "m").getD false, (v.getU64 "T").getD 0⟩ v :=
    ⟨hevent, hx, hc, hsymbol, horderId, htradeId, hside, ⟨pxText, hpxText, hpx⟩,
      ⟨qtyText, hqtyText, hqty⟩, hcommission, rfl, rfl, rfl⟩
  exact ⟨_, hreads, hreads.buildFill_eq_ok_iff.mp hfill⟩

end Reading

end TradeEvent

end Coinext.Binance
