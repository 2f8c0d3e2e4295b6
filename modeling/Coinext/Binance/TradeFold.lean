import Coinext.Binance.Exec
import Coinext.Binance.Instruments
import Coinext.Engine.Holdings

/-!
# From a trade on the wire to the order and the position

A trade event of the user stream is mapped to a fill, and the fill is folded into the order and the
position it is for. The two halves agree on neither precision: the adapter writes quantities and fee
currencies with eight places, while an order and a position of a parsed instrument have the scales
of the instrument's filters. `trade_folded_iff` says exactly which trades are folded as they were
traded.
-/

namespace Coinext

theorem Order.of_leavesQty_pos {o : Order} (h : 0 < o.leavesQty.asDecimal) :
    o.filledQty.precision = o.quantity.precision ∧ o.quantity.precision ≤ maxPrecision ∧
      o.leavesQty = ⟨o.quantity.raw - o.filledQty.raw, o.quantity.precision⟩ := by
  unfold Order.leavesQty at h ⊢
  cases hsub : o.quantity.checkedSub o.filledQty with
  | error e =>
    rw [hsub] at h
    simp at h
  | ok q =>
    have hq := Quantity.of_checkedSub hsub
    obtain ⟨_, hsame, hraw⟩ := Except.bind_eq_ok_iff.mp hsub
    split_ifs at hraw
    exact ⟨(Quantity.samePrecision_eq_ok_iff.mp hsame).symm,
      (Quantity.fromRaw_eq_ok_iff.mp hraw).1, hq⟩

namespace Binance

open ExecutionEngine

/-- The engine tracks `o` under `id`, ready to take fills, with its quantity at the size precision
of its instrument. -/
structure Tracks (s : Oms) (id : ClientOrderId) (o : Order) (inst : Instrument) : Prop where
  order : s.cache.order id = some o
  status : o.status = .accepted ∨ o.status = .partiallyFilled
  instrument : s.cache.instrument o.instrumentId = some inst
  precision : o.quantity.precision = inst.sizePrecision
  /-- The source keeps it in an `i64`. -/
  quantity_le : (o.quantity.raw : ℤ) ≤ i64Max

/-- A trade for this order, of a positive multiple of the step size that the order has left. -/
structure TradeEvent.IsFor (t : TradeEvent) (id : ClientOrderId) (o : Order) (inst : Instrument) :
    Prop where
  client : ⟨t.clientOrderId⟩ = id
  instrument : instrumentId t.symbol = o.instrumentId
  side : t.side = o.side
  pos : 0 < t.qty
  le_leaves : t.qty ≤ o.leavesQty.asDecimal
  multiple : ∃ k : ℕ, t.qty = k * inst.sizeIncrement.asDecimal

section Fold

variable [DecimalWidth]

/-- The profit of the trade before its commission. -/
def profit (s : Oms) (o : Order) (inst : Instrument) (t : TradeEvent) : Decimal :=
  (s.positionOrFlat o.instrumentId inst).tradePnl t.fill inst

/-- The engine `s'` has folded the trade as it was traded: filled quantity and signed position have
grown by the traded quantity, and a commission in the settlement currency has lowered the realized
profit. The profit is booked at the precision of the settlement currency. -/
structure Folded (s : Oms) (id : ClientOrderId) (o : Order) (inst : Instrument) (t : TradeEvent)
    (s' : Oms) : Prop where
  filledQty : ∃ o', s'.cache.order id = some o' ∧
    o'.filledQty.asDecimal = o.filledQty.asDecimal + t.qty
  signed : s'.signed o.instrumentId = s.signed o.instrumentId + o.side.sign * t.qty
  realizedPnl : t.asset = inst.settlementCurrency.code →
    s'.realizedPnl o.instrumentId = s.realizedPnl o.instrumentId +
      mantissa (profit s o inst t - t.commission) inst.settlementCurrency.precision *
        ulp inst.settlementCurrency.precision

/-- Keeping the commission at the wire precision, and deducting it only from a settlement currency
of that precision, makes no difference to the booked profit. -/
def CommissionKept (s : Oms) (o : Order) (inst : Instrument) (t : TradeEvent) : Prop :=
  (inst.pricePrecision = wirePrecision ∧
      mantissa (profit s o inst t - t.fill.fee.amount) wirePrecision =
        mantissa (profit s o inst t - t.commission) wirePrecision) ∨
    (inst.pricePrecision ≠ wirePrecision ∧ mantissa (profit s o inst t) inst.pricePrecision =
      mantissa (profit s o inst t - t.commission) inst.pricePrecision)

instance (s : Oms) (o : Order) (inst : Instrument) (t : TradeEvent) :
    Decidable (CommissionKept s o inst t) := inferInstanceAs (Decidable (_ ∨ _))

/-- When a trade is folded as it was traded: its numbers can be held and so can the results, it has
not been seen before, and the instrument has the precision of the wire. -/
structure Foldable (s : Oms) (o : Order) (inst : Instrument) (t : TradeEvent) : Prop where
  encodable : t.Encodable
  unseen : t.fill.tradeId ∉ s.ledger.seenTradeIds
  sizePrecision : inst.sizePrecision = wirePrecision
  average : ∃ avg, Price.fromDecimal (o.fillAverage t.fill
    ⟨o.filledQty.raw + t.fill.lastQty.raw, wirePrecision⟩) wirePrecision = .ok avg
  books : Position.Books inst (s.positionOrFlat o.instrumentId inst) t.fill
  commission : t.asset = inst.settlementCurrency.code → CommissionKept s o inst t

variable {s : Oms} {id : ClientOrderId} {o o' : Order} {inst : Instrument} {t : TradeEvent}

/-! ## The traded quantity -/

omit [DecimalWidth] in
theorem TradeEvent.IsFor.onGrid (h : t.IsFor id o inst) (hinst : Parsed inst) :
    OnGrid t.qty inst.sizePrecision := by
  obtain ⟨k, hk⟩ := h.multiple
  refine onGrid_iff.mpr ⟨k * inst.sizeIncrement.raw, ?_⟩
  rw [hk, Quantity.asDecimal, hinst.sizeIncrement]
  push_cast
  ring

omit [DecimalWidth] in
theorem TradeEvent.lastQty_fill (hpos : 0 < t.qty) (hgrid : OnGrid t.qty wirePrecision) :
    t.fill.lastQty.asDecimal = t.qty := by
  have hcast : (((mantissa t.qty wirePrecision).toNat : ℤ) : ℚ) = mantissa t.qty wirePrecision := by
    rw [Int.toNat_of_nonneg (mantissa_nonneg hpos.le _)]
  calc t.fill.lastQty.asDecimal
      = (((mantissa t.qty wirePrecision).toNat : ℤ) : ℚ) * ulp wirePrecision := rfl
    _ = t.qty := by rw [hcast]; exact hgrid

/-! ## The order -/

/-- An order takes the fill of a trade exactly when its instrument has the precision of the wire and
the average price can be held. -/
theorem Tracks.accepts_iff (h : Tracks s id o inst) (ht : t.IsFor id o inst) (hinst : Parsed inst) :
    (∃ o', o.Accepts (fillEvent o t.fill) o') ↔ inst.sizePrecision = wirePrecision ∧
      ∃ avg, Price.fromDecimal (o.fillAverage t.fill
        ⟨o.filledQty.raw + t.fill.lastQty.raw, wirePrecision⟩) wirePrecision = .ok avg := by
  obtain ⟨hprecision, hle, hleaves⟩ := Order.of_leavesQty_pos (ht.pos.trans_le ht.le_leaves)
  have hfilled : o.filledQty.precision = inst.sizePrecision := hprecision.trans h.precision
  constructor
  · rintro ⟨o', p, -, heff, -⟩
    rw [effect_fillEvent] at heff
    obtain ⟨newFilled, avg, hadd, havg, -⟩ := Order.fillEffect_eq_ok_iff.mp heff
    obtain ⟨hsame, -, -, rfl⟩ := Quantity.checkedAdd_eq_ok_iff.mp hadd
    have hwire : o.filledQty.precision = wirePrecision := hsame
    rw [hwire] at havg
    exact ⟨hfilled.symm.trans hwire, avg, havg⟩
  · rintro ⟨hwire, avg, havg⟩
    have hgrid : OnGrid t.qty wirePrecision := hwire ▸ ht.onGrid hinst
    have hraw : t.fill.lastQty.raw ≤ o.leavesQty.raw := by
      refine (Quantity.asDecimal_le_iff ?_).mp ((TradeEvent.lastQty_fill ht.pos hgrid).trans_le
        ht.le_leaves)
      rw [hleaves, h.precision, hwire]
      rfl
    have hpos : 0 < t.fill.lastQty.raw := by
      rw [← Quantity.asDecimal_pos, TradeEvent.lastQty_fill ht.pos hgrid]
      exact ht.pos
    have hmax : (o.filledQty.raw : ℤ) + t.fill.lastQty.raw ≤ i64Max := by
      have hquantity := h.quantity_le
      rw [hleaves] at hraw
      simp only at hraw
      omega
    have hadd : o.filledQty.checkedAdd t.fill.lastQty
        = .ok ⟨o.filledQty.raw + t.fill.lastQty.raw, wirePrecision⟩ :=
      Quantity.checkedAdd_eq_ok_iff.mpr ⟨hfilled.trans hwire, hmax, by rw [hprecision]; exact hle,
        by rw [hfilled, hwire]⟩
    have hmem : o.status ∈ (fillEvent o t.fill).allowedFrom := by
      rw [allowedFrom_fillEvent]
      rcases h.status with hst | hst <;> simp [hst]
    have heff := Order.fillEffect_eq_ok_iff.mpr ⟨_, avg, hadd, havg, rfl⟩
    rw [← effect_fillEvent] at heff
    exact ⟨_, _, hmem, heff, rfl⟩

theorem filledQty_of_accepts (hacc : o.Accepts (fillEvent o t.fill) o') (hpos : 0 < t.qty)
    (hgrid : OnGrid t.qty wirePrecision) :
    o'.filledQty.asDecimal = o.filledQty.asDecimal + t.qty := by
  obtain ⟨p, -, heff, rfl⟩ := hacc
  rw [effect_fillEvent] at heff
  obtain ⟨newFilled, avg, hadd, -, rfl⟩ := Order.fillEffect_eq_ok_iff.mp heff
  obtain ⟨hsame, -, -, rfl⟩ := Quantity.checkedAdd_eq_ok_iff.mp hadd
  rw [← TradeEvent.lastQty_fill hpos hgrid]
  simp only [Order.record, Order.withFill, Quantity.asDecimal, ← hsame]
  push_cast
  ring

/-! ## The position -/

omit [DecimalWidth] in
/-- What the position books differs from what the trade says by what the adapter makes of the
commission. -/
theorem booked_iff (hinst : Parsed inst) (hcode : t.asset = inst.settlementCurrency.code) :
    mantissa ((s.positionOrFlat o.instrumentId inst).realized t.fill inst)
        inst.settlementCurrency.precision =
      mantissa (profit s o inst t - t.commission) inst.settlementCurrency.precision ↔
      CommissionKept s o inst t := by
  have hcurrency : t.fill.fee.currency = inst.settlementCurrency ↔
      inst.pricePrecision = wirePrecision := by
    rw [← hinst.settlement]
    refine ⟨fun h ↦ congrArg Currency.precision h.symm, fun h ↦ ?_⟩
    exact (TradeEvent.eq_feeCurrency hcode.symm h).symm
  rw [hinst.settlement, Position.realized, CommissionKept]
  by_cases hwire : inst.pricePrecision = wirePrecision
  · rw [if_pos (hcurrency.mpr hwire), hwire]
    simp [profit]
  · rw [if_neg (mt hcurrency.mp hwire)]
    simp [hwire, profit]

theorem position_folded (h : Tracks s id o inst) (ht : t.IsFor id o inst) (hs : s.Keyed) :
    (folded s t.fill o').cache.position o.instrumentId =
      some ((s.positionOrFlat o.instrumentId inst).applied inst t.fill) := by
  have hiid : t.fill.instrumentId = o.instrumentId := ht.instrument
  have hkeyed : ((markSeen t.fill s).setOrder t.fill.clientOrderId o').Keyed := hs.congr rfl rfl
  have hlookup : ((markSeen t.fill s).setOrder t.fill.clientOrderId o').cache.instrument
      t.fill.instrumentId = some inst := by
    rw [hiid]
    exact h.instrument
  rw [folded, position_foldPosition hkeyed hlookup, if_pos hiid.symm, hiid]
  rfl

/-- The signed size moves by the traded quantity exactly when the conversions succeed. -/
theorem signed_folded_iff (h : Tracks s id o inst) (ht : t.IsFor id o inst) (hinst : Parsed inst)
    (hs : s.Sound) (hwire : inst.sizePrecision = wirePrecision) (hok : t.Encodable)
    (o' : Order) :
    (folded s t.fill o').signed o.instrumentId = s.signed o.instrumentId + o.side.sign * t.qty ↔
      Position.Books inst (s.positionOrFlat o.instrumentId inst) t.fill := by
  obtain ⟨-, hwf, hsigned⟩ := hs.keyed.positionOrFlat h.instrument
  have hqty : t.fill.lastQty.asDecimal = t.qty :=
    TradeEvent.lastQty_fill ht.pos (hwire ▸ ht.onGrid hinst)
  have hsignedQty : t.fill.signedQty = o.side.sign * t.qty := by
    rw [Fill.signedQty, hqty, ← ht.side]
    rfl
  have hne : t.fill.signedQty ≠ 0 := by
    rw [hsignedQty]
    refine mul_ne_zero ?_ ht.pos.ne'
    cases o.side <;> simp [OrderSide.sign]
  have hgrid : OnGrid t.fill.signedQty inst.sizePrecision :=
    Fill.onGrid_signedQty (by rw [hqty]; exact ht.onGrid hinst)
  rw [← hwf.signed_applied_iff (hs.made_positionOrFlat _ inst) hgrid hne hinst.le_max
    hok.commission, Oms.signed, position_folded h ht hs.keyed, hsigned, hsignedQty]

theorem realizedPnl_folded (h : Tracks s id o inst) (ht : t.IsFor id o inst) (hs : s.Keyed)
    (hbooks : Position.Books inst (s.positionOrFlat o.instrumentId inst) t.fill) (o' : Order) :
    (folded s t.fill o').realizedPnl o.instrumentId = s.realizedPnl o.instrumentId +
      mantissa ((s.positionOrFlat o.instrumentId inst).realized t.fill inst)
        inst.settlementCurrency.precision * ulp inst.settlementCurrency.precision := by
  obtain ⟨-, hwf, -⟩ := hs.positionOrFlat h.instrument
  rw [Oms.realizedPnl, position_folded h ht hs, ← s.realizedPnl_positionOrFlat _ inst]
  exact hwf.realizedPnl_applied hbooks

theorem order_folded (h : Tracks s id o inst) (ht : t.IsFor id o inst) :
    (folded s t.fill o').cache.order id = some o' := by
  have hid : t.fill.clientOrderId = id := ht.client
  have hlookup : ((markSeen t.fill s).setOrder t.fill.clientOrderId o').cache.instrument
      t.fill.instrumentId = some inst := by
    rw [show t.fill.instrumentId = o.instrumentId from ht.instrument]
    exact h.instrument
  rw [folded, foldPosition_of_instrument hlookup, Cache.order, hid]
  exact AList.lookup_insert _

/-! ## The whole way -/

omit [DecimalWidth] in
theorem not_folded_of_order {s' : Oms} (h : s'.cache.order id = some o) (hpos : 0 < t.qty) :
    ¬ Folded s id o inst t s' := by
  rintro ⟨⟨o', ho', hfilled⟩, -, -⟩
  obtain rfl : o = o' := Option.some.inj (h.symm.trans ho')
  exact hpos.ne' (left_eq_add.mp hfilled)

theorem folded_iff (h : Tracks s id o inst) (ht : t.IsFor id o inst) (hinst : Parsed inst)
    (hs : s.Sound) (hok : t.Encodable) (now : UnixNanos) :
    Folded s id o inst t (applyReport (.fill t.fill) now s).2 ↔ Foldable s o inst t := by
  have horder : s.cache.order t.fill.clientOrderId = some o := by
    rw [show t.fill.clientOrderId = id from ht.client]
    exact h.order
  have htaken := h.accepts_iff ht hinst
  change Folded s id o inst t (applyFillReport t.fill s).2 ↔ _
  rcases applyFillReport_cases t.fill s with ⟨hseen, heq⟩ | ⟨hunseen, ⟨hnone, -⟩ |
    ⟨p, hp, hrej, heq⟩ | ⟨p, o', hp, hacc, heq⟩⟩
  · rw [heq]
    exact ⟨fun hf ↦ absurd hf (not_folded_of_order h.order ht.pos), fun hf ↦ absurd hseen hf.unseen⟩
  · rw [horder] at hnone
    cases hnone
  · obtain rfl : o = p := Option.some.inj (horder.symm.trans hp)
    rw [heq]
    refine ⟨fun hf ↦ absurd hf (not_folded_of_order ?_ ht.pos), fun hf ↦ ?_⟩
    · rw [← show t.fill.clientOrderId = id from ht.client]
      exact AList.lookup_insert _
    · obtain ⟨o', hacc⟩ := htaken.mpr ⟨hf.sizePrecision, hf.average⟩
      exact absurd hacc (hrej o')
  · obtain rfl : o = p := Option.some.inj (horder.symm.trans hp)
    obtain ⟨hwire, havg⟩ := htaken.mp ⟨o', hacc⟩
    have hsigned := signed_folded_iff h ht hinst hs hwire hok o'
    rw [heq]
    constructor
    · intro hf
      have hbooks := hsigned.mp hf.signed
      refine ⟨hok, hunseen, hwire, havg, hbooks, fun hcode ↦ (booked_iff hinst hcode).mp ?_⟩
      have hamount := (realizedPnl_folded h ht hs.keyed hbooks o').symm.trans (hf.realizedPnl hcode)
      have hulp := (ulp_pos inst.settlementCurrency.precision).ne'
      exact_mod_cast mul_right_cancel₀ hulp (add_left_cancel hamount)
    · intro hf
      refine ⟨⟨o', order_folded h ht, ?_⟩, hsigned.mpr hf.books, fun hcode ↦ ?_⟩
      · exact filledQty_of_accepts hacc ht.pos (hwire ▸ ht.onGrid hinst)
      · refine (realizedPnl_folded h ht hs.keyed hf.books o').trans ?_
        rw [(booked_iff hinst hcode).mpr (hf.commission hcode)]

/-- **Which trades are folded as they were traded.** Take any engine, whatever calls it has had, an
order in it that is ready to take fills, of an instrument read from an exchange-info body, and a
trade event for that order. Mapping the event and folding the report does to order and position what
the trade says if and only if the trade is `Foldable`. -/
theorem trade_folded_iff [DecimalText] (model : BrokerageModel) (s₀ : Oms) (hfresh : s₀.Fresh)
    (calls : List EngineCall) (root : Json) (insts : List Instrument)
    (hparse : parseExchangeInfo root = .ok insts) (hmem : inst ∈ insts)
    (htracks : Tracks (calls.foldl (EngineCall.step model) s₀) id o inst) (v : Json)
    (hreads : t.Reads v) (ht : t.IsFor id o inst) (now : UnixNanos) :
    let s := calls.foldl (EngineCall.step model) s₀
    (∃ r, mapExecutionReport v = .ok r ∧ Folded s id o inst t (applyReport r now s).2) ↔
      Foldable s o inst t := by
  intro s
  have hinst : Parsed inst := parsed_of_parseExchangeInfo hparse hmem
  have hs : s.Sound := hfresh.sound_run model calls
  constructor
  · rintro ⟨r, hr, hf⟩
    obtain ⟨hok, rfl⟩ := hreads.mapExecutionReport_eq_ok_iff.mp hr
    exact (folded_iff htracks ht hinst hs hok now).mp hf
  · intro hf
    exact ⟨_, hreads.mapExecutionReport_eq_ok_iff.mpr ⟨hf.encodable, rfl⟩,
      (folded_iff htracks ht hinst hs hf.encodable now).mpr hf⟩

end Fold

section Instances

open scoped RustDecimal PlainDecimal

/-- An exchange-info body with one trading symbol. -/
def infoBody (symbol base quote tickSize stepSize : String) : Json :=
  .obj [("symbols", .arr [.obj [("symbol", .str symbol), ("status", .str "TRADING"),
    ("baseAsset", .str base), ("quoteAsset", .str quote), ("filters", .arr [
      .obj [("filterType", .str "PRICE_FILTER"), ("tickSize", .str tickSize)],
      .obj [("filterType", .str "LOT_SIZE"), ("stepSize", .str stepSize)],
      .obj [("filterType", .str "NOTIONAL"), ("minNotional", .str "5.00000000")]])]])]

/-- A trade event of order `S-1`: a buy at `price` of `qty`. -/
def tradeBody (symbol price qty commission asset : String) : Json :=
  .obj [("e", .str "executionReport"), ("x", .str "TRADE"), ("c", .str "S-1"), ("s", .str symbol),
    ("i", .uint 7), ("t", .uint 99), ("S", .str "BUY"), ("L", .str price), ("l", .str qty),
    ("n", .str commission), ("N", .str asset), ("m", .bool false), ("T", .uint 1)]

/-- What the event of `tradeBody` says. -/
def tradeOf (symbol : String) (price qty commission : Decimal) (asset : String) : TradeEvent :=
  ⟨"S-1", symbol, 7, 99, .buy, price, qty, commission, asset, false, 1⟩

/-- Submit a limit buy of `quantity` and acknowledge it. -/
def spotCalls (inst : Instrument) (quantity : Quantity) : List EngineCall :=
  [.submit ⟨fun _ _ _ ↦ .approved⟩ ⟨fun _ ↦ none, Money.zero inst.quoteCurrency,
      Money.zero inst.quoteCurrency⟩ 0
    (Order.new ⟨"S"⟩ ⟨"S-1"⟩ inst.id .buy .limit quantity (some (Price.zero inst.pricePrecision))
      none .gtc {} 0) 0,
    .report (.accepted ⟨"S-1"⟩ ⟨"7"⟩) 1]

/-- An engine that knows one instrument. -/
def spotOms (inst : Instrument) : Oms := ⟨Cache.new.addInstrument inst, .new, .new⟩

/-- The engine once the order has been acknowledged. -/
def spotReady (inst : Instrument) (quantity : Quantity) : Oms :=
  (spotCalls inst quantity).foldl (EngineCall.step deskModel) (spotOms inst)

/-- The acknowledged order. -/
def spotOrder (inst : Instrument) (quantity : Quantity) : Order where
  strategyId := ⟨"S"⟩
  clientOrderId := ⟨"S-1"⟩
  venueOrderId := some ⟨"7"⟩
  instrumentId := inst.id
  side := .buy
  orderType := .limit
  quantity := quantity
  price := some (Price.zero inst.pricePrecision)
  trigger := none
  tif := .gtc
  flags := {}
  status := .accepted
  filledQty := Quantity.zero quantity.precision
  avgPx := none
  tsInit := 0
  tsLast := 1
  events := [.initialized ⟨"S-1"⟩ inst.id .buy .limit quantity
    (some (Price.zero inst.pricePrecision)) none .gtc {} 0, .submitted 0, .accepted ⟨"7"⟩ 1]

/-- A pair with eight places on both sides. -/
def fineInst : Instrument :=
  currencyPair (instrumentId "ABCBTC") ⟨"ABC", 8, eight_le_maxPrecision⟩
    ⟨"BTC", 8, eight_le_maxPrecision⟩ 8 8 ⟨1, 8⟩
    ⟨1, 8⟩ (some ⟨500000000, ⟨"BTC", 8, eight_le_maxPrecision⟩⟩) defaultMakerFee defaultTakerFee

theorem trade_folded_iff_fine :
    ∃ r, mapExecutionReport (tradeBody "ABCBTC" "0.00000200" "1.50000000" "0.00000010" "BTC")
        = .ok r ∧
      Folded (spotReady fineInst ⟨300000000, 8⟩) ⟨"S-1"⟩ (spotOrder fineInst ⟨300000000, 8⟩)
        fineInst (tradeOf "ABCBTC" (2 / 1000000) (15 / 10) (1 / 10000000) "BTC")
        (applyReport r 2 (spotReady fineInst ⟨300000000, 8⟩)).2 := by
  refine (trade_folded_iff deskModel (spotOms fineInst) ⟨rfl, rfl⟩
    (spotCalls fineInst ⟨300000000, 8⟩)
    (infoBody "ABCBTC" "ABC" "BTC" "0.00000001" "0.00000001") [fineInst] (by decide +kernel)
    List.mem_cons_self ?_ _ ?_ ?_ 2).mpr ?_
  · exact ⟨by decide, by decide, by decide +kernel, by decide, by decide⟩
  · exact ⟨rfl, rfl, rfl, rfl, rfl, rfl, rfl, ⟨_, rfl, by decide +kernel⟩,
      ⟨_, rfl, by decide +kernel⟩, by decide +kernel, rfl, rfl, rfl⟩
  · exact ⟨rfl, rfl, rfl, by decide +kernel, by decide +kernel, ⟨150000000, by decide +kernel⟩⟩
  · exact ⟨⟨by decide +kernel, by decide +kernel, by decide, by decide +kernel⟩,
      by decide, rfl, by decide +kernel, by decide +kernel,
      fun _ ↦ .inl (by decide +kernel)⟩

/-- The pair of the source's own fixture: two places for prices, five for sizes. -/
def btcusdt : Instrument :=
  currencyPair (instrumentId "BTCUSDT") ⟨"BTC", 5, five_le_maxPrecision⟩
    ⟨"USDT", 2, two_le_maxPrecision⟩ 2 5 ⟨1, 2⟩
    ⟨1, 5⟩ (some ⟨500, ⟨"USDT", 2, two_le_maxPrecision⟩⟩) defaultMakerFee defaultTakerFee

/-- The order does not take the fill: its filled quantity has five places and the fill eight. -/
theorem not_folded_of_step_size :
    parseExchangeInfo (infoBody "BTCUSDT" "BTC" "USDT" "0.01000000" "0.00001000") = .ok [btcusdt] ∧
      Tracks (spotReady btcusdt ⟨50000, 5⟩) ⟨"S-1"⟩ (spotOrder btcusdt ⟨50000, 5⟩) btcusdt ∧
      (tradeOf "BTCUSDT" 50000 (1 / 10) 5 "USDT").Reads
        (tradeBody "BTCUSDT" "50000.00000000" "0.10000000" "5.00000000" "USDT") ∧
      (tradeOf "BTCUSDT" 50000 (1 / 10) 5 "USDT").IsFor ⟨"S-1"⟩ (spotOrder btcusdt ⟨50000, 5⟩)
        btcusdt ∧
      (∃ r, mapExecutionReport
          (tradeBody "BTCUSDT" "50000.00000000" "0.10000000" "5.00000000" "USDT") = .ok r) ∧
      ∀ r, mapExecutionReport
          (tradeBody "BTCUSDT" "50000.00000000" "0.10000000" "5.00000000" "USDT") = .ok r →
        ¬ Folded (spotReady btcusdt ⟨50000, 5⟩) ⟨"S-1"⟩ (spotOrder btcusdt ⟨50000, 5⟩) btcusdt
          (tradeOf "BTCUSDT" 50000 (1 / 10) 5 "USDT")
          (applyReport r 2 (spotReady btcusdt ⟨50000, 5⟩)).2 := by
  have hreads : (tradeOf "BTCUSDT" 50000 (1 / 10) 5 "USDT").Reads
      (tradeBody "BTCUSDT" "50000.00000000" "0.10000000" "5.00000000" "USDT") :=
    ⟨rfl, rfl, rfl, rfl, rfl, rfl, rfl, ⟨_, rfl, by decide +kernel⟩, ⟨_, rfl, by decide +kernel⟩,
      by decide +kernel, rfl, rfl, rfl⟩
  refine ⟨by decide +kernel, ⟨by decide, by decide, by decide +kernel, by decide,
    by decide⟩, hreads,
    ⟨rfl, rfl, rfl, by decide +kernel, by decide +kernel, ⟨10000, by decide +kernel⟩⟩,
    by decide +kernel, fun r hr ↦ ?_⟩
  obtain ⟨-, rfl⟩ := hreads.mapExecutionReport_eq_ok_iff.mp hr
  exact not_folded_of_order (by decide +kernel) (by decide +kernel)

end Instances

end Binance

end Coinext
