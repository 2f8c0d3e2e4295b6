import Coinext.Binance.OrderEntry
import Coinext.Binance.TradeFold
import Coinext.Engine.Redelivery

/-!
# Which id names what

An event of the user stream names the order it is about and, if it is a trade, the trade. The
adapter hands both names on as they are, and the engine looks them up.

The engine keeps the trade ids it has seen in one set, while the venue numbers the trades of each
symbol apart. `keepsApart_iff` says when the two agree: a new trade is taken for a repeat exactly
when a trade of another symbol has come with the same number.

A cancel request of the adapter carries the order's id and none of its own, so the venue makes one
up. The event that confirms the cancel has both, and the adapter reads the wrong one.
-/

namespace Coinext.Binance

open ExecutionEngine

/-! ## What reaches the engine -/

/-- What reaches an engine that trades on the venue: an event of the user stream, or a call that
brings no fill. -/
inductive Arrival where
  | event (v : Json) (now : UnixNanos)
  | call (c : EngineCall) (noFill : c.fill? = none)

section Trades

variable [DecimalText] [DecimalWidth]

namespace Arrival

/-- The call an arrival becomes; an event that cannot be mapped is skipped. -/
def call? : Arrival → Option EngineCall
  | event v now => (mapExecutionReport v).toOption.map (.report · now)
  | call c _ => some c

def step (model : BrokerageModel) (s : Oms) (a : Arrival) : Oms :=
  match a.call? with
  | some c => c.step model s
  | none => s

/-- The arrival is an event that says `t` and can be mapped. -/
def Brings (t : TradeEvent) : Arrival → Prop
  | event v _ => t.Reads v ∧ t.Encodable
  | call .. => False

end Arrival

/-- A trade of the same symbol with the same number has come before. -/
def Repeats (pre : List Arrival) (t : TradeEvent) : Prop :=
  ∃ a ∈ pre, ∃ u : TradeEvent, a.Brings u ∧ u.symbol = t.symbol ∧ u.tradeId = t.tradeId

/-- The order a trade names is tracked, is for the traded symbol, and accepts the fill. -/
def CanAccept (s : Oms) (t : TradeEvent) : Prop :=
  ∃ o ∈ s.cache.order t.fill.clientOrderId, o.instrumentId = t.fill.instrumentId ∧
    ∃ o', o.Accepts (fillEvent o t.fill) o'

instance (s : Oms) (t : TradeEvent) : Decidable (CanAccept s t) :=
  inferInstanceAs (Decidable (∃ o ∈ s.cache.order t.fill.clientOrderId, _ ∧ ∃ o', o.Accepts _ o'))

/-- From `s` to `s'` the fill is added to the log of its order and folded into the position of its
instrument. -/
structure FoldedInto (s s' : Oms) (f : Fill) : Prop where
  log : ∃ o ∈ s.cache.order f.clientOrderId, ∃ o' ∈ s'.cache.order f.clientOrderId,
    o'.fills = o.fills ++ [f]
  position : ∃ inst ∈ s.cache.instrument f.instrumentId, s'.cache.position f.instrumentId =
    some ((s.positionOrFlat f.instrumentId inst).applied inst f)

/-- **Trades are kept apart.** Whenever a trade comes that its order can accept, it is folded, for
good, or it repeats a trade of its symbol and is dropped. -/
def KeepsApart (model : BrokerageModel) (s₀ : Oms) (arrivals : List Arrival) : Prop :=
  ∀ pre a post t, arrivals = pre ++ a :: post → a.Brings t →
    let s := pre.foldl (Arrival.step model) s₀
    CanAccept s t →
      (¬ Repeats pre t → FoldedInto s (a.step model s) t.fill ∧
        Logged (arrivals.foldl (Arrival.step model) s₀) t.fill) ∧
      (Repeats pre t → a.step model s = s)

/-- A new trade that its order can accept has a number that no trade of another symbol has come
with. -/
def NumbersApart (model : BrokerageModel) (s₀ : Oms) (arrivals : List Arrival) : Prop :=
  ∀ pre a post t, arrivals = pre ++ a :: post → a.Brings t →
    CanAccept (pre.foldl (Arrival.step model) s₀) t → ¬ Repeats pre t →
    ∀ b ∈ pre, ∀ u : TradeEvent, b.Brings u → u.symbol ≠ t.symbol → u.tradeId ≠ t.tradeId

variable {model : BrokerageModel} {s s₀ : Oms} {a : Arrival} {t : TradeEvent}
  {arrivals : List Arrival}

/-! ## Trades and fills -/

omit [DecimalText] [DecimalWidth] in
theorem tradeId_fill_inj {t u : TradeEvent} :
    u.fill.tradeId = t.fill.tradeId ↔ u.tradeId = t.tradeId := by
  have hvalue (n : ℕ) : Nat.ofDigitChars 10 (toString n).toList 0 = n := by
    change Nat.ofDigitChars 10 (Nat.repr n).toList 0 = n
    rw [Nat.repr_eq_ofList_toDigits, String.toList_ofList,
      Nat.ofDigitChars_toDigits (by decide) (by decide)]
  constructor
  · intro h
    have htext : toString u.tradeId = toString t.tradeId := congrArg TradeId.text h
    rw [← hvalue u.tradeId, htext, hvalue]
  · intro h
    simp [TradeEvent.fill, h]

theorem Arrival.Brings.call? (h : a.Brings t) :
    ∃ now, a.call? = some (.report (.fill t.fill) now) := by
  cases a with
  | event v now =>
    refine ⟨now, ?_⟩
    have hmap := h.1.mapExecutionReport_eq_ok_iff.mpr ⟨h.2, rfl⟩
    rw [Arrival.call?, hmap]
    rfl
  | call c noFill => exact h.elim

theorem Arrival.Brings.step (h : a.Brings t) : a.step model s = (applyFillReport t.fill s).2 := by
  obtain ⟨now, hcall⟩ := h.call?
  rw [Arrival.step, hcall]
  rfl

theorem Arrival.exists_brings {c : EngineCall} (hc : a.call? = some c) {f : Fill}
    (hf : c.fill? = some f) : ∃ t, a.Brings t ∧ t.fill = f := by
  cases a with
  | call c' noFill =>
    cases hc
    rw [noFill] at hf
    cases hf
  | event v now =>
    obtain ⟨r, hr, rfl⟩ := Option.map_eq_some_iff.mp hc
    have hmap : mapExecutionReport v = .ok r := by
      cases h : mapExecutionReport v with
      | error e =>
        rw [h] at hr
        cases hr
      | ok r' =>
        rw [h] at hr
        cases hr
        rfl
    cases r with
    | fill g =>
      cases hf
      obtain ⟨t, hreads, hok, rfl⟩ := TradeEvent.exists_reads_of_fill hmap
      exact ⟨t, ⟨hreads, hok⟩, rfl⟩
    | _ => cases hf

/-! ## The trades that were seen -/

theorem Arrival.mem_seenTradeIds_step (model : BrokerageModel) (a : Arrival) {id : TradeId} :
    id ∈ (a.step model s).ledger.seenTradeIds ↔
      id ∈ s.ledger.seenTradeIds ∨ ∃ t, a.Brings t ∧ t.fill.tradeId = id := by
  cases hcall : a.call? with
  | none =>
    have hno : ¬ ∃ t, a.Brings t ∧ t.fill.tradeId = id := by
      rintro ⟨t, ht, -⟩
      obtain ⟨now, hsome⟩ := ht.call?
      rw [hcall] at hsome
      cases hsome
    rw [Arrival.step, hcall]
    simp only [hno, or_false]
  | some c =>
    rw [Arrival.step, hcall, c.mem_seenTradeIds_step model]
    refine or_congr_right ⟨?_, ?_⟩
    · rintro ⟨f, hf, hid⟩
      obtain ⟨t, ht, rfl⟩ := Arrival.exists_brings hcall hf
      exact ⟨t, ht, hid⟩
    · rintro ⟨t, ht, hid⟩
      obtain ⟨now, hsome⟩ := ht.call?
      rw [hcall] at hsome
      cases hsome
      exact ⟨t.fill, rfl, hid⟩

/-- After any run the engine has seen the trades the run has brought. -/
theorem mem_seenTradeIds_foldl (model : BrokerageModel) (hs₀ : s₀.ledger.seenTradeIds = ∅)
    (pre : List Arrival) {id : TradeId} :
    id ∈ (pre.foldl (Arrival.step model) s₀).ledger.seenTradeIds ↔
      ∃ a ∈ pre, ∃ t : TradeEvent, a.Brings t ∧ t.fill.tradeId = id := by
  induction pre using List.reverseRecOn with
  | nil => simp [hs₀]
  | append_singleton pre a ih =>
    rw [List.foldl_append, List.foldl_cons, List.foldl_nil, a.mem_seenTradeIds_step model, ih]
    simp [or_and_right, exists_or]

theorem foldl_arrivals_induction {I : Oms → Prop}
    (hstep : ∀ s (c : EngineCall), I s → I (c.step model s)) (hs₀ : I s₀)
    (arrivals : List Arrival) : I (arrivals.foldl (Arrival.step model) s₀) := by
  refine foldl_induction (fun s a hs ↦ ?_) hs₀ arrivals
  rw [Arrival.step]
  cases a.call? with
  | none => exact hs
  | some c => exact hstep s c hs

/-! ## One trade -/

theorem foldedInto_of_unseen (hlisted : s.Listed) (hkeyed : s.Keyed) (hbrings : a.Brings t)
    (hcan : CanAccept s t) (hunseen : t.fill.tradeId ∉ s.ledger.seenTradeIds) :
    FoldedInto s (a.step model s) t.fill ∧ Logged (a.step model s) t.fill := by
  obtain ⟨o, ho, hiid, htakes⟩ := hcan
  obtain ⟨inst, hinst⟩ := hlisted _ o ho
  rw [hiid] at hinst
  obtain ⟨o', hacc, hfolded⟩ := applyFillReport_of_unseen ho hunseen htakes
  have horder : (folded s t.fill o').cache.order t.fill.clientOrderId = some o' := by
    rw [Cache.order, orders_folded]
    exact AList.lookup_insert _
  have hfills : o'.fills = o.fills ++ [t.fill] := by
    rw [hacc.fills, fill?_fillEvent]
    rfl
  have hkeyed' : ((markSeen t.fill s).setOrder t.fill.clientOrderId o').Keyed :=
    hkeyed.congr rfl rfl
  rw [hbrings.step, hfolded]
  refine ⟨⟨⟨o, ho, o', horder, hfills⟩, inst, hinst, ?_⟩, o', horder, ?_, ?_⟩
  · rw [folded, position_foldPosition hkeyed' hinst, if_pos rfl]
    rfl
  · exact hacc.sameTerms.instrumentId.trans hiid
  · rw [hfills]
    exact List.mem_append_right _ List.mem_cons_self

theorem step_of_seen (hbrings : a.Brings t) (hseen : t.fill.tradeId ∈ s.ledger.seenTradeIds) :
    a.step model s = s := by
  rw [hbrings.step, applyFillReport, if_pos hseen]

omit [DecimalText] in
theorem FoldedInto.ne {s' : Oms} {f : Fill} (h : FoldedInto s s' f) : s' ≠ s := by
  rintro rfl
  obtain ⟨o, ho, o', ho', hfills⟩ := h.log
  obtain rfl : o = o' := Option.some.inj (ho.symm.trans ho')
  have hlength := congrArg List.length hfills
  simp at hlength

/-! ## Whole runs -/

/-- **Trade numbers.** The trades of a run are kept apart if and only if no new trade that its order
can accept has the number of an earlier trade of another symbol. -/
theorem keepsApart_iff (model : BrokerageModel) (s₀ : Oms) (hfresh : s₀.Fresh)
    (hs₀ : s₀.ledger.seenTradeIds = ∅) (arrivals : List Arrival) :
    KeepsApart model s₀ arrivals ↔ NumbersApart model s₀ arrivals := by
  have hlisted (pre : List Arrival) : (pre.foldl (Arrival.step model) s₀).Listed := by
    refine foldl_arrivals_induction (fun s c hs ↦ hs.step model c) ?_ pre
    intro id o ho
    rw [Cache.order, hfresh.1, AList.lookup_empty] at ho
    cases ho
  have hsound (pre : List Arrival) : (pre.foldl (Arrival.step model) s₀).Sound :=
    foldl_arrivals_induction (fun s c hs ↦ hs.step model c) hfresh.sound pre
  constructor
  · intro h pre a post t harrivals hbrings hcan hnew b hb u hu hsymbol hid
    obtain ⟨hfolded, -⟩ := (h pre a post t harrivals hbrings hcan).1 hnew
    refine hfolded.ne (step_of_seen hbrings ?_)
    exact (mem_seenTradeIds_foldl model hs₀ pre).mpr ⟨b, hb, u, hu, tradeId_fill_inj.mpr hid⟩
  · intro h pre a post t harrivals hbrings s hcan
    constructor
    · intro hnew
      have hunseen : t.fill.tradeId ∉ s.ledger.seenTradeIds := by
        intro hseen
        obtain ⟨b, hb, u, hu, hid⟩ := (mem_seenTradeIds_foldl model hs₀ pre).mp hseen
        have hid' := tradeId_fill_inj.mp hid
        by_cases hsymbol : u.symbol = t.symbol
        · exact hnew ⟨b, hb, u, hu, hsymbol, hid'⟩
        · exact h pre a post t harrivals hbrings hcan hnew b hb u hu hsymbol hid'
      obtain ⟨hfolded, hlog⟩ : FoldedInto s (a.step model s) t.fill ∧ _ :=
        foldedInto_of_unseen (hlisted pre) (hsound pre).keyed hbrings hcan hunseen
      refine ⟨hfolded, ?_⟩
      rw [harrivals, List.foldl_append, List.foldl_cons]
      exact foldl_arrivals_induction (I := fun s ↦ Logged s t.fill)
        (fun s c hs ↦ hs.step model c) hlog post
    · rintro ⟨b, hb, u, hu, -, hid⟩
      refine step_of_seen hbrings ?_
      exact (mem_seenTradeIds_foldl model hs₀ pre).mpr ⟨b, hb, u, hu, tradeId_fill_inj.mpr hid⟩

end Trades

/-! ## Cancels -/

/-- The event with which the venue confirms a cancel request: `C` is the id of the order, and `c` is
that of the request, which the venue makes up when the request gives none. -/
structure ConfirmsCancel (req : RestRequest) (madeUp : String) (v : Json) : Prop where
  event : v.getStr "e" = some "executionReport"
  execType : v.getStr "x" = some "CANCELED"
  original : v.getStr "C" = req.query.lookup "origClientOrderId"
  client : v.getStr "c" = some ((req.query.lookup "newClientOrderId").getD madeUp)

section Cancels

variable [DecimalText] [DecimalWidth]

/-- Mapping and folding the event moves the order to `Canceled` and changes no other. -/
def CancelReaches (s : Oms) (id : ClientOrderId) (v : Json) (now : UnixNanos) : Prop :=
  ∃ r, mapExecutionReport v = .ok r ∧
    (∃ o ∈ (applyReport r now s).2.cache.order id, o.status = .canceled) ∧
    ∀ id' ≠ id, (applyReport r now s).2.cache.order id' = s.cache.order id'

variable {s : Oms} {id : ClientOrderId} {o : Order}

omit [DecimalText] in
theorem order_applyToOrder_of_ne {id' : ClientOrderId} (h : id' ≠ id) (ev : OrderEvent) (s : Oms) :
    (applyToOrder id ev s).2.cache.order id' = s.cache.order id' := by
  unfold applyToOrder
  split
  · rfl
  · exact AList.lookup_insert_ne h

omit [DecimalText] in
theorem canceled_of_pendingCancel (ho : s.cache.order id = some o)
    (hstatus : o.status = .pendingCancel) (now : UnixNanos) :
    ∃ o' ∈ (applyToOrder id (.canceled now) s).2.cache.order id, o'.status = .canceled := by
  have hmem : o.status ∈ (OrderEvent.canceled now).allowedFrom := by
    rw [hstatus]
    simp [OrderEvent.allowedFrom]
  rcases applyToOrder_cases id (.canceled now) s with ⟨hnone, -⟩ | ⟨p, p', hp, hacc, heq⟩ |
    ⟨p, hp, hrej, -⟩
  · rw [ho] at hnone
    cases hnone
  · obtain ⟨q, -, heff, rfl⟩ := hacc
    have hq : q.status = .canceled := by
      cases heff
      rfl
    refine ⟨q.record (.canceled now), ?_, hq⟩
    rw [heq]
    exact AList.lookup_insert _
  · obtain rfl : o = p := Option.some.inj (ho.symm.trans hp)
    exact absurd ⟨_, hmem, rfl, rfl⟩ (hrej _)

/-- The report of a confirmed cancel names the request, which gives no id of its own. -/
theorem ConfirmsCancel.mapExecutionReport {iid : InstrumentId} {madeUp : String} {v : Json}
    (h : ConfirmsCancel (buildCancelParams id iid) madeUp v) :
    mapExecutionReport v = .ok (.canceled ⟨madeUp⟩) := by
  have hclient : v.getStr "c" = some madeUp := h.client
  simp only [Binance.mapExecutionReport, h.event, h.execType, hclient, orError, Option.getD_some,
    ne_eq, not_true_eq_false, if_false]
  rfl

/-- **Cancels.** The event that confirms a cancel reaches the order if and only if the id that the
venue makes up for the request is the order's own. -/
theorem cancelReaches_iff (ho : s.cache.order id = some o) (hstatus : o.status = .pendingCancel)
    {iid : InstrumentId} {madeUp : String} {v : Json}
    (hv : ConfirmsCancel (buildCancelParams id iid) madeUp v) (now : UnixNanos) :
    CancelReaches s id v now ↔ madeUp = id.text := by
  constructor
  · rintro ⟨r, hr, ⟨o', ho', hcanceled⟩, -⟩
    rw [hv.mapExecutionReport] at hr
    cases hr
    by_contra hne
    -- the order is as it was
    have hsame : (applyToOrder ⟨madeUp⟩ (.canceled now) s).2.cache.order id = some o := by
      rw [order_applyToOrder_of_ne (fun heq ↦ hne (congrArg ClientOrderId.text heq).symm)]
      exact ho
    obtain rfl : o = o' := Option.some.inj (hsame.symm.trans ho')
    rw [hstatus] at hcanceled
    cases hcanceled
  · rintro rfl
    refine ⟨_, hv.mapExecutionReport, canceled_of_pendingCancel ho hstatus now, ?_⟩
    intro id' hne
    exact order_applyToOrder_of_ne hne _ s

end Cancels

section Instances

open scoped RustDecimal PlainDecimal

/-- A second pair with eight places on both sides. -/
def otherInst : Instrument :=
  currencyPair (instrumentId "XYZBTC") ⟨"XYZ", 8, eight_le_maxPrecision⟩
    ⟨"BTC", 8, eight_le_maxPrecision⟩ 8 8 ⟨1, 8⟩
    ⟨1, 8⟩ (some ⟨500000000, ⟨"BTC", 8, eight_le_maxPrecision⟩⟩) defaultMakerFee defaultTakerFee

/-- An engine that knows both pairs. -/
def pairsOms : Oms := ⟨(Cache.new.addInstrument fineInst).addInstrument otherInst, .new, .new⟩

/-- Submit a limit buy of three units. -/
def submitBuy (inst : Instrument) (id : String) : Arrival :=
  .call (.submit ⟨fun _ _ _ ↦ .approved⟩ ⟨fun _ ↦ none, Money.zero inst.quoteCurrency,
      Money.zero inst.quoteCurrency⟩ 0
    (Order.new ⟨"S"⟩ ⟨id⟩ inst.id .buy .limit ⟨300000000, 8⟩ (some ⟨200, 8⟩) none .gtc {} 0) 0) rfl

def acknowledged (id : String) (now : UnixNanos) : Arrival :=
  .event (.obj [("e", .str "executionReport"), ("x", .str "NEW"), ("c", .str id), ("i", .uint 7)])
    now

/-- A trade of one unit. -/
def oneUnit (id symbol : String) (number : ℕ) : TradeEvent :=
  ⟨id, symbol, 7, number, .buy, 2 / 1000000, 1, 1 / 10000000, "BTC", false, 1⟩

def oneUnitBody (id symbol : String) (number : ℕ) : Json :=
  .obj [("e", .str "executionReport"), ("x", .str "TRADE"), ("c", .str id), ("s", .str symbol),
    ("i", .uint 7), ("t", .uint number), ("S", .str "BUY"), ("L", .str "0.00000200"),
    ("l", .str "1.00000000"), ("n", .str "0.00000010"), ("N", .str "BTC"), ("m", .bool false),
    ("T", .uint 1)]

/-- Two orders and a trade of the first. -/
def firstPair (number : ℕ) : List Arrival :=
  [submitBuy fineInst "S-1", submitBuy otherInst "S-2", acknowledged "S-1" 1,
    acknowledged "S-2" 1, .event (oneUnitBody "S-1" "ABCBTC" number) 2]

/-- A trade of the second order. -/
def secondPair (number : ℕ) : Arrival := .event (oneUnitBody "S-2" "XYZBTC" number) 3

theorem reads_oneUnitBody (id symbol : String) {number : ℕ} (h : number ≤ u64Max) :
    (oneUnit id symbol number).Reads (oneUnitBody id symbol number) := by
  have hprice : PlainDecimal.fromStr "0.00000200" = .ok (2 / 1000000) := by
    with_unfolding_all decide
  have hqty : PlainDecimal.fromStr "1.00000000" = .ok 1 := by with_unfolding_all decide
  have hcommission : PlainDecimal.fromStr "0.00000010" = .ok (1 / 10000000) := by
    with_unfolding_all decide
  exact ⟨rfl, rfl, rfl, rfl, rfl, if_pos h, rfl, ⟨_, rfl, hprice⟩, ⟨_, rfl, hqty⟩, hcommission,
    rfl, rfl, rfl⟩

theorem encodable_oneUnit (id symbol : String) (number : ℕ) :
    (oneUnit id symbol number).Encodable := by
  have hclosed : (oneUnit "S-1" "ABCBTC" 1).Encodable :=
    ⟨by with_unfolding_all decide, by with_unfolding_all decide, by decide,
      by with_unfolding_all decide⟩
  exact ⟨hclosed.price, hclosed.qty, hclosed.asset, hclosed.commission⟩

theorem TradeEvent.Reads.of_oneUnitBody {t : TradeEvent} {id symbol : String} {number : ℕ}
    (hreads : t.Reads (oneUnitBody id symbol number)) (h : number ≤ u64Max) :
    t.symbol = symbol ∧ t.tradeId = number := by
  have hbody := reads_oneUnitBody id symbol h
  exact ⟨Option.some.inj (hreads.symbol.symm.trans hbody.symbol),
    Option.some.inj (hreads.tradeId.symm.trans hbody.tradeId)⟩

theorem brings_firstPair {number : ℕ} (h : number ≤ u64Max) {a : Arrival} {t : TradeEvent}
    (ha : a ∈ firstPair number) (ht : a.Brings t) : t.symbol = "ABCBTC" ∧ t.tradeId = number := by
  simp only [firstPair, List.mem_cons, List.not_mem_nil, or_false] at ha
  rcases ha with rfl | rfl | rfl | rfl | rfl
  · exact ht.elim
  · exact ht.elim
  · exact nomatch (show none = some t.symbol from ht.1.symbol)
  · exact nomatch (show none = some t.symbol from ht.1.symbol)
  · exact ht.1.of_oneUnitBody h

theorem brings_secondPair (number : ℕ) (h : number ≤ u64Max) :
    (secondPair number).Brings (oneUnit "S-2" "XYZBTC" number) :=
  ⟨reads_oneUnitBody _ _ h, encodable_oneUnit _ _ _⟩

/-- Two pairs whose trades have different numbers. -/
theorem keepsApart_iff_numbered :
    let s := (firstPair 99 ++ [secondPair 100]).foldl (Arrival.step deskModel) pairsOms
    s.signed fineInst.id = 1 ∧ s.signed otherInst.id = 1 ∧
      KeepsApart deskModel pairsOms (firstPair 99 ++ [secondPair 100]) := by
  refine ⟨by with_unfolding_all decide, by with_unfolding_all decide,
    (keepsApart_iff deskModel pairsOms ⟨rfl, rfl⟩ rfl (firstPair 99 ++ [secondPair 100])).mpr ?_⟩
  intro pre a post t harrivals hbrings _ _ b hb u hu hsymbol hid
  have hnumber {a : Arrival} {t : TradeEvent} (ha : a ∈ firstPair 99 ++ [secondPair 100])
      (ht : a.Brings t) :
      (t.symbol = "ABCBTC" ∧ t.tradeId = 99) ∨ (t.symbol = "XYZBTC" ∧ t.tradeId = 100) := by
    rcases List.mem_append.mp ha with ha | ha
    · exact .inl (brings_firstPair (by decide) ha ht)
    · rw [List.mem_singleton.mp ha] at ht
      exact .inr (ht.1.of_oneUnitBody (by decide))
  have hmem : a ∈ firstPair 99 ++ [secondPair 100] := by
    rw [harrivals]
    exact List.mem_append_right _ List.mem_cons_self
  have hmem' : b ∈ firstPair 99 ++ [secondPair 100] := by
    rw [harrivals]
    exact List.mem_append_left _ hb
  rcases hnumber hmem hbrings with ⟨hs, hn⟩ | ⟨hs, hn⟩ <;>
    rcases hnumber hmem' hu with ⟨hs', hn'⟩ | ⟨hs', hn'⟩
  · exact hsymbol (hs'.trans hs.symm)
  · omega
  · omega
  · exact hsymbol (hs'.trans hs.symm)

/-- Two trades of different symbols with one number: the second is taken for a repeat. -/
theorem not_keepsApart_of_one_number :
    pairsOms.Fresh ∧ pairsOms.ledger.seenTradeIds = ∅ ∧
      ¬ KeepsApart deskModel pairsOms (firstPair 99 ++ [secondPair 99]) := by
  refine ⟨⟨rfl, rfl⟩, rfl, fun h ↦ ?_⟩
  have hbrings := brings_secondPair 99 (by decide)
  have hnew : ¬ Repeats (firstPair 99) (oneUnit "S-2" "XYZBTC" 99) := by
    rintro ⟨b, hb, u, hu, hsymbol, -⟩
    rw [(brings_firstPair (by decide) hb hu).1] at hsymbol
    exact absurd hsymbol (by decide)
  obtain ⟨hfolded, -⟩ := (h (firstPair 99) _ [] _ rfl hbrings (by with_unfolding_all decide)).1 hnew
  exact hfolded.ne (step_of_seen hbrings (by with_unfolding_all decide))

/-- The engine once the cancel of `S-1` is requested. -/
def cancelingOms : Oms :=
  EngineCall.step deskModel (spotReady fineInst ⟨300000000, 8⟩) (.cancel 2 ⟨"S-1"⟩ 2)

/-- The confirmation of a cancel of `S-1`. -/
def canceledBody (client : String) : Json :=
  .obj [("e", .str "executionReport"), ("x", .str "CANCELED"), ("c", .str client),
    ("C", .str "S-1"), ("s", .str "ABCBTC"), ("i", .uint 7)]

theorem cancelReaches_iff_own_id :
    CancelReaches cancelingOms ⟨"S-1"⟩ (canceledBody "S-1") 3 := by
  have horder : ∃ o, cancelingOms.cache.order ⟨"S-1"⟩ = some o ∧ o.status = .pendingCancel := by
    refine ⟨(spotOrder fineInst ⟨300000000, 8⟩).applied (.pendingCancel 2), by decide,
      by decide⟩
  obtain ⟨o, ho, hstatus⟩ := horder
  have hv : ConfirmsCancel (buildCancelParams ⟨"S-1"⟩ fineInst.id) "S-1" (canceledBody "S-1") :=
    ⟨rfl, rfl, rfl, rfl⟩
  exact (cancelReaches_iff ho hstatus hv 3).mpr rfl

/-- The venue makes up an id of its own. -/
theorem not_cancelReaches_of_made_up :
    (cancelingOms.cache.order ⟨"S-1"⟩).map Order.status = some .pendingCancel ∧
      ConfirmsCancel (buildCancelParams ⟨"S-1"⟩ fineInst.id) "m4gic0d3" (canceledBody "m4gic0d3") ∧
      ¬ CancelReaches cancelingOms ⟨"S-1"⟩ (canceledBody "m4gic0d3") 3 := by
  refine ⟨by decide, ⟨rfl, rfl, rfl, rfl⟩, ?_⟩
  rintro ⟨r, hr, ⟨o, ho, hstatus⟩, -⟩
  have hmap : mapExecutionReport (canceledBody "m4gic0d3") = .ok (.canceled ⟨"m4gic0d3"⟩) := rfl
  rw [hmap] at hr
  cases hr
  have hpending : ((applyReport (.canceled ⟨"m4gic0d3"⟩) 3 cancelingOms).2.cache.order
      ⟨"S-1"⟩).map Order.status = some .pendingCancel := by decide
  rw [show (applyReport (.canceled ⟨"m4gic0d3"⟩) 3 cancelingOms).2.cache.order ⟨"S-1"⟩ = some o
    from ho, Option.map_some, hstatus] at hpending
  cases hpending

end Instances

end Coinext.Binance
