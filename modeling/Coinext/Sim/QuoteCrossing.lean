import Coinext.Sim.Evolution

/-!
# Which side of a quote a resting order looks at

A fresh limit order is compared with the side of the quote that it would trade against: a buy with
the ask, a sell with the bid. The venue matches resting orders against the range of an event, and
the range of a quote is its spread: a resting buy is compared with the low end, the bid, and a
resting sell with the high end, the ask. So an order inside the spread rests when it is submitted
and fills at the next quote, whatever that is. A quote fills as a fresh order would be taken exactly
when no order rests inside its spread (`quotesAgree_iff`).
-/

namespace Coinext

namespace VenueSession

open SimulatedExecutionClient

/-- A limit order that waits for its price, and not for an open. -/
structure IsPassiveLimit (r : Resting) : Prop where
  orderType : r.order.orderType = .limit
  waits : r.pendingOpen = false

/-- The limit lies inside the spread of the quote, or on its own side of it. -/
def InSpread (q : QuoteTick) (o : Order) : Prop :=
  ∃ limit, o.price = some limit ∧ match o.side with
    | .buy => q.bid ≤ limit ∧ limit < q.ask
    | .sell => q.bid < limit ∧ limit ≤ q.ask

/-- The quote reaches the limit, as the venue matches it: the bid a buy, the ask a sell. -/
def Reaches (q : QuoteTick) (o : Order) : Prop :=
  ∃ limit, o.price = some limit ∧ match o.side with
    | .buy => q.bid ≤ limit
    | .sell => limit ≤ q.ask

/-- A call of a session offers a quote to a passive limit order that rests. -/
structure Meets [DecimalWidth] (model : BrokerageModel) (calls : List VenueCall) (cache : Cache)
    (now : UnixNanos) (q : QuoteTick) (s : VenueSession) (r : Resting) : Prop where
  session : ∃ front back, calls = front ++ .market cache now (.quote q) :: back ∧
    s = run model front
  known : (cache.instrument q.instrumentId).isSome = true
  ordered : q.bid ≤ q.ask
  rests : r ∈ s.sim.resting
  passive : IsPassiveLimit r
  instrument : r.order.instrumentId = q.instrumentId

section Meets

variable [DecimalWidth] (model : BrokerageModel) (calls : List VenueCall)

/-- A quote fills a passive limit order only if the order would be taken when it is submitted at
that quote. -/
def QuotesAgree : Prop :=
  ∀ cache now q s r, Meets model calls cache now q s r →
    filledBy model s r.venueOrderId (.market cache now (.quote q)) ≠ [] →
      marketable (cache.addQuote q) r.order = true

/-- No quote meets an order inside its spread. -/
def NeverInSpread : Prop :=
  ∀ cache now q s r, Meets model calls cache now q s r → r.remaining.isPositive = true →
    ¬ InSpread q r.order

end Meets

variable {cache : Cache} {now : UnixNanos} {q : QuoteTick} {r : Resting}

/-- At a quote, a fresh limit order looks at the side that it would trade against. -/
theorem marketable_addQuote_iff (htype : r.order.orderType = .limit)
    (hid : r.order.instrumentId = q.instrumentId) :
    marketable (cache.addQuote q) r.order = true ↔
      ∃ limit, r.order.price = some limit ∧ match r.order.side with
        | .buy => q.ask ≤ limit
        | .sell => limit ≤ q.bid := by
  have hquote : (cache.addQuote q).quote r.order.instrumentId = some q := by
    rw [hid]
    exact AList.lookup_insert _
  have href : referencePrice (cache.addQuote q) r.order.instrumentId r.order.side
      = some (match r.order.side with
        | .buy => q.ask
        | .sell => q.bid) := by
    cases hside : r.order.side <;> simp only [referencePrice, hquote]
  simp only [marketable, htype, href]
  cases r.order.price with
  | none => simp
  | some limit =>
    cases r.order.side with
    | buy => simp
    | sell => simp

theorem inSpread_iff (htype : r.order.orderType = .limit)
    (hid : r.order.instrumentId = q.instrumentId) :
    InSpread q r.order ↔ Reaches q r.order ∧ ¬ marketable (cache.addQuote q) r.order = true := by
  rw [marketable_addQuote_iff htype hid]
  unfold InSpread Reaches
  cases r.order.price with
  | none => simp
  | some limit =>
    cases r.order.side with
    | buy => simp
    | sell => simp [and_comm]

variable [DecimalWidth] {model : BrokerageModel} {s : VenueSession} {calls : List VenueCall}

/-- What a quote offers a passive limit order: all of it, once the quote reaches it. -/
theorem offered_quote_iff {inst : Instrument} {tape : Tape} (hpassive : IsPassiveLimit r)
    (hid : r.order.instrumentId = q.instrumentId) (htape : tape? (.quote q) = some tape) :
    (offered model inst tape q.instrumentId r).isSome = true ↔
      Reaches q r.order ∧ r.remaining.isPositive = true := by
  cases htape
  have hlimit : ¬ (r.order.orderType ≠ .market ∧ r.order.orderType ≠ .limit) := by
    simp [hpassive.orderType]
  unfold offered Reaches
  simp only [if_pos hid, verdict, hpassive.waits, Bool.false_eq_true, if_false, if_neg hlimit]
  cases r.order.price with
  | none => simp [aggressiveVerdict]
  | some limit =>
    have hbid : q.bid < limit ∨ q.bid = limit ↔ q.bid ≤ limit := le_iff_lt_or_eq.symm
    have hask : limit < q.ask ∨ q.ask = limit ↔ limit ≤ q.ask := by
      rw [eq_comm (a := q.ask)]
      exact le_iff_lt_or_eq.symm
    cases hpos : r.remaining.isPositive with
    | false =>
      simp only [limitVerdict, hpos, Bool.false_eq_true, if_false, ite_self, and_false, iff_false]
      simp
    | true =>
      cases hside : r.order.side with
      | buy =>
        simp only [limitVerdict, hside, hpos, decide_eq_true_eq, hbid, Option.some.injEq,
          exists_eq_left', and_true, if_true]
        split_ifs with hreach
        · simp [hpos, hreach]
        · simp [hreach]
      | sell =>
        simp only [limitVerdict, hside, hpos, decide_eq_true_eq, gt_iff_lt, hask, Option.some.injEq,
          exists_eq_left', and_true, if_true]
        split_ifs with hreach
        · simp [hpos, hreach]
        · simp [hreach]

/-- **A quote fills what it reaches.** -/
theorem Meets.filledBy_ne_nil_iff (h : Meets model calls cache now q s r) :
    filledBy model s r.venueOrderId (.market cache now (.quote q)) ≠ [] ↔
      Reaches q r.order ∧ r.remaining.isPositive = true := by
  obtain ⟨front, back, -, hs⟩ := h.session
  obtain ⟨inst, hinst⟩ := Option.isSome_iff_exists.mp h.known
  have hoffers : Offers cache (.quote q) inst ⟨q.bid, q.ask, q.mid, q.mid, none⟩ := ⟨hinst, rfl⟩
  have hr := h.rests
  rw [hs] at hr ⊢
  rw [filledBy_market hr hoffers now]
  have hiff : (offered model inst _ q.instrumentId r).isSome = true ↔ _ :=
    offered_quote_iff h.passive h.instrument rfl
  rw [← hiff]
  change ((offered model inst _ q.instrumentId r).map Decision.fillQty).toList ≠ [] ↔ _
  cases offered model inst _ q.instrumentId r <;> simp

/-- **Quotes agree with submits** exactly when no order rests inside the spread of a quote. -/
theorem quotesAgree_iff (model : BrokerageModel) (calls : List VenueCall) :
    QuotesAgree model calls ↔ NeverInSpread model calls := by
  constructor
  · intro h cache now q s r hmeets hpos hspread
    obtain ⟨hreach, hnot⟩ :=
      (inSpread_iff hmeets.passive.orderType hmeets.instrument).mp hspread
    exact hnot (h cache now q s r hmeets (hmeets.filledBy_ne_nil_iff.mpr ⟨hreach, hpos⟩))
  · intro h cache now q s r hmeets hfilled
    obtain ⟨hreach, hpos⟩ := hmeets.filledBy_ne_nil_iff.mp hfilled
    by_contra hnot
    exact h cache now q s r hmeets hpos
      ((inSpread_iff hmeets.passive.orderType hmeets.instrument).mpr ⟨hreach, hnot⟩)

end VenueSession

/-! ## Instances -/

namespace VenueSession

open SimulatedExecutionClient

section Instances

open scoped RustDecimal

/-- A quote of the perpetual, its prices in tenths. -/
def perpQuote (bid ask : ℤ) : QuoteTick :=
  ⟨(Position.perp false).id, ⟨bid, 1⟩, ⟨ask, 1⟩, ⟨1, 0⟩, ⟨1, 0⟩, 0, 0⟩

/-- A buy at 100 is submitted while the market is quoted 99 to 101. -/
def betweenQuotes : List VenueCall :=
  [.submit (listed.addQuote (perpQuote 990 1010)) 0 (perpOrder "a" .buy .limit 5 (some 1000) none)]

/-- The buy rests. -/
def betweenRest : Resting where
  order := perpOrder "a" .buy .limit 5 (some 1000) none
  remaining := ⟨5, 0⟩
  queueAhead := none
  venueOrderId := simVenueId 1
  trail := none
  pendingOpen := false

/-- **The same quote fills the buy at the next moment**, though nothing has moved. -/
theorem not_quotesAgree_between : ¬ ∀ (model : BrokerageModel) (calls : List VenueCall),
    QuotesAgree model calls := by
  intro h
  have hmeets : Meets ({} : DefaultBrokerageModel).brokerage
      (betweenQuotes ++ [.market listed 1 (.quote (perpQuote 990 1010))]) listed 1
      (perpQuote 990 1010) (run ({} : DefaultBrokerageModel).brokerage betweenQuotes)
      betweenRest :=
    ⟨⟨betweenQuotes, [], rfl, rfl⟩, by decide, by decide, by decide,
      ⟨rfl, rfl⟩, rfl⟩
  have hmarketable := h _ _ _ _ _ _ _ hmeets (by decide)
  exact absurd hmarketable (by decide)

end Instances

end VenueSession

end Coinext
