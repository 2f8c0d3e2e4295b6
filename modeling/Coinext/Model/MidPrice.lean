import Coinext.Core.Validity
import Coinext.Model.LevelBook

/-!
# Mid prices

The mid of a quote and that of a book are computed in the same way (`halved`): the sum of the two
sides, saturated at the width of a raw price, is halved. Two prices that each fit the width may have
a sum that does not, and from there on the mid is half the largest raw price, whatever the two sides
are. That is always less than half the sum (`midOf_halved_iff`).
-/

namespace Coinext

/-- Half the saturated sum of two prices, and the first of them if that is no price. -/
def halved (bid ask : Price) (precision : ℕ) : Price :=
  match Price.fromRaw ((saturateI64 (bid.raw + ask.raw)).tdiv 2) precision with
  | .ok p => p
  | .error _ => bid

/-- `p` is the mid of a spread: between its sides, and half their sum rounded down. -/
structure MidOf (bid ask p : Price) : Prop where
  bid_le : bid ≤ p
  le_ask : p ≤ ask
  precision_eq : p.precision = bid.precision
  raw_eq : p.raw = (bid.raw + ask.raw) / 2

/-! ## Halving -/

variable {bid ask : Price}

theorem halved_of_le (hbid : bid.Valid) (hask : ask.Valid)
    (hsum : bid.raw + ask.raw ≤ i64Max) :
    halved bid ask bid.precision = ⟨(bid.raw + ask.raw) / 2, bid.precision⟩ := by
  have hnonneg : 0 ≤ bid.raw + ask.raw := add_nonneg hbid.nonneg hask.nonneg
  have hsaturate : saturateI64 (bid.raw + ask.raw) = bid.raw + ask.raw := by
    unfold saturateI64 i64Min
    omega
  have hmade : Price.fromRaw ((saturateI64 (bid.raw + ask.raw)).tdiv 2) bid.precision
      = .ok ⟨(bid.raw + ask.raw) / 2, bid.precision⟩ := by
    rw [hsaturate, Int.tdiv_eq_ediv_of_nonneg hnonneg]
    exact Price.fromRaw_eq_ok_iff.mpr ⟨hbid.precision_le, Int.ediv_nonneg hnonneg (by decide), rfl⟩
  simp only [halved, hmade]

theorem halved_of_lt (hbid : bid.precision ≤ maxPrecision)
    (hsum : i64Max < bid.raw + ask.raw) :
    halved bid ask bid.precision = ⟨2 ^ 62 - 1, bid.precision⟩ := by
  have hsaturate : saturateI64 (bid.raw + ask.raw) = i64Max := by
    unfold saturateI64
    unfold i64Min i64Max at *
    omega
  have hhalf : i64Max.tdiv 2 = 2 ^ 62 - 1 := by decide
  have hmade : Price.fromRaw ((saturateI64 (bid.raw + ask.raw)).tdiv 2) bid.precision
      = .ok ⟨2 ^ 62 - 1, bid.precision⟩ := by
    rw [hsaturate, hhalf]
    exact Price.fromRaw_eq_ok_iff.mpr ⟨hbid, by decide, rfl⟩
  simp only [halved, hmade]

/-- **When half the saturated sum is the mid.** -/
theorem midOf_halved_iff (hbid : bid.Valid) (hask : ask.Valid)
    (hprec : bid.precision = ask.precision) (hle : bid ≤ ask) :
    MidOf bid ask (halved bid ask bid.precision) ↔ bid.raw + ask.raw ≤ i64Max := by
  constructor
  · intro hmid
    by_contra hsum
    have hraw := hmid.raw_eq
    rw [halved_of_lt hbid.precision_le (not_le.mp hsum)] at hraw
    unfold i64Max at hsum
    change (2 ^ 62 - 1 : ℤ) = _ at hraw
    omega
  · intro hsum
    have hraw : bid.raw ≤ ask.raw := (Price.le_iff hprec).mp hle
    rw [halved_of_le hbid hask hsum]
    have hbelow : bid.raw ≤ (bid.raw + ask.raw) / 2 := by omega
    have habove : (bid.raw + ask.raw) / 2 ≤ ask.raw := by omega
    have hmid : Price.precision ⟨(bid.raw + ask.raw) / 2, bid.precision⟩ = ask.precision := hprec
    exact ⟨(Price.le_iff (hprec.trans hmid.symm)).mpr hbelow, (Price.le_iff hmid).mpr habove, rfl,
      rfl⟩

/-! ## Books and quotes -/

namespace OrderBook

/-- Mid price, unless a side has no level. -/
def mid (book : OrderBook) : Option Price :=
  match book.bestBid, book.bestAsk with
  | some (bid, _), some (ask, _) =>
    match Price.fromRaw ((saturateI64 (bid.raw + ask.raw)).tdiv 2) book.precision with
    | .ok p => some p
    | .error _ => some bid
  | _, _ => none

theorem precision_price (book : OrderBook) (raw : ℤ) :
    (book.price raw).precision = book.precision := by
  cases h : Price.fromRaw raw book.precision with
  | ok p =>
    obtain ⟨-, -, rfl⟩ := Price.fromRaw_eq_ok_iff.mp h
    simp only [price, h]
  | error e =>
    simp only [price, h]
    rfl

theorem precision_bestBid {book : OrderBook} {q : Quantity} (h : book.bestBid = some (bid, q)) :
    book.precision = bid.precision := by
  obtain ⟨raw, -, rfl, -⟩ :=
    (book.best_eq_some_iff .buy fun _ _ ↦ List.max?_eq_some_iff).mp h
  exact (precision_price book raw).symm

theorem mid_eq_some {book : OrderBook} {bidSize askSize : Quantity}
    (hbid : book.bestBid = some (bid, bidSize)) (hask : book.bestAsk = some (ask, askSize)) :
    book.mid = some (halved bid ask bid.precision) := by
  rw [← precision_bestBid hbid]
  simp only [mid, hbid, hask, halved]
  cases Price.fromRaw ((saturateI64 (bid.raw + ask.raw)).tdiv 2) book.precision with
  | ok p => rfl
  | error e => rfl

end OrderBook

/-- **When the mid lies in the spread**, of a quote and of a book. -/
theorem mid_in_spread_iff (hbid : bid.Valid) (hask : ask.Valid)
    (hprec : bid.precision = ask.precision) (hle : bid ≤ ask) :
    (∀ q : QuoteTick, q.bid = bid → q.ask = ask →
      (MidOf bid ask q.mid ↔ bid.raw + ask.raw ≤ i64Max)) ∧
    ∀ (book : OrderBook) (bidSize askSize : Quantity), book.bestBid = some (bid, bidSize) →
      book.bestAsk = some (ask, askSize) →
      ((∃ p, book.mid = some p ∧ MidOf bid ask p) ↔ bid.raw + ask.raw ≤ i64Max) := by
  have hiff := midOf_halved_iff hbid hask hprec hle
  refine ⟨?_, fun book bidSize askSize hbestBid hbestAsk ↦ ?_⟩
  · rintro q rfl rfl
    exact hiff
  · rw [OrderBook.mid_eq_some hbestBid hbestAsk, ← hiff]
    simp only [Option.some.injEq, exists_eq_left']

section Instances

/-- A quote with two sides. -/
def quoteAt (bid ask : Price) : QuoteTick :=
  ⟨⟨⟨"BTCUSDT"⟩, ⟨"BINANCE"⟩⟩, bid, ask, ⟨1, 0⟩, ⟨1, 0⟩, 0, 0⟩

/-- The book with one level on each side. -/
def bookAt (bid ask : Price) : OrderBook :=
  (OrderBook.new ⟨⟨"BTCUSDT"⟩, ⟨"BINANCE"⟩⟩).applyAll
    [⟨⟨⟨"BTCUSDT"⟩, ⟨"BINANCE"⟩⟩, .add, .buy, bid, ⟨1, 0⟩, 1, 0, 0⟩,
      ⟨⟨⟨"BTCUSDT"⟩, ⟨"BINANCE"⟩⟩, .add, .sell, ask, ⟨1, 0⟩, 2, 0, 0⟩]

/-- The mid of two prices with a small sum. -/
theorem mid_in_spread_iff_small :
    MidOf ⟨100, 2⟩ ⟨103, 2⟩ (quoteAt ⟨100, 2⟩ ⟨103, 2⟩).mid ∧
    (bookAt ⟨100, 2⟩ ⟨103, 2⟩).mid = some ⟨101, 2⟩ ∧
    ∃ p, (bookAt ⟨100, 2⟩ ⟨103, 2⟩).mid = some p ∧ MidOf ⟨100, 2⟩ ⟨103, 2⟩ p := by
  have hbid : (⟨100, 2⟩ : Price).Valid := Price.valid_iff.mpr (by decide)
  have hask : (⟨103, 2⟩ : Price).Valid := Price.valid_iff.mpr (by decide)
  have hle : (⟨100, 2⟩ : Price) ≤ ⟨103, 2⟩ := (Price.le_iff (by rfl)).mpr (by decide)
  have hmid := mid_in_spread_iff hbid hask rfl hle
  refine ⟨(hmid.1 (quoteAt _ _) rfl rfl).mpr (by decide), by decide, ?_⟩
  exact (hmid.2 (bookAt ⟨100, 2⟩ ⟨103, 2⟩) ⟨1, 0⟩ ⟨1, 0⟩ (by decide)
    (by decide)).mpr (by decide)

/-- Two sides at one price, more than half of what fits: the mid is below both. -/
theorem mid_below_spread :
    (¬ ∀ q : QuoteTick, q.bid.Valid → q.ask.Valid → q.bid.precision = q.ask.precision →
      q.bid ≤ q.ask → MidOf q.bid q.ask q.mid) ∧
    ¬ ∀ (book : OrderBook) (bid ask : Price) (bidSize askSize : Quantity), bid.Valid → ask.Valid →
      bid.precision = ask.precision → bid ≤ ask → book.bestBid = some (bid, bidSize) →
      book.bestAsk = some (ask, askSize) → ∃ p, book.mid = some p ∧ MidOf bid ask p := by
  have hprice : (⟨6 * 10 ^ 18, 2⟩ : Price).Valid := Price.valid_iff.mpr (by decide)
  constructor
  · intro h
    have hmid := h (quoteAt ⟨6 * 10 ^ 18, 2⟩ ⟨6 * 10 ^ 18, 2⟩) hprice hprice rfl le_rfl
    exact absurd hmid.raw_eq (by decide)
  · intro h
    obtain ⟨p, hmid, hspread⟩ := h (bookAt ⟨6 * 10 ^ 18, 2⟩ ⟨6 * 10 ^ 18, 2⟩) _ _ ⟨1, 0⟩ ⟨1, 0⟩
      hprice hprice rfl le_rfl (by decide) (by decide)
    have hvalue : (bookAt ⟨6 * 10 ^ 18, 2⟩ ⟨6 * 10 ^ 18, 2⟩).mid = some ⟨2 ^ 62 - 1, 2⟩ := by
      decide
    rw [hvalue] at hmid
    cases hmid
    exact absurd hspread.raw_eq (by decide)

end Instances

end Coinext
