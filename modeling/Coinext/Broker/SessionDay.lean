import Coinext.Broker.Holdings

/-!
# T+1 and the session day

The session day is one field for all venues, and every bar overwrites it with the local date of its
own venue. A buy is booked on the day the field has at that moment, and a sale is checked against
what is booked on the day it has then. So within a Shanghai day the position, less what is booked on
the day, grows by nothing and pays for every sale, as long as the orders of the listing find that
day in force (`Locked`); a bar of a venue further west breaks this.
-/

namespace Coinext.Broker

/-- What was sold of a listing. -/
def soldOf (key : String) (fills : List BrokerFill) : ℚ :=
  ((fills.filter fun f ↦ f.key = key ∧ f.side = .sell).map BrokerFill.qty).sum

theorem soldOf_append (key : String) (fills : List BrokerFill) (f : BrokerFill) :
    soldOf key (fills ++ [f])
      = soldOf key fills + if f.key = key ∧ f.side = .sell then f.qty else 0 := by
  rw [soldOf, List.filter_append, List.map_append, List.sum_append, ← soldOf]
  by_cases h : f.key = key ∧ f.side = .sell
  · rw [if_pos h, List.filter_cons_of_pos (by simpa using h), List.filter_nil, List.map_singleton,
      List.sum_singleton]
  · rw [if_neg h, List.filter_cons_of_neg (by simpa using h), List.filter_nil, List.map_nil,
      List.sum_nil]

variable [Lookups]

/-- The key of a listing of the exchanges in Shanghai and Shenzhen, however it is read. -/
def T1Listing (key : String) : Prop :=
  ∀ venue symbol, listingKey venue symbol = key → isT1Venue venue = true

theorem t1Listing_listingKey (venue symbol : String) (hvenue : isT1Venue venue = true)
    (hcolon : ':' ∉ venue.toList) (hcolon' : ':' ∉ symbol.toList) :
    T1Listing (listingKey venue symbol) := by
  intro v s hkey
  have hlist : v.toList ++ ':' :: s.toList = venue.toList ++ ':' :: symbol.toList := by
    have htext := congrArg String.toList hkey
    rw [listingKey, listingKey, String.toList_append, String.toList_append, String.toList_append,
      String.toList_append, List.append_assoc, List.append_assoc] at htext
    exact htext
  have heq : v.toList = venue.toList := by
    rcases List.append_eq_append_iff.mp hlist with ⟨front, hfront, htail⟩ | ⟨back, hback, htail⟩
    · cases front with
      | nil => rw [hfront, List.append_nil]
      | cons c front =>
        rw [List.cons_append, List.cons.injEq] at htail
        rw [hfront, ← htail.1] at hcolon
        exact absurd (List.mem_append_right _ List.mem_cons_self) hcolon
    · cases back with
      | nil => rw [hback, List.append_nil]
      | cons c back =>
        rw [List.cons_append, List.cons.injEq] at htail
        rw [htail.2] at hcolon'
        exact absurd (List.mem_append_right _ List.mem_cons_self) hcolon'
  rw [String.toList_inj.mp heq]
  exact hvenue

/-- The exchanges that settle T+1 keep Shanghai time. -/
def ShanghaiTime : Prop :=
  ∀ tsNs venue, isT1Venue venue = true →
    Calendars.sessionDate tsNs venue = Calendars.sessionDate tsNs "SSE"

namespace PaperEquityBroker

/-- The Shanghai day that a bar belongs to. -/
def barDay (b : PaperEquityBroker) : Call → Option Day
  | .onBar _ _ _ _ _ tsNs => some (Calendars.sessionDate (b.barTs tsNs) "SSE")
  | _ => none

/-- Where a call other than a bar hands an order of the listing to `fill`, the session day is the
given one. -/
def FindsDay (key : String) (day : Day) (b : PaperEquityBroker) : Call → Prop
  | .onBar .. => True
  | call => ∀ o px, Handed b call o px → o.key = key → b.sessionDay = some day

theorem sessionDay_openBar {b : PaperEquityBroker} (ht1 : b.enforceT1 = true)
    (venue symbol : String) (ts : ℤ) :
    (b.openBar venue symbol ts).sessionDay = some (tradeDateFromNs ts (PyText.upper venue)) :=
  if_pos ht1

/-- Of a day that began with a position `start` and after `n` fills: what was sold, and what is
still to be sold. -/
structure Locked (u : ℚ) (key : String) (day : Day) (start : ℚ) (n : ℕ) (b : PaperEquityBroker)
    (orders : List BrokerOrder) : Prop where
  holdings : Holdings u key b orders
  enforceT1 : b.enforceT1 = true
  count : n ≤ b.fills.length
  sold_nonneg : 0 ≤ soldOf key (b.fills.drop n)
  sold_le : soldOf key (b.fills.drop n) ≤ start
  sellable : b.position key - b.bought key day + soldOf key (b.fills.drop n) ≤ start

namespace Locked

variable {u : ℚ} {key : String} {day : Day} {start : ℚ} {n : ℕ} {b : PaperEquityBroker}
  {orders front back : List BrokerOrder} {o : BrokerOrder}

theorem opening (hu : slack < u) (h : Holdings u key b orders) (ht1 : b.enforceT1 = true)
    (day : Day) : Locked u key day (b.position key) b.fills.length b orders := by
  have hnone : soldOf key (b.fills.drop b.fills.length) = 0 := by
    rw [List.drop_length]
    rfl
  have hbought := (h.bought day).nonneg hu
  refine ⟨h, ht1, le_rfl, hnone.ge, ?_, ?_⟩
  · rw [hnone]
    exact h.position.nonneg hu
  · rw [hnone]
    linarith

theorem recount (h : Locked u key day start n b orders) :
    Locked u key day start b.fills.length b orders := by
  have hnone : soldOf key (b.fills.drop b.fills.length) = 0 := by
    rw [List.drop_length]
    rfl
  have hnonneg := h.sold_nonneg
  have hle := h.sold_le
  have hsellable := h.sellable
  refine ⟨h.holdings, h.enforceT1, le_rfl, hnone.ge, ?_, ?_⟩
  · rw [hnone]
    linarith
  · rw [hnone]
    linarith

/-- **A fill under the day in force.** A buy is booked on the day, and a sale is of what was not. -/
theorem fill (hu : slack < u) (h : Locked u key day start n b (front ++ o :: back))
    (hday : o.key = key → isT1Venue o.venue = true ∧ b.sessionDay = some day) (price : ℚ)
    (tsNs : ℤ) : Locked u key day start n (b.fill o price (o.qty - o.filledQty) tsNs).1
      (front ++ (b.fill o price (o.qty - o.filledQty) tsNs).2 :: back) := by
  have hholdings := h.holdings.fill hu price tsNs
  rcases b.fill_cases o price (o.qty - o.filledQty) tsNs with
    ⟨heq, -⟩ | ⟨hqty, hactive, ⟨reason, heq⟩ | ⟨hexec, -⟩⟩
  · rw [heq]
    exact h
  · rw [heq] at hholdings ⊢
    exact { h with holdings := hholdings }
  obtain ⟨cash, positions, fills, boughtOn, hframe⟩ := hexec.frame
  have hfills : (b.fill o price (o.qty - o.filledQty) tsNs).1.fills.drop n
      = b.fills.drop n ++ [b.report o price (o.qty - o.filledQty) tsNs] := by
    rw [hexec.fills, List.drop_append_of_le_length h.count]
  have hsold : soldOf key ((b.fill o price (o.qty - o.filledQty) tsNs).1.fills.drop n)
      = soldOf key (b.fills.drop n)
        + if o.key = key ∧ o.side = .sell then o.qty - o.filledQty else 0 := by
    rw [hfills, soldOf_append]
    rfl
  have hcount : n ≤ (b.fill o price (o.qty - o.filledQty) tsNs).1.fills.length := by
    rw [hexec.fills, List.length_append]
    exact h.count.trans (Nat.le_add_right _ _)
  have ht1 : (b.fill o price (o.qty - o.filledQty) tsNs).1.enforceT1 = true := by
    rw [hframe]
    exact h.enforceT1
  have hposition := hexec.position key
  have hbought := hexec.bought key day
  rw [signedQty_report] at hposition
  have hnonneg := h.sold_nonneg
  have hle := h.sold_le
  have hsellable := h.sellable
  by_cases hkey : o.key = key
  · obtain ⟨hvenue, hsession⟩ := hday hkey
    have hforce : b.dayInForce tsNs o.venue = day := by rw [dayInForce, hsession, Option.getD_some]
    rw [if_pos hkey.symm] at hposition
    cases hside : o.side with
    | buy =>
      rw [hside] at hposition
      rw [if_pos ⟨hside, ⟨h.enforceT1, hvenue⟩, hkey.symm, hforce.symm⟩] at hbought
      rw [if_neg (by simp [hside]), add_zero] at hsold
      dsimp only at hposition
      refine ⟨hholdings, ht1, hcount, ?_, ?_, ?_⟩ <;> rw [hsold]
      · exact hnonneg
      · exact hle
      · rw [hposition, hbought]
        linarith
    | sell =>
      have ho := h.holdings.orders o (List.mem_append_right _ List.mem_cons_self) hkey
      have hwhole : o.qty - o.filledQty = o.qty := by rw [ho.idle hactive, sub_zero]
      have hheld := hexec.held hside
      rw [hforce, hwhole] at hheld
      have hmost := (h.holdings.sold_le hu ho hkey hheld).2 h.enforceT1 hvenue
      rw [← hwhole] at hmost
      rw [hside] at hposition
      rw [if_neg (by simp [hside]), add_zero] at hbought
      rw [if_pos ⟨hkey, hside⟩] at hsold
      dsimp only at hposition
      refine ⟨hholdings, ht1, hcount, ?_, ?_, ?_⟩ <;> rw [hsold]
      · linarith
      · linarith
      · rw [hposition, hbought]
        linarith
  · rw [if_neg (Ne.symm hkey), add_zero] at hposition
    rw [if_neg (fun hbuy ↦ hkey hbuy.2.2.1.symm), add_zero] at hbought
    rw [if_neg (fun hsell ↦ hkey hsell.1), add_zero] at hsold
    refine ⟨hholdings, ht1, hcount, ?_, ?_, ?_⟩ <;> rw [hsold]
    · exact hnonneg
    · exact hle
    · rw [hposition, hbought]
      exact hsellable

/-- The moves of a call keep the account of the day. -/
theorem movesKeep (hu : slack < u) {call : Call} (hcall : RequestsInUnits u key call)
    (hhanded : ∀ o px, Handed b call o px → o.key = key →
      isT1Venue o.venue = true ∧ (b.opened call).sessionDay = some day) :
    MovesKeep (Locked u key day start n) b call where
  books b₁ b₂ orders h hbooks := by
    have hholdings := (movesKeep_holdings (b := b) hu hcall).books b₁ b₂ orders h.holdings hbooks
    refine ⟨hholdings, ?_, ?_, ?_, ?_, ?_⟩
    · rw [hbooks.enforceT1]
      exact h.enforceT1
    all_goals simp only [position, bought, hbooks.positions, hbooks.boughtOn, hbooks.fills]
    · exact h.count
    · exact h.sold_nonneg
    · exact h.sold_le
    · exact h.sellable
  restatus b₁ front o o' back hactive ho' h := { h with
    holdings := (movesKeep_holdings (b := b) hu hcall).restatus b₁ front o o' back hactive ho'
      h.holdings }
  fresh r hr hqty h :=
    have hholdings := (movesKeep_holdings (b := b) hu hcall).fresh r hr hqty h.holdings
    ⟨hholdings, h.enforceT1, h.count, h.sold_nonneg, h.sold_le, h.sellable⟩
  fill b₁ front o back px ts ho hrules h := by
    refine h.fill hu (fun hkey ↦ ?_) px ts
    rw [hrules.sessionDay]
    exact hhanded o px ho hkey

/-- **Step.** A call keeps the account of the day, if the orders it hands over find that day. -/
theorem step (hu : slack < u) (hkey : T1Listing key) (hshanghai : ShanghaiTime) {call : Call}
    (h : Locked u key day start n b b.orders) (hcall : RequestsInUnits u key call)
    (hbar : ∀ d ∈ b.barDay call, d = day) (hfinds : FindsDay key day b call) :
    Locked u key day start n (b.step call) (b.step call).orders := by
  refine step_rule (movesKeep hu hcall fun o px hhanded ho ↦ ?_) h
  have hvenue := hkey o.venue o.symbol ho
  refine ⟨hvenue, ?_⟩
  cases hhanded with
  | bar hmem hreached =>
    -- the bar's own venue settles T+1, and has just set the day
    rw [hreached.venue] at hvenue
    rw [opened, sessionDay_openBar h.enforceT1, tradeDateFromNs, hshanghai _ _ hvenue]
    exact congrArg some (hbar _ rfl)
  | mark hmem hreached => exact hfinds o px (.mark hmem hreached) ho
  | market hfresh hmark hcheck => exact hfinds _ px (.market hfresh hmark hcheck) ho
  | limit hfresh hmark hcheck hreached =>
    exact hfinds _ px (.limit hfresh hmark hcheck hreached) ho
  | resting hfresh hmark hcheck hmem hreached =>
    exact hfinds o px (.resting hfresh hmark hcheck hmem hreached) ho

/-- The account of the day at the end of a part of it. -/
theorem run (hu : slack < u) (hkey : T1Listing key) (hshanghai : ShanghaiTime) {calls : List Call}
    (h : Locked u key day start n b b.orders) (hcalls : ∀ call ∈ calls, RequestsInUnits u key call)
    (hbars : Along PaperEquityBroker.step (fun b call ↦ ∀ d ∈ b.barDay call, d = day) b calls)
    (hfinds : Along PaperEquityBroker.step (FindsDay key day) b calls) :
    Locked u key day start n (calls.foldl PaperEquityBroker.step b)
      (calls.foldl PaperEquityBroker.step b).orders :=
  ((along_of_forall_mem hcalls).and (hbars.and hfinds)).induction
    (I := fun b ↦ Locked u key day start n b b.orders)
    (fun _ _ h hok ↦ h.step hu hkey hshanghai hok.1 hok.2.1 hok.2.2) h

end Locked

/-- **T+1 over several venues.** Of a run, take the calls of a Shanghai day. As long as the orders
for a listing find this day in force, what fills sell of it in any part of the day is at most the
position before the day. -/
theorem soldOf_le_position {u : ℚ} (hu : slack < u) {key : String} (hkey : T1Listing key)
    (hshanghai : ShanghaiTime) (startingCash : List (String × ℚ)) (limits clamp : Bool)
    (front morning window : List Call)
    (hunits : ∀ call ∈ front ++ morning ++ window, RequestsInUnits u key call) {day : Day}
    (hbars : Along step (fun b call ↦ ∀ d ∈ b.barDay call, d = day)
      (front.foldl step (new startingCash true limits clamp)) (morning ++ window))
    (hfinds : Along step (FindsDay key day)
      (front.foldl step (new startingCash true limits clamp)) (morning ++ window)) :
    soldOf key (((front ++ morning ++ window).foldl step
        (new startingCash true limits clamp)).fills.drop
          ((front ++ morning).foldl step (new startingCash true limits clamp)).fills.length)
      ≤ (front.foldl step (new startingCash true limits clamp)).position key := by
  have hcalls : ∀ part : List Call, part ⊆ front ++ morning ++ window →
      ∀ call ∈ part, RequestsInUnits u key call :=
    fun _ hpart call hcall ↦ hunits call (hpart hcall)
  have ht1 : (front.foldl step (new startingCash true limits clamp)).enforceT1 = true :=
    (switches_run (new startingCash true limits clamp) front).1
  have hholdings := holdings_run hu startingCash true limits clamp (hcalls front (by simp))
  obtain ⟨hbars₁, hbars₂⟩ := along_append.mp hbars
  obtain ⟨hfinds₁, hfinds₂⟩ := along_append.mp hfinds
  have hmorning := (Locked.opening hu hholdings ht1 day).run hu hkey hshanghai
    (hcalls morning (by simp)) hbars₁ hfinds₁
  have hwindow := hmorning.recount.run hu hkey hshanghai (hcalls window (by simp)) hbars₂ hfinds₂
  rw [List.foldl_append, List.foldl_append, List.foldl_append]
  exact hwindow.sold_le

end PaperEquityBroker

end Coinext.Broker

namespace Coinext.Broker.PaperEquityBroker

section Instances

attribute [local instance] sampleLookups

/-- A bar of a listing in Shanghai, at a time of the day that counts in seconds. -/
def shanghaiBar (day time : ℤ) : Call :=
  .onBar "SSE" "600000" 10 10 10 (some ((day * 86400 + time) * 10 ^ 9))

/-- A bar of New York at midnight UTC, where it is still the evening before. -/
def newYorkBar (day : ℤ) : Call := .onBar "NYSE" "IBM" 150 150 150 (some (day * 86400 * 10 ^ 9))

def funded : PaperEquityBroker := new [("CNY", 100000)] true true true

/-- What is bought after the bar of Shanghai is sold after the bar of New York. -/
theorem sold_on_day_bought :
    Along step (fun b call ↦ ∀ d ∈ b.barDay call, d = 19676) (funded.step .connect)
        [shanghaiBar 19676 0, .submitMarket "SSE" "600000" .buy 100, newYorkBar 19676,
          .submitMarket "SSE" "600000" .sell 100, shanghaiBar 19676 25200]
      ∧ (funded.step .connect).position "SSE:600000" = 0
      ∧ soldOf "SSE:600000" (([.connect, shanghaiBar 19676 0,
          .submitMarket "SSE" "600000" .buy 100, newYorkBar 19676,
          .submitMarket "SSE" "600000" .sell 100, shanghaiBar 19676 25200].foldl step
            funded).fills.drop
              ([.connect, shanghaiBar 19676 0].foldl step funded).fills.length) = 100 := by
  decide +kernel

/-- A hundred shares are bought the day before. -/
def dayBefore : List Call :=
  [.connect, shanghaiBar 19675 0, .submitMarket "SSE" "600000" .buy 100]

/-- A hundred shares are bought on the day, and twice as many are to be sold. -/
def trades : List Call :=
  [.submitMarket "SSE" "600000" .buy 100, .submitMarket "SSE" "600000" .sell 100,
    .submitMarket "SSE" "600000" .sell 100]

/-- The hundred shares of the day before may be sold, and those of the day may not. -/
theorem soldOf_le_position_sample :
    soldOf "SSE:600000" (((dayBefore ++ [shanghaiBar 19676 0] ++ trades).foldl step
        funded).fills.drop ((dayBefore ++ [shanghaiBar 19676 0]).foldl step funded).fills.length)
      ≤ (dayBefore.foldl step funded).position "SSE:600000" := by
  have hshanghai : ShanghaiTime := by
    intro tsNs venue hvenue
    have hmem : venue ∈ t1Venues := of_decide_eq_true hvenue
    exact congrArg (fun offset : ℤ ↦ (tsNs / 10 ^ 9 + offset) / 86400)
      ((if_pos hmem).trans (if_pos (by decide)).symm)
  have hkey : T1Listing "SSE:600000" :=
    t1Listing_listingKey "SSE" "600000" (by decide) (by decide) (by decide)
  have hday : Along step (fun b call ↦ (∀ d ∈ b.barDay call, d = 19676)
        ∧ (b.barDay call = none → b.sessionDay = some 19676))
      (dayBefore.foldl step funded) ([shanghaiBar 19676 0] ++ trades) := by
    decide +kernel
  refine soldOf_le_position slack_lt_one hkey hshanghai _ true true dayBefore
    [shanghaiBar 19676 0] trades (fun call hcall r hr _ ↦ ?_)
    (hday.imp fun b call hok ↦ hok.1) (hday.imp fun b call hok ↦ ?_)
  · have hqty : ∀ call ∈ dayBefore ++ [shanghaiBar 19676 0] ++ trades, ∀ r ∈ call.request,
        r.qty = 100 := by
      decide
    exact ⟨100, by rw [hqty call hcall r hr]; norm_num⟩
  · cases call with
    | onBar => trivial
    | _ => exact fun _ _ _ _ ↦ hok.2 rfl

end Instances

end Coinext.Broker.PaperEquityBroker
