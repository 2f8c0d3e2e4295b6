import Coinext.Broker.Paper
import Coinext.Support.Run

/-!
# What the calls of the broker do

A call is made of three moves: an order of the table is filled by what remains of it, a fresh order
is put behind the others, and an order that is not final gets another status. `Handed` says which
orders a call hands to `fill`, and at which price, read off the broker before the call; the rules a
fill goes by (the session day, the previous closes) are the same from the first fill of the call to
its last (`SameRules`).

So what the moves keep of the broker and its table, the call keeps (`step_rule`).
-/

namespace Coinext.Broker

variable [Lookups]

/-- The order with another status, not one that a fill gives it. -/
def BrokerOrder.Restatus (o o' : BrokerOrder) : Prop :=
  ∃ status limitPrice tsUpdateNs rejectReason, status ≠ .filled ∧ status ≠ .partFilled
    ∧ o' = { o with status, limitPrice, tsUpdateNs, rejectReason }

omit [Lookups] in
theorem BrokerOrder.restatus_reject (o : BrokerOrder) (reason : RejectReason) (tsNs : ℤ) :
    o.Restatus (o.reject reason tsNs) :=
  ⟨.rejected, o.limitPrice, tsNs, some reason, by decide, by decide, rfl⟩

omit [Lookups] in
theorem BrokerOrder.restatus_accept (o : BrokerOrder) (limitPrice : Option ℚ) :
    o.Restatus { o with limitPrice := limitPrice, status := .accepted } :=
  ⟨.accepted, limitPrice, o.tsUpdateNs, o.rejectReason, by decide, by decide, rfl⟩

namespace PaperEquityBroker

/-- What a fill goes by and does not change. -/
structure SameRules (b b' : PaperEquityBroker) : Prop where
  enforceT1 : b'.enforceT1 = b.enforceT1
  enforcePriceLimits : b'.enforcePriceLimits = b.enforcePriceLimits
  prevClose : b'.prevClose = b.prevClose
  sessionDay : b'.sessionDay = b.sessionDay

/-- What nothing but a fill, or a fresh order, changes. -/
structure SameBooks (b b' : PaperEquityBroker) : Prop where
  enforceT1 : b'.enforceT1 = b.enforceT1
  enforcePriceLimits : b'.enforcePriceLimits = b.enforcePriceLimits
  cash : b'.cash = b.cash
  positions : b'.positions = b.positions
  boughtOn : b'.boughtOn = b.boughtOn
  fills : b'.fills = b.fills
  idSeq : b'.idSeq = b.idSeq

omit [Lookups] in
theorem SameRules.refl (b : PaperEquityBroker) : SameRules b b := ⟨rfl, rfl, rfl, rfl⟩

theorem SameRules.fill {b b' : PaperEquityBroker} (h : SameRules b b') (o : BrokerOrder)
    (price qty : ℚ) (tsNs : ℤ) : SameRules b (b'.fill o price qty tsNs).1 := by
  obtain ⟨cash, positions, fills, boughtOn, hframe⟩ := b'.fill_frame o price qty tsNs
  rw [hframe]
  exact ⟨h.enforceT1, h.enforcePriceLimits, h.prevClose, h.sessionDay⟩

theorem sameRules_nowNs {b b' : PaperEquityBroker} (h : SameRules b b') : SameRules b b'.nowNs.2 :=
  ⟨h.enforceT1, h.enforcePriceLimits, h.prevClose, h.sessionDay⟩

theorem sameBooks_nowNs (b : PaperEquityBroker) : SameBooks b b.nowNs.2 :=
  ⟨rfl, rfl, rfl, rfl, rfl, rfl, rfl⟩

/-- What a submitting call asks for. -/
structure Request where
  venue : String
  symbol : String
  side : Side
  orderType : OrderType
  qty : ℚ
  limitPrice : Option ℚ

def Call.request : Call → Option Request
  | .submitMarket venue symbol side qty => some ⟨venue, symbol, side, .market, qty, none⟩
  | .submitLimit venue symbol side qty price =>
    some ⟨venue, symbol, side, .limit, qty, some price⟩
  | _ => none

/-- The order made of a request, and the broker whose table it is about to join. -/
def fresh (b : PaperEquityBroker) (r : Request) : BrokerOrder × PaperEquityBroker :=
  b.newOrder r.venue r.symbol r.side r.orderType r.qty r.limitPrice

/-- The time of a bar. -/
def barTs (b : PaperEquityBroker) (tsNs : Option ℤ) : ℤ := tsNs.getD (Lookups.clock b.readings)

/-- The broker by whose rules a call fills. -/
def opened (b : PaperEquityBroker) : Call → PaperEquityBroker
  | .onBar venue symbol _ _ _ tsNs => b.openBar venue symbol (b.barTs tsNs)
  | _ => b

/-- The call hands the order to `fill` at a price: an order of the table whose limit the mark or the
bar reaches, or a fresh one. -/
inductive Handed (b : PaperEquityBroker) : Call → BrokerOrder → ℚ → Prop where
  | mark {venue symbol : String} {price : ℚ} {o : BrokerOrder} {px : ℚ} (hmem : o ∈ b.orders)
      (hreached : Reached (PyText.upper venue) (PyText.upper symbol) price price o px) :
      Handed b (.setMark venue symbol price) o px
  | bar {venue symbol : String} {high low close : ℚ} {tsNs : Option ℤ} {o : BrokerOrder} {px : ℚ}
      (hmem : o ∈ b.orders)
      (hreached : Reached (PyText.upper venue) (PyText.upper symbol) low high o px) :
      Handed b (.onBar venue symbol high low close tsNs) o px
  | market {venue symbol : String} {side : Side} {qty : ℚ} {o : BrokerOrder} {mark px : ℚ}
      (hfresh : (b.fresh ⟨venue, symbol, side, .market, qty, none⟩).1 = o)
      (hmark : b.marks.lookup o.key = some mark)
      (hcheck : b.checkPrice o.venue o.symbol side mark true = .ok px) :
      Handed b (.submitMarket venue symbol side qty) { o with status := .accepted } px
  | limit {venue symbol : String} {side : Side} {qty price : ℚ} {o : BrokerOrder} {mark px : ℚ}
      (hfresh : (b.fresh ⟨venue, symbol, side, .limit, qty, some price⟩).1 = o)
      (hmark : b.marks.lookup o.key = some mark)
      (hcheck : b.checkPrice o.venue o.symbol side price false = .ok px)
      (hreached : Reached o.venue o.symbol mark mark
        { o with limitPrice := some px, status := .accepted } px) :
      Handed b (.submitLimit venue symbol side qty price)
        { o with limitPrice := some px, status := .accepted } px
  | resting {venue symbol : String} {side : Side} {qty price : ℚ} {fresh o : BrokerOrder}
      {mark limit px : ℚ}
      (hfresh : (b.fresh ⟨venue, symbol, side, .limit, qty, some price⟩).1 = fresh)
      (hmark : b.marks.lookup fresh.key = some mark)
      (hcheck : b.checkPrice fresh.venue fresh.symbol side price false = .ok limit)
      (hmem : o ∈ b.orders) (hreached : Reached fresh.venue fresh.symbol mark mark o px) :
      Handed b (.submitLimit venue symbol side qty price) o px

/-- The moves of a call keep `I`. -/
structure MovesKeep (I : PaperEquityBroker → List BrokerOrder → Prop) (b : PaperEquityBroker)
    (call : Call) : Prop where
  books : ∀ b₁ b₂ orders, I b₁ orders → SameBooks b₁ b₂ → I b₂ orders
  restatus : ∀ b₁ front o o' back, o.status.terminal = false → o.Restatus o' →
    I b₁ (front ++ o :: back) → I b₁ (front ++ o' :: back)
  fresh : ∀ r ∈ call.request, 0 < r.qty → I b b.orders →
    I (b.fresh r).2 (b.orders ++ [(b.fresh r).1])
  fill : ∀ b₁ front o back px ts, Handed b call o px → SameRules (b.opened call) b₁ →
    I b₁ (front ++ o :: back) → I (b₁.fill o px (o.qty - o.filledQty) ts).1
      (front ++ (b₁.fill o px (o.qty - o.filledQty) ts).2 :: back)

variable {I : PaperEquityBroker → List BrokerOrder → Prop} {b : PaperEquityBroker} {call : Call}

namespace MovesKeep

/-- A sweep whose rounds do nothing, or fill an order that the call hands over. -/
theorem sweep (h : MovesKeep I b call) {table : List BrokerOrder} {reached : BrokerOrder → ℚ → Prop}
    {round : PaperEquityBroker → BrokerOrder → PaperEquityBroker × BrokerOrder}
    (hround : ∀ b₁ o, round b₁ o = (b₁, o) ∨ ∃ px ts, ∃ b₂ : PaperEquityBroker, reached o px
      ∧ SameBooks b₁ b₂ ∧ SameRules b₁ b₂ ∧ round b₁ o = b₂.fill o px (o.qty - o.filledQty) ts)
    (hhanded : ∀ o ∈ table, ∀ px, reached o px → Handed b call o px) {b₁ : PaperEquityBroker}
    (hI : I b₁ table) (hrules : SameRules (b.opened call) b₁) :
    I (sweep round b₁ table).1 (sweep round b₁ table).2 := by
  have hinv := sweep_induction (f := round)
    (I := fun b₁ done todo ↦ I b₁ (done ++ todo) ∧ SameRules (b.opened call) b₁
      ∧ ∀ o ∈ todo, o ∈ table) ?_ b₁ [] table ⟨hI, hrules, fun _ ho ↦ ho⟩
  · rw [List.append_nil, List.nil_append] at hinv
    exact hinv.1
  intro b₁ done o todo ⟨hI, hrules, htodo⟩
  refine ⟨?_, ?_, fun o' ho' ↦ htodo o' (List.mem_cons_of_mem o ho')⟩
  · rw [List.append_assoc, List.singleton_append]
    rcases hround b₁ o with heq | ⟨px, ts, b₂, hreached, hbooks, hsame, heq⟩
    · rw [heq]
      exact hI
    · rw [heq]
      have hhand := hhanded o (htodo o List.mem_cons_self) px hreached
      refine h.fill b₂ done o todo px ts hhand ?_ (h.books b₁ b₂ _ hI hbooks)
      exact ⟨hsame.1.trans hrules.1, hsame.2.trans hrules.2, hsame.3.trans hrules.3,
        hsame.4.trans hrules.4⟩
  · rcases hround b₁ o with heq | ⟨px, ts, b₂, -, -, hsame, heq⟩
    · rw [heq]
      exact hrules
    · rw [heq]
      refine SameRules.fill ?_ o px _ ts
      exact ⟨hsame.1.trans hrules.1, hsame.2.trans hrules.2, hsame.3.trans hrules.3,
        hsame.4.trans hrules.4⟩

/-- The limits that a mark reaches are filled. -/
theorem matchLimits (h : MovesKeep I b call) {b₁ : PaperEquityBroker} {venue symbol : String}
    {mark : ℚ} (hhanded : ∀ o ∈ b₁.orders, ∀ px, Reached venue symbol mark mark o px →
      Handed b call o px) (hrules : SameRules (b.opened call) b₁) (hI : I b₁ b₁.orders) :
    I (b₁.matchLimits venue symbol mark) (b₁.matchLimits venue symbol mark).orders := by
  have hround (b₂ : PaperEquityBroker) (o : BrokerOrder) :
      b₂.matchLimit venue symbol mark o = (b₂, o)
        ∨ ∃ px ts, ∃ b₃ : PaperEquityBroker, Reached venue symbol mark mark o px
          ∧ SameBooks b₂ b₃ ∧ SameRules b₂ b₃
          ∧ b₂.matchLimit venue symbol mark o = b₃.fill o px (o.qty - o.filledQty) ts := by
    rcases b₂.matchLimit_cases o venue symbol mark with heq | ⟨px, hreached, heq⟩
    · exact .inl heq
    · exact .inr ⟨px, _, _, hreached, b₂.sameBooks_nowNs, sameRules_nowNs (.refl b₂), heq⟩
  exact h.books _ _ _ (h.sweep hround hhanded hI hrules) ⟨rfl, rfl, rfl, rfl, rfl, rfl, rfl⟩

/-- The limits that a bar reaches are filled. -/
theorem onBar {venue symbol : String} {high low close : ℚ} {tsNs : Option ℤ}
    (h : MovesKeep I b (.onBar venue symbol high low close tsNs)) (hI : I b b.orders) :
    I (b.onBar venue symbol high low close tsNs)
      (b.onBar venue symbol high low close tsNs).orders := by
  have hround (ts : ℤ) (b₂ : PaperEquityBroker) (o : BrokerOrder) :
      b₂.matchBar (PyText.upper venue) (PyText.upper symbol) high low ts o = (b₂, o)
        ∨ ∃ px ts', ∃ b₃ : PaperEquityBroker,
          Reached (PyText.upper venue) (PyText.upper symbol) low high o px ∧ SameBooks b₂ b₃
            ∧ SameRules b₂ b₃
            ∧ b₂.matchBar (PyText.upper venue) (PyText.upper symbol) high low ts o
              = b₃.fill o px (o.qty - o.filledQty) ts' := by
    rcases b₂.matchBar_cases o (PyText.upper venue) (PyText.upper symbol) high low ts with
      heq | ⟨px, hreached, heq⟩
    · exact .inl heq
    · exact .inr ⟨px, ts, b₂, hreached, ⟨rfl, rfl, rfl, rfl, rfl, rfl, rfl⟩, .refl b₂, heq⟩
  have hhanded : ∀ o ∈ b.orders, ∀ px,
      Reached (PyText.upper venue) (PyText.upper symbol) low high o px →
      Handed b (.onBar venue symbol high low close tsNs) o px :=
    fun o ho px hreached ↦ .bar ho hreached
  cases tsNs with
  | none =>
    have hopened : I (b.nowNs.2.openBar venue symbol b.nowNs.1) b.orders :=
      h.books b _ _ hI ⟨rfl, rfl, rfl, rfl, rfl, rfl, rfl⟩
    have hswept := h.sweep (hround b.nowNs.1) hhanded hopened ⟨rfl, rfl, rfl, rfl⟩
    exact h.books _ _ _ hswept ⟨rfl, rfl, rfl, rfl, rfl, rfl, rfl⟩
  | some ts =>
    have hopened : I (b.openBar venue symbol ts) b.orders :=
      h.books b _ _ hI ⟨rfl, rfl, rfl, rfl, rfl, rfl, rfl⟩
    have hswept := h.sweep (hround ts) hhanded hopened ⟨rfl, rfl, rfl, rfl⟩
    exact h.books _ _ _ hswept ⟨rfl, rfl, rfl, rfl, rfl, rfl, rfl⟩

theorem joined (h : MovesKeep I b call) {r : Request} (hr : r ∈ call.request) (hqty : 0 < r.qty)
    (hI : I b b.orders) {o : BrokerOrder} (ho : (b.fresh r).1.Restatus o) :
    I (b.fresh r).2 ((b.fresh r).2.orders ++ [o]) :=
  h.restatus (b.fresh r).2 b.orders (b.fresh r).1 o [] rfl ho (h.fresh r hr hqty hI)

theorem submitMarket {venue symbol : String} {side : Side} {qty : ℚ}
    (h : MovesKeep I b (.submitMarket venue symbol side qty)) (hI : I b b.orders) :
    I (b.submitMarket venue symbol side qty).2 (b.submitMarket venue symbol side qty).2.orders := by
  rcases b.submitMarket_cases venue symbol side qty with heq | ⟨hqty, o, b₁, hnew, hcases⟩
  · rw [heq]
    exact hI
  have hfresh : b.fresh ⟨venue, symbol, side, .market, qty, none⟩ = (o, b₁) := hnew
  have ho : (b.fresh ⟨venue, symbol, side, .market, qty, none⟩).1 = o := by rw [hfresh]
  have hb₁ : (b.fresh ⟨venue, symbol, side, .market, qty, none⟩).2 = b₁ := by rw [hfresh]
  have hjoined {o' : BrokerOrder} (ho' : o.Restatus o') : I b₁.nowNs.2 (b₁.orders ++ [o']) := by
    have hj := h.joined (o := o') rfl hqty hI (ho ▸ ho')
    rw [hb₁] at hj
    exact h.books _ _ _ hj (sameBooks_nowNs b₁)
  rcases hcases with ⟨reason, heq⟩ | ⟨mark, px, hmark, hcheck, heq⟩
  · rw [heq]
    exact h.books _ _ _ (hjoined (o.restatus_reject reason b₁.nowNs.1))
      ⟨rfl, rfl, rfl, rfl, rfl, rfl, rfl⟩
  · -- the last order of the table is filled
    have hrules : SameRules b b₁.nowNs.2 := by
      rw [← hb₁]
      exact ⟨rfl, rfl, rfl, rfl⟩
    have hfilled := h.fill b₁.nowNs.2 b₁.orders { o with status := .accepted } [] px b₁.nowNs.1
      (.market ho hmark hcheck) hrules (hjoined (o.restatus_accept o.limitPrice))
    have hremain : o.qty - o.filledQty = qty := by
      rw [← ho]
      exact sub_zero qty
    dsimp only at hfilled
    rw [hremain] at hfilled
    rw [heq]
    obtain ⟨cash, positions, fills, boughtOn, hframe⟩ := b₁.nowNs.2.fill_frame
      { o with status := .accepted } px qty b₁.nowNs.1
    have horders : (b₁.nowNs.2.fill { o with status := .accepted } px qty b₁.nowNs.1).1.orders
        = b₁.orders := by
      rw [hframe]
      rfl
    rw [← horders] at hfilled
    exact h.books _ _ _ hfilled ⟨rfl, rfl, rfl, rfl, rfl, rfl, rfl⟩

theorem submitLimit {venue symbol : String} {side : Side} {qty price : ℚ}
    (h : MovesKeep I b (.submitLimit venue symbol side qty price)) (hI : I b b.orders) :
    I (b.submitLimit venue symbol side qty price).2
      (b.submitLimit venue symbol side qty price).2.orders := by
  rcases b.submitLimit_cases venue symbol side qty price with heq | ⟨hqty, o, b₁, hnew, hcases⟩
  · rw [heq]
    exact hI
  have hfresh : b.fresh ⟨venue, symbol, side, .limit, qty, some price⟩ = (o, b₁) := hnew
  have ho : (b.fresh ⟨venue, symbol, side, .limit, qty, some price⟩).1 = o := by rw [hfresh]
  have hb₁ : (b.fresh ⟨venue, symbol, side, .limit, qty, some price⟩).2 = b₁ := by rw [hfresh]
  have horders : b₁.orders = b.orders := by
    rw [← hb₁]
    rfl
  have hjoined {o' : BrokerOrder} (ho' : o.Restatus o') : I b₁ (b₁.orders ++ [o']) := by
    have hj := h.joined (o := o') rfl hqty hI (ho ▸ ho')
    rwa [hb₁] at hj
  rcases hcases with ⟨reason, heq⟩ | ⟨px, hcheck, ⟨-, heq⟩ | ⟨mark, hmark, heq⟩⟩
  · rw [heq]
    exact h.books _ _ _ (hjoined (o.restatus_reject reason b₁.nowNs.1))
      ⟨rfl, rfl, rfl, rfl, rfl, rfl, rfl⟩
  · rw [heq]
    exact h.books _ _ _ (hjoined (o.restatus_accept (some px))) ⟨rfl, rfl, rfl, rfl, rfl, rfl, rfl⟩
  · have hadded : I (b₁.addOrder { o with limitPrice := some px, status := .accepted })
        (b₁.addOrder { o with limitPrice := some px, status := .accepted }).orders :=
      h.books _ _ _ (hjoined (o.restatus_accept (some px))) ⟨rfl, rfl, rfl, rfl, rfl, rfl, rfl⟩
    rw [heq]
    refine h.matchLimits (fun x hx px' hreached ↦ ?_) ?_ hadded
    · rcases List.mem_append.mp hx with hx | hx
      · exact .resting ho hmark hcheck (horders ▸ hx) hreached
      · rw [List.mem_singleton] at hx
        subst hx
        have hpx : px' = px := Option.some.inj (hreached.limit.symm.trans rfl)
        rw [hpx] at hreached ⊢
        exact .limit ho hmark hcheck hreached
    · rw [← hb₁]
      exact ⟨rfl, rfl, rfl, rfl⟩

theorem cancel {clientOrderId : String} (h : MovesKeep I b (.cancel clientOrderId))
    (hI : I b b.orders) : I (b.cancel clientOrderId).2 (b.cancel clientOrderId).2.orders := by
  rcases b.cancel_cases clientOrderId with heq | ⟨front, o, back, hsplit, hactive, heq⟩
  · rw [heq]
    exact hI
  · rw [hsplit] at hI
    have hcanceled := h.restatus b front o _ back hactive
      ⟨.canceled, o.limitPrice, b.nowNs.1, o.rejectReason, by decide, by decide, rfl⟩ hI
    rw [heq]
    exact h.books _ _ _ hcanceled ⟨rfl, rfl, rfl, rfl, rfl, rfl, rfl⟩

end MovesKeep

/-- **Step rule.** What the moves of a call keep, the call keeps. -/
theorem step_rule (h : MovesKeep I b call) (hI : I b b.orders) :
    I (b.step call) (b.step call).orders := by
  cases call with
  | connect | disconnect | setSessionDay | setPrevClose =>
    exact h.books b _ _ hI ⟨rfl, rfl, rfl, rfl, rfl, rfl, rfl⟩
  | setMark venue symbol price =>
    have hmarked : I { b with
        marks := b.marks.insert (listingKey (PyText.upper venue) (PyText.upper symbol)) price }
        b.orders := h.books b _ _ hI ⟨rfl, rfl, rfl, rfl, rfl, rfl, rfl⟩
    exact h.matchLimits (fun _ ho _ hreached ↦ .mark ho hreached) ⟨rfl, rfl, rfl, rfl⟩ hmarked
  | onBar venue symbol high low close tsNs => exact h.onBar hI
  | submitMarket venue symbol side qty => exact h.submitMarket hI
  | submitLimit venue symbol side qty price => exact h.submitLimit hI
  | cancel clientOrderId => exact h.cancel hI

theorem switches_step (b : PaperEquityBroker) (call : Call) :
    (b.step call).enforceT1 = b.enforceT1
      ∧ (b.step call).enforcePriceLimits = b.enforcePriceLimits := by
  have hmoves : MovesKeep (fun b₁ _ ↦ b₁.enforceT1 = b.enforceT1
      ∧ b₁.enforcePriceLimits = b.enforcePriceLimits) b call := by
    refine ⟨fun _ _ _ h hbooks ↦ ?_, fun _ _ _ _ _ _ _ h ↦ h, fun _ _ _ _ ↦ ⟨rfl, rfl⟩,
      fun b₁ _ o _ px ts _ _ h ↦ ?_⟩
    · exact ⟨hbooks.enforceT1.trans h.1, hbooks.enforcePriceLimits.trans h.2⟩
    · have hrules := (SameRules.refl b₁).fill o px (o.qty - o.filledQty) ts
      exact ⟨hrules.enforceT1.trans h.1, hrules.enforcePriceLimits.trans h.2⟩
  exact step_rule hmoves ⟨rfl, rfl⟩

theorem switches_run (b : PaperEquityBroker) (calls : List Call) :
    (calls.foldl step b).enforceT1 = b.enforceT1
      ∧ (calls.foldl step b).enforcePriceLimits = b.enforcePriceLimits :=
  foldl_induction (I := fun b₁ ↦ b₁.enforceT1 = b.enforceT1
      ∧ b₁.enforcePriceLimits = b.enforcePriceLimits)
    (fun b₁ call h ↦ ⟨(switches_step b₁ call).1.trans h.1, (switches_step b₁ call).2.trans h.2⟩)
    ⟨rfl, rfl⟩ calls

end PaperEquityBroker

end Coinext.Broker
