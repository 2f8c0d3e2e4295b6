import Coinext.Broker.Holdings
import Mathlib.Algebra.Order.BigOperators.Group.List
import Mathlib.Tactic.FinCases

/-!
# The accounts of the paper broker

Cash, positions, orders and the list of fills are updated one by one, and each is determined by the
fills: cash by what they brought in, positions by their signed quantities, and what is filled of an
order by its own fills. In whole shares a position never goes below zero, since the slack of the
comparison in a sale is less than a share.

The invariant is about the broker and its table of orders, since within a loop the orders change one
after the other (`Accounts.fill`).
-/

namespace Coinext.Broker

/-! ## The invariant -/

/-- The fills of an order. -/
def fillsOf (clientOrderId : String) (fills : List BrokerFill) : List BrokerFill :=
  fills.filter fun f ↦ f.clientOrderId = clientOrderId

theorem fillsOf_append (id : String) (fills : List BrokerFill) (f : BrokerFill) :
    fillsOf id (fills ++ [f])
      = fillsOf id fills ++ if f.clientOrderId = id then [f] else [] := by
  rw [fillsOf, List.filter_append, ← fillsOf]
  by_cases h : f.clientOrderId = id
  · rw [if_pos h, List.filter_cons_of_pos (by simpa using h), List.filter_nil]
  · rw [if_neg h, List.filter_cons_of_neg (by simpa using h), List.filter_nil]

/-- What is recorded of an order agrees with its fills. -/
structure OrderAccounts (fills : List BrokerFill) (o : BrokerOrder) : Prop where
  filled : o.filledQty = ((fillsOf o.clientOrderId fills).map BrokerFill.qty).sum
  /-- An order is filled at once, or not at all. -/
  status : o.status = .filled ∧ o.filledQty = o.qty
    ∨ o.status ≠ .filled ∧ o.status ≠ .partFilled ∧ o.filledQty = 0
  qty_pos : 0 < o.qty

namespace OrderAccounts

variable {fills : List BrokerFill} {o o' : BrokerOrder} {f : BrokerFill}

theorem filledQty_eq_zero (h : OrderAccounts fills o) (hactive : o.status.terminal = false) :
    o.filledQty = 0 := by
  rcases h.status with ⟨hstatus, -⟩ | ⟨-, -, hnone⟩
  · rw [hstatus] at hactive
    cases hactive
  · exact hnone

theorem restatus (h : OrderAccounts fills o) (hactive : o.status.terminal = false)
    (ho' : o.Restatus o') : OrderAccounts fills o' := by
  obtain ⟨status, limitPrice, tsUpdateNs, rejectReason, hfilled, hpart, rfl⟩ := ho'
  exact ⟨h.filled, .inr ⟨hfilled, hpart, h.filledQty_eq_zero hactive⟩, h.qty_pos⟩

theorem append (h : OrderAccounts fills o) (hid : f.clientOrderId ≠ o.clientOrderId) :
    OrderAccounts (fills ++ [f]) o := by
  have hsame : fillsOf o.clientOrderId (fills ++ [f]) = fillsOf o.clientOrderId fills := by
    rw [fillsOf_append, if_neg hid, List.append_nil]
  exact { h with filled := by rw [hsame]; exact h.filled }

theorem filledBy (h : OrderAccounts fills o) (hnone : o.filledQty = 0)
    (hid : f.clientOrderId = o.clientOrderId) (hqty : f.qty = o.qty) (price : ℚ) (tsNs : ℤ) :
    OrderAccounts (fills ++ [f]) (PaperEquityBroker.filledBy o price o.qty tsNs) := by
  have hsum : (PaperEquityBroker.filledBy o price o.qty tsNs).filledQty = o.qty := by
    rw [PaperEquityBroker.filledBy, hnone, zero_add]
  refine ⟨?_, .inl ⟨?_, hsum⟩, h.qty_pos⟩
  · rw [hsum]
    change _ = ((fillsOf o.clientOrderId (fills ++ [f])).map BrokerFill.qty).sum
    rw [fillsOf_append, if_pos hid, List.map_append, List.sum_append, List.map_singleton,
      List.sum_singleton, hqty, ← h.filled, hnone, zero_add]
  · rw [PaperEquityBroker.filledBy, hnone, zero_add]
    refine if_pos ?_
    rw [PaperEquityBroker.slack]
    linarith

end OrderAccounts

variable [Lookups]

/-- The broker, with a table of orders, agrees with its fills. -/
structure Accounts (opening : String → ℚ) (b : PaperEquityBroker) (orders : List BrokerOrder) :
    Prop where
  cash : ∀ c, b.balance c = opening c + (b.fills.map (BrokerFill.cashFlow c)).sum
  position : ∀ k, b.position k = (b.fills.map (BrokerFill.signedQty k)).sum
  cash_nonneg : ∀ c, 0 ≤ b.balance c
  fills_pos : ∀ f ∈ b.fills, 0 < f.qty
  ids : orders.map BrokerOrder.clientOrderId = (List.range b.idSeq).map fun n ↦ paperId (n + 1)
  owned : ∀ f ∈ b.fills, ∃ n < b.idSeq, f.clientOrderId = paperId (n + 1)
  orders : ∀ o ∈ orders, OrderAccounts b.fills o

/-- The fees are between nothing and everything. -/
def FeesBounded : Prop :=
  ∀ venue symbol, 0 ≤ Lookups.takerFee venue symbol ∧ Lookups.takerFee venue symbol ≤ 1

/-! ## Filling an order of the table -/

namespace Accounts

variable {opening : String → ℚ} {b : PaperEquityBroker} {front back : List BrokerOrder}
  {o : BrokerOrder}

theorem nodup_ids {orders : List BrokerOrder} (h : Accounts opening b orders) :
    (orders.map BrokerOrder.clientOrderId).Nodup := by
  rw [h.ids]
  exact List.nodup_range.map fun m n hmn ↦ Nat.succ_injective (paperId_injective hmn)

/-- An order of the table is replaced by another account of it. -/
theorem replace (h : Accounts opening b (front ++ o :: back)) {o' : BrokerOrder}
    (ho' : OrderAccounts b.fills o') (hid : o'.clientOrderId = o.clientOrderId) :
    Accounts opening b (front ++ o' :: back) where
  cash := h.cash
  position := h.position
  cash_nonneg := h.cash_nonneg
  fills_pos := h.fills_pos
  ids := by
    rw [← h.ids, List.map_append, List.map_append, List.map_cons, List.map_cons, hid]
  owned := h.owned
  orders x hx := by
    rcases List.mem_append.mp hx with hx | hx
    · exact h.orders x (List.mem_append_left _ hx)
    · rcases List.mem_cons.mp hx with rfl | hx
      · exact ho'
      · exact h.orders x (List.mem_append_right _ (List.mem_cons_of_mem _ hx))

/-- What goes through keeps the accounts. -/
theorem executed (hfees : FeesBounded) (h : Accounts opening b (front ++ o :: back)) {price : ℚ}
    {tsNs : ℤ} {b' : PaperEquityBroker} {o' : BrokerOrder}
    (hexec : PaperEquityBroker.Executed b o price o.qty tsNs b') (hnone : o.filledQty = 0)
    (ho' : o' = PaperEquityBroker.filledBy o price o.qty tsNs) :
    Accounts opening b' (front ++ o' :: back) := by
  have ho := h.orders o (List.mem_append_right _ List.mem_cons_self)
  have hreport : (b.report o price o.qty tsNs).clientOrderId = o.clientOrderId := rfl
  have hfee := hfees o.venue o.symbol
  have hnotional := abs_nonneg (o.qty * price)
  obtain ⟨cash, positions, fills, boughtOn, hframe⟩ := hexec.frame
  have hseq : b'.idSeq = b.idSeq := by rw [hframe]
  refine ⟨fun c ↦ ?_, fun k ↦ ?_, fun c ↦ ?_, fun f hf ↦ ?_, ?_, fun f hf ↦ ?_, fun x hx ↦ ?_⟩
  · rw [hexec.balance, hexec.fills, h.cash, List.map_append, List.sum_append, List.map_singleton,
      List.sum_singleton, add_assoc]
  · rw [hexec.position, hexec.fills, h.position, List.map_append, List.sum_append,
      List.map_singleton, List.sum_singleton]
  · -- a buy is covered, and the fee of a sale is at most what the sale brings in
    rw [hexec.balance, PaperEquityBroker.cashFlow_report]
    have hold := h.cash_nonneg c
    split_ifs with hc
    · cases hside : o.side with
      | buy =>
        have hcovered := hexec.covered hside
        rw [← hc] at hcovered
        dsimp only
        linarith
      | sell =>
        have hle := mul_le_of_le_one_right hnotional hfee.2
        dsimp only
        linarith
    · rwa [add_zero]
  · rw [hexec.fills] at hf
    rcases List.mem_append.mp hf with hf | hf
    · exact h.fills_pos f hf
    · rw [List.mem_singleton.mp hf]
      exact ho.qty_pos
  · rw [hseq, ← h.ids, List.map_append, List.map_append, List.map_cons, List.map_cons, ho']
    rfl
  · rw [hexec.fills] at hf
    rw [hseq]
    rcases List.mem_append.mp hf with hf | hf
    · exact h.owned f hf
    · have hmem : o.clientOrderId ∈ (front ++ o :: back).map BrokerOrder.clientOrderId :=
        List.mem_map.mpr ⟨o, List.mem_append_right _ List.mem_cons_self, rfl⟩
      rw [h.ids] at hmem
      obtain ⟨n, hn, hid⟩ := List.mem_map.mp hmem
      exact ⟨n, List.mem_range.mp hn, by rw [List.mem_singleton.mp hf, hreport, hid]⟩
  · rw [hexec.fills]
    have hnodup := h.nodup_ids
    rw [List.map_append, List.map_cons, List.nodup_middle, List.nodup_cons, ← List.map_append]
      at hnodup
    have hother (hx : x ∈ front ++ back) : OrderAccounts (b.fills ++ [b.report o price o.qty tsNs])
        x := by
      refine (h.orders x ?_).append fun hid ↦ ?_
      · rw [List.mem_append, List.mem_cons]
        rw [List.mem_append] at hx
        tauto
      · exact hnodup.1 (List.mem_map.mpr ⟨x, hx, hid.symm⟩)
    rcases List.mem_append.mp hx with hx | hx
    · exact hother (List.mem_append_left _ hx)
    · rcases List.mem_cons.mp hx with rfl | hx
      · rw [ho']
        exact ho.filledBy hnone hreport rfl price tsNs
      · exact hother (List.mem_append_right _ hx)

/-- **A fill keeps the accounts.** -/
theorem fill (hfees : FeesBounded) (h : Accounts opening b (front ++ o :: back)) (price : ℚ)
    (tsNs : ℤ) : Accounts opening (b.fill o price (o.qty - o.filledQty) tsNs).1
      (front ++ (b.fill o price (o.qty - o.filledQty) tsNs).2 :: back) := by
  have ho := h.orders o (List.mem_append_right _ List.mem_cons_self)
  rcases b.fill_cases o price (o.qty - o.filledQty) tsNs with
    ⟨heq, -⟩ | ⟨hqty, hactive, ⟨reason, heq⟩ | ⟨hexec, hfilled⟩⟩
  · rw [heq]
    exact h
  · rw [heq]
    exact h.replace (ho.restatus hactive (o.restatus_reject reason tsNs)) rfl
  · have hnone := ho.filledQty_eq_zero hactive
    rw [hnone, sub_zero] at hexec hfilled ⊢
    exact h.executed hfees hexec hnone hfilled

theorem fresh (h : Accounts opening b b.orders) {r : PaperEquityBroker.Request} (hqty : 0 < r.qty) :
    Accounts opening (b.fresh r).2 (b.orders ++ [(b.fresh r).1]) := by
  have hnone : fillsOf (paperId (b.idSeq + 1)) b.fills = [] := by
    refine List.filter_eq_nil_iff.mpr fun f hf ↦ ?_
    obtain ⟨n, hn, hid⟩ := h.owned f hf
    rw [decide_eq_true_eq, hid]
    exact fun heq ↦ absurd (Nat.succ_injective (paperId_injective heq)) hn.ne
  have ho : OrderAccounts b.fills (b.fresh r).1 := by
    refine ⟨?_, .inr ⟨?_, ?_, rfl⟩, hqty⟩
    · change 0 = ((fillsOf (paperId (b.idSeq + 1)) b.fills).map BrokerFill.qty).sum
      rw [hnone]
      rfl
    · rintro ⟨⟩
    · rintro ⟨⟩
  refine ⟨h.cash, h.position, h.cash_nonneg, h.fills_pos, ?_, fun f hf ↦ ?_, fun x hx ↦ ?_⟩
  · change (b.orders ++ [_]).map _ = (List.range (b.idSeq + 1)).map _
    rw [List.range_succ, List.map_append, List.map_append, h.ids]
    rfl
  · obtain ⟨n, hn, hid⟩ := h.owned f hf
    exact ⟨n, Nat.lt_succ_of_lt hn, hid⟩
  · rcases List.mem_append.mp hx with hx | hx
    · exact h.orders x hx
    · rw [List.mem_singleton.mp hx]
      exact ho

end Accounts

namespace PaperEquityBroker

theorem movesKeep_accounts (hfees : FeesBounded) (opening : String → ℚ) (b : PaperEquityBroker)
    (call : Call) : MovesKeep (Accounts opening) b call where
  books b₁ b₂ orders h hbooks := by
    obtain ⟨h1, h2, h3, h4, h5, h6, h7⟩ := h
    constructor <;> simp only [balance, position, hbooks.cash, hbooks.positions, hbooks.fills,
      hbooks.idSeq] at *
    · exact h1
    · exact h2
    · exact h3
    · exact h4
    · exact h5
    · exact h6
    · exact h7
  restatus b₁ front o o' back hactive ho' h := by
    refine h.replace ((h.orders o (List.mem_append_right _ List.mem_cons_self)).restatus hactive
      ho') ?_
    obtain ⟨_, _, _, _, -, -, rfl⟩ := ho'
    rfl
  fresh r _ hqty h := h.fresh hqty
  fill b₁ front o back px ts _ _ h := h.fill hfees px ts

theorem openingCash_nonneg {startingCash : List (String × ℚ)} (hcash : ∀ p ∈ startingCash, 0 ≤ p.2)
    (c : String) : 0 ≤ ((openingCash startingCash).lookup c).getD 0 := by
  refine (along_of_forall_mem hcash).induction
    (I := fun t : Table String ℚ ↦ 0 ≤ (t.lookup c).getD 0) (fun t p ht hp ↦ ?_) le_rfl
  rw [getD_lookup_insert]
  split_ifs
  · exact hp
  · exact ht

theorem accounts_new {startingCash : List (String × ℚ)} (hcash : ∀ p ∈ startingCash, 0 ≤ p.2)
    (t1 limits clamp : Bool) :
    Accounts (new startingCash t1 limits clamp).balance (new startingCash t1 limits clamp) [] := by
  refine ⟨fun c ↦ (add_zero _).symm, fun k ↦ rfl, openingCash_nonneg hcash, fun f hf ↦ ?_, rfl,
    fun f hf ↦ ?_, fun o ho ↦ ?_⟩
  · exact absurd hf List.not_mem_nil
  · exact absurd hf List.not_mem_nil
  · exact absurd ho List.not_mem_nil

/-- Accounts that agree, at the end of a run. -/
theorem accounts_run (hfees : FeesBounded) {startingCash : List (String × ℚ)}
    (hcash : ∀ p ∈ startingCash, 0 ≤ p.2) (t1 limits clamp : Bool) (calls : List Call) :
    Accounts (new startingCash t1 limits clamp).balance
      (calls.foldl step (new startingCash t1 limits clamp))
      (calls.foldl step (new startingCash t1 limits clamp)).orders :=
  foldl_induction (I := fun b ↦ Accounts (new startingCash t1 limits clamp).balance b b.orders)
    (fun b call h ↦ step_rule (movesKeep_accounts hfees _ b call) h)
    (accounts_new hcash t1 limits clamp) calls

end PaperEquityBroker

/-! ## The law -/

/-- What the buys in a currency cost. -/
def spent (currency : String) (fills : List BrokerFill) : ℚ :=
  ((fills.filter fun f ↦ f.side = .buy ∧ Lookups.currency f.venue = currency).map
    fun f ↦ |f.qty * f.price| + f.fee).sum

/-- What the sales in a currency brought in. -/
def earned (currency : String) (fills : List BrokerFill) : ℚ :=
  ((fills.filter fun f ↦ f.side = .sell ∧ Lookups.currency f.venue = currency).map
    fun f ↦ |f.qty * f.price| - f.fee).sum

theorem sum_cashFlow (currency : String) (fills : List BrokerFill) :
    (fills.map (BrokerFill.cashFlow currency)).sum
      = earned currency fills - spent currency fills := by
  induction fills with
  | nil => simp [earned, spent]
  | cons f fills ih =>
    rw [List.map_cons, List.sum_cons, ih, BrokerFill.cashFlow]
    by_cases hc : Lookups.currency f.venue = currency
    · cases hside : f.side <;> simp [earned, spent, hc, hside] <;> ring
    · simp [earned, spent, hc]

/-- The accounts of a broker that opened as `b₀`. -/
structure Settled (b₀ b : PaperEquityBroker) : Prop where
  cash : ∀ c, b.balance c = b₀.balance c - spent c b.fills + earned c b.fills
  position : ∀ k, b.position k = (b.fills.map (BrokerFill.signedQty k)).sum
  cash_nonneg : ∀ c, 0 ≤ b.balance c
  position_nonneg : ∀ k, 0 ≤ b.position k
  filled : ∀ o ∈ b.orders,
    o.filledQty = ((fillsOf o.clientOrderId b.fills).map BrokerFill.qty).sum
  filled_le : ∀ o ∈ b.orders, o.filledQty ≤ o.qty
  /-- A rejected order has no fills. -/
  rejected : ∀ o ∈ b.orders, o.status = .rejected → fillsOf o.clientOrderId b.fills = []

namespace PaperEquityBroker

theorem settled_of_accounts {b₀ b : PaperEquityBroker} (h : Accounts b₀.balance b b.orders)
    (hheld : ∀ key, 0 ≤ b.position key) : Settled b₀ b where
  cash c := by
    rw [h.cash, sum_cashFlow]
    ring
  position := h.position
  cash_nonneg := h.cash_nonneg
  position_nonneg := hheld
  filled o ho := (h.orders o ho).filled
  filled_le o ho := by
    have hpos := (h.orders o ho).qty_pos
    rcases (h.orders o ho).status with ⟨-, heq⟩ | ⟨-, -, heq⟩
    · exact heq.le
    · rw [heq]
      exact hpos.le
  rejected o ho hstatus := by
    have hnone : o.filledQty = 0 := by
      rcases (h.orders o ho).status with ⟨hfilled, -⟩ | ⟨-, -, hnone⟩
      · rw [hstatus] at hfilled
        cases hfilled
      · exact hnone
    -- positive quantities that sum to nothing
    rw [(h.orders o ho).filled] at hnone
    by_contra hne
    refine absurd hnone (List.sum_pos _ (fun q hq ↦ ?_) (by simpa using hne)).ne'
    obtain ⟨f, hf, rfl⟩ := List.mem_map.mp hq
    exact h.fills_pos f (List.mem_of_mem_filter hf)

theorem eq_of_fill_rejected {b : PaperEquityBroker} {o : BrokerOrder} {price qty : ℚ} {tsNs : ℤ}
    (h : (b.fill o price qty tsNs).2.status = .rejected) : (b.fill o price qty tsNs).1 = b := by
  rcases b.fill_cases o price qty tsNs with ⟨heq, -⟩ | ⟨-, -, ⟨_, heq⟩ | ⟨-, heq⟩⟩
  · rw [heq]
  · rw [heq]
  · rw [heq, filledBy] at h
    dsimp only at h
    split_ifs at h

/-- **Accounting.** After every run of calls in whole shares the broker's cash, positions and orders
agree with its fills, and neither cash nor positions are negative; and an order that a fill rejects
changes neither. -/
theorem settled_run (hfees : FeesBounded) {startingCash : List (String × ℚ)}
    (hcash : ∀ p ∈ startingCash, 0 ≤ p.2) (t1 limits clamp : Bool) {calls : List Call}
    (hwhole : ∀ call ∈ calls, ∀ key, RequestsInUnits 1 key call) :
    Settled (new startingCash t1 limits clamp)
        (calls.foldl step (new startingCash t1 limits clamp))
      ∧ ∀ (b : PaperEquityBroker) o price qty tsNs,
        (b.fill o price qty tsNs).2.status = .rejected → (b.fill o price qty tsNs).1 = b :=
  ⟨settled_of_accounts (accounts_run hfees hcash t1 limits clamp calls) fun key ↦
    (holdings_run slack_lt_one startingCash t1 limits clamp fun call hcall ↦
      hwhole call hcall key).position.nonneg slack_lt_one,
    fun _ _ _ _ _ h ↦ eq_of_fill_rejected h⟩

end PaperEquityBroker

end Coinext.Broker

namespace Coinext.Broker.PaperEquityBroker

section Instances

attribute [local instance] sampleLookups

/-- Ten shares are bought and four of them sold. -/
theorem settled_run_sample :
    Settled (new [("USD", 100000)] true true true) (([.connect, .setMark "NASDAQ" "AAPL" 100,
        .submitMarket "NASDAQ" "AAPL" .buy 10, .submitMarket "NASDAQ" "AAPL" .sell 4] :
          List Call).foldl step (new [("USD", 100000)] true true true))
      ∧ (([.connect, .setMark "NASDAQ" "AAPL" 100, .submitMarket "NASDAQ" "AAPL" .buy 10,
          .submitMarket "NASDAQ" "AAPL" .sell 4] : List Call).foldl step
        (new [("USD", 100000)] true true true)).position "NASDAQ:AAPL" = 6 := by
  refine ⟨(settled_run (fun venue symbol ↦ ?_) (fun p hp ↦ ?_) true true true
    fun call hcall key r hr _ ↦ ?_).1, by decide +kernel⟩
  · change 0 ≤ (if venue ∈ t1Venues then (3 / 4000 : ℚ) else 1 / 10000)
      ∧ (if venue ∈ t1Venues then (3 / 4000 : ℚ) else 1 / 10000) ≤ 1
    split_ifs <;> norm_num
  · rw [List.mem_singleton.mp hp]
    norm_num
  · fin_cases hcall <;> cases hr
    · exact ⟨10, by norm_num⟩
    · exact ⟨4, by norm_num⟩

end Instances

end Coinext.Broker.PaperEquityBroker
