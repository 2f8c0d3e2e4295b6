import Coinext.Broker.StepRule

/-!
# Holdings in units

A sale is checked against what may be sold up to a slack of `10⁻¹²`. Where the quantities of a
listing are multiples of a unit above the slack (a share, for one) the comparison is exact, so what
is sold is held (`Holdings.sold_le`), and the position stays a multiple of the unit.
-/

namespace Coinext.Broker

/-! ## Units -/

/-- The quantity is a number of units. -/
def InUnits (u q : ℚ) : Prop := ∃ n : ℕ, q = n * u

theorem PaperEquityBroker.slack_lt_one : PaperEquityBroker.slack < 1 := by
  norm_num [PaperEquityBroker.slack]

namespace InUnits

variable {u p q : ℚ}

theorem zero : InUnits u 0 := ⟨0, by rw [Nat.cast_zero, zero_mul]⟩

theorem nonneg (hu : PaperEquityBroker.slack < u) (h : InUnits u q) : 0 ≤ q := by
  obtain ⟨n, rfl⟩ := h
  have hslack : 0 < PaperEquityBroker.slack := by norm_num [PaperEquityBroker.slack]
  exact mul_nonneg n.cast_nonneg (hslack.trans hu).le

theorem add (hp : InUnits u p) (hq : InUnits u q) : InUnits u (p + q) := by
  obtain ⟨m, rfl⟩ := hp
  obtain ⟨n, rfl⟩ := hq
  exact ⟨m + n, by rw [Nat.cast_add, add_mul]⟩

theorem le_of_sub_slack_le (hu : PaperEquityBroker.slack < u) (hp : InUnits u p)
    (hq : InUnits u q) (h : q - PaperEquityBroker.slack ≤ p) : q ≤ p := by
  obtain ⟨m, rfl⟩ := hp
  obtain ⟨n, rfl⟩ := hq
  by_contra hlt
  have hslack : 0 < PaperEquityBroker.slack := by norm_num [PaperEquityBroker.slack]
  have hpos : 0 < u := hslack.trans hu
  have hmn : (m : ℚ) < n := lt_of_mul_lt_mul_right (not_le.mp hlt) hpos.le
  have hstep : (m : ℚ) + 1 ≤ n := by exact_mod_cast hmn
  have hmul := mul_le_mul_of_nonneg_right hstep hpos.le
  linarith

theorem sub (hu : PaperEquityBroker.slack < u) (hp : InUnits u p) (hq : InUnits u q)
    (h : q ≤ p) : InUnits u (p - q) := by
  obtain ⟨m, rfl⟩ := hp
  obtain ⟨n, rfl⟩ := hq
  have hslack : 0 < PaperEquityBroker.slack := by norm_num [PaperEquityBroker.slack]
  have hmn : n ≤ m := by exact_mod_cast le_of_mul_le_mul_right h (hslack.trans hu)
  exact ⟨m - n, by rw [Nat.cast_sub hmn, sub_mul]⟩

end InUnits

/-! ## Holdings -/

variable [Lookups]

/-- An order for a number of units. -/
structure OrderInUnits (u : ℚ) (o : BrokerOrder) : Prop where
  qty : InUnits u o.qty
  qty_pos : 0 < o.qty
  /-- An order is filled at once, or not at all. -/
  idle : o.status.terminal = false → o.filledQty = 0
  venue_upper : PyText.upper o.venue = o.venue
  symbol_upper : PyText.upper o.symbol = o.symbol

/-- What the broker, with a table of orders, holds of a listing is in units. -/
structure Holdings (u : ℚ) (key : String) (b : PaperEquityBroker) (orders : List BrokerOrder) :
    Prop where
  position : InUnits u (b.position key)
  bought : ∀ d, InUnits u (b.bought key d)
  orders : ∀ o ∈ orders, o.key = key → OrderInUnits u o

/-- The listing a request is for. -/
def PaperEquityBroker.Request.key (r : PaperEquityBroker.Request) : String :=
  listingKey (PyText.upper (PyText.strip r.venue)) (PyText.upper (PyText.strip r.symbol))

/-- What a call asks of a listing is in units. -/
def RequestsInUnits (u : ℚ) (key : String) (call : PaperEquityBroker.Call) : Prop :=
  ∀ r ∈ call.request, r.key = key → InUnits u r.qty

namespace OrderInUnits

variable {u : ℚ} {o o' : BrokerOrder}

theorem restatus (h : OrderInUnits u o) (hactive : o.status.terminal = false)
    (ho' : o.Restatus o') : OrderInUnits u o' := by
  obtain ⟨status, limitPrice, tsUpdateNs, rejectReason, -, -, rfl⟩ := ho'
  exact ⟨h.qty, h.qty_pos, fun _ ↦ h.idle hactive, h.venue_upper, h.symbol_upper⟩

theorem filledBy (h : OrderInUnits u o) (hactive : o.status.terminal = false) (price : ℚ)
    (tsNs : ℤ) :
    OrderInUnits u (PaperEquityBroker.filledBy o price (o.qty - o.filledQty) tsNs) := by
  refine ⟨h.qty, h.qty_pos, fun hopen ↦ ?_, h.venue_upper, h.symbol_upper⟩
  have hfilled : (PaperEquityBroker.filledBy o price (o.qty - o.filledQty) tsNs).status
      = .filled := by
    rw [PaperEquityBroker.filledBy, h.idle hactive, zero_add, sub_zero]
    refine if_pos ?_
    have hslack : 0 ≤ PaperEquityBroker.slack := by norm_num [PaperEquityBroker.slack]
    linarith
  rw [hfilled] at hopen
  cases hopen

end OrderInUnits

namespace Holdings

variable {u : ℚ} {key : String} {b : PaperEquityBroker} {front back : List BrokerOrder}
  {o o' : BrokerOrder}

/-- **What is sold is held**, and under T+1 it was not bought on the day. -/
theorem sold_le {orders : List BrokerOrder} (hu : PaperEquityBroker.slack < u)
    (h : Holdings u key b orders) (ho : OrderInUnits u o) (hkey : o.key = key) {day : Day}
    (hheld : o.qty - PaperEquityBroker.slack ≤ b.sellableQty o.venue o.symbol day) :
    o.qty ≤ b.position key ∧ (b.enforceT1 = true → isT1Venue o.venue = true →
      o.qty ≤ b.position key - b.bought key day) := by
  have hsellable : b.sellableQty o.venue o.symbol day
      = if b.enforceT1 = false ∨ isT1Venue o.venue = false then b.position key
        else max 0 (b.position key - b.bought key day) := by
    rw [PaperEquityBroker.sellableQty, ho.venue_upper, ho.symbol_upper, ← hkey]
    rfl
  rw [hsellable] at hheld
  by_cases hfree : b.enforceT1 = false ∨ isT1Venue o.venue = false
  · rw [if_pos hfree] at hheld
    refine ⟨h.position.le_of_sub_slack_le hu ho.qty hheld, fun ht1 hvenue ↦ ?_⟩
    rw [ht1, hvenue] at hfree
    exact absurd hfree (by decide)
  · rw [if_neg hfree] at hheld
    have hbought := (h.bought day).nonneg hu
    have hle : o.qty ≤ b.position key - b.bought key day := by
      by_cases hlocked : b.position key ≤ b.bought key day
      · -- nothing may be sold, and the order is for more than the slack
        rw [max_eq_left (by linarith)] at hheld
        have hnone := InUnits.zero.le_of_sub_slack_le hu ho.qty hheld
        exact absurd ho.qty_pos (not_lt.mpr hnone)
      · have hle := (not_le.mp hlocked).le
        rw [max_eq_right (by linarith)] at hheld
        exact (h.position.sub hu (h.bought day) hle).le_of_sub_slack_le hu ho.qty hheld
    exact ⟨by linarith, fun _ _ ↦ hle⟩

/-- An order of the table is replaced. -/
theorem replace (h : Holdings u key b (front ++ o :: back))
    (ho' : OrderInUnits u o → OrderInUnits u o') (hkey : o'.key = o.key) :
    Holdings u key b (front ++ o' :: back) where
  position := h.position
  bought := h.bought
  orders x hx hx' := by
    rcases List.mem_append.mp hx with hx | hx
    · exact h.orders x (List.mem_append_left _ hx) hx'
    · rcases List.mem_cons.mp hx with rfl | hx
      · exact ho' (h.orders o (List.mem_append_right _ List.mem_cons_self) (hkey.symm.trans hx'))
      · exact h.orders x (List.mem_append_right _ (List.mem_cons_of_mem _ hx)) hx'

theorem of_eq {orders : List BrokerOrder} (h : Holdings u key b orders) {b' : PaperEquityBroker}
    (hposition : InUnits u (b'.position key)) (hbought : ∀ d, InUnits u (b'.bought key d)) :
    Holdings u key b' orders :=
  ⟨hposition, hbought, h.orders⟩

/-- **A fill keeps the holdings in units.** -/
theorem fill (hu : PaperEquityBroker.slack < u) (h : Holdings u key b (front ++ o :: back))
    (price : ℚ) (tsNs : ℤ) : Holdings u key (b.fill o price (o.qty - o.filledQty) tsNs).1
      (front ++ (b.fill o price (o.qty - o.filledQty) tsNs).2 :: back) := by
  rcases b.fill_cases o price (o.qty - o.filledQty) tsNs with
    ⟨heq, -⟩ | ⟨-, hactive, ⟨reason, heq⟩ | ⟨hexec, hfilled⟩⟩
  · rw [heq]
    exact h
  · rw [heq]
    exact h.replace (fun ho ↦ ho.restatus hactive (o.restatus_reject reason tsNs)) rfl
  · rw [hfilled]
    refine (h.replace (fun ho ↦ ho.filledBy hactive price tsNs) rfl).of_eq ?_ fun d ↦ ?_
    · rw [hexec.position, PaperEquityBroker.signedQty_report]
      split_ifs with hkey
      · have ho := h.orders o (List.mem_append_right _ List.mem_cons_self) hkey.symm
        have hwhole : o.qty - o.filledQty = o.qty := by rw [ho.idle hactive, sub_zero]
        rw [hwhole] at hexec ⊢
        cases hside : o.side with
        | buy => exact h.position.add ho.qty
        | sell =>
          have hsold := h.sold_le hu ho hkey.symm (hexec.held hside)
          rw [← sub_eq_add_neg]
          exact h.position.sub hu ho.qty hsold.1
      · rw [add_zero]
        exact h.position
    · rw [hexec.bought]
      split_ifs with hbuy
      · have ho := h.orders o (List.mem_append_right _ List.mem_cons_self) hbuy.2.2.1.symm
        rw [ho.idle hactive, sub_zero]
        exact (h.bought d).add ho.qty
      · rw [add_zero]
        exact h.bought d

end Holdings

namespace PaperEquityBroker

variable {u : ℚ} {key : String} {b : PaperEquityBroker}

theorem movesKeep_holdings (hu : slack < u) {call : Call} (hcall : RequestsInUnits u key call) :
    MovesKeep (Holdings u key) b call where
  books b₁ b₂ orders h hbooks := by
    refine h.of_eq ?_ fun d ↦ ?_
    · rw [position, hbooks.positions]
      exact h.position
    · rw [bought, hbooks.boughtOn]
      exact h.bought d
  restatus b₁ front o o' back hactive ho' h := by
    refine h.replace (fun ho ↦ ho.restatus hactive ho') ?_
    obtain ⟨_, _, _, _, -, -, rfl⟩ := ho'
    rfl
  fresh r hr hqty h := by
    refine ⟨h.position, h.bought, fun o ho hkey ↦ ?_⟩
    rcases List.mem_append.mp ho with ho | ho
    · exact h.orders o ho hkey
    · rw [List.mem_singleton.mp ho] at hkey ⊢
      exact ⟨hcall r hr hkey, hqty, fun _ ↦ rfl, PyText.upper_upper _, PyText.upper_upper _⟩
  fill b₁ front o back px ts _ _ h := h.fill hu px ts

theorem holdings_new (startingCash : List (String × ℚ)) (t1 limits clamp : Bool) :
    Holdings u key (new startingCash t1 limits clamp) [] :=
  ⟨.zero, fun _ ↦ .zero, fun _ ho ↦ absurd ho List.not_mem_nil⟩

/-- Holdings in units, at the end of a run. -/
theorem holdings_run (hu : slack < u) (startingCash : List (String × ℚ)) (t1 limits clamp : Bool)
    {calls : List Call} (hcalls : ∀ call ∈ calls, RequestsInUnits u key call) :
    Holdings u key (calls.foldl step (new startingCash t1 limits clamp))
      (calls.foldl step (new startingCash t1 limits clamp)).orders :=
  (along_of_forall_mem hcalls).induction (I := fun b ↦ Holdings u key b b.orders)
    (fun _ _ h hcall ↦ step_rule (movesKeep_holdings hu hcall) h)
    (holdings_new startingCash t1 limits clamp)

end PaperEquityBroker

end Coinext.Broker
