import Coinext.Broker.StepRule
import Coinext.Support.Run

/-!
# Fills and the price band

The band of a listing is checked when an order enters, on the side of the order only, and never
again; and the previous close it is computed from may have changed when the order is filled. So a
fill lies in the band in force when the limit of every order that is reached lies in it, and the
mark of a market order is either in it or beyond the bound that is checked (`PricesInBand`).
-/

namespace Coinext.Broker.PaperEquityBroker

variable [Lookups]

/-- The band of a listing, from the previous close in force. -/
def bandInForce (b : PaperEquityBroker) (venue symbol : String) : Option LimitBand :=
  (b.prevClose.lookup (listingKey venue symbol)).bind fun prev ↦ limitBand venue symbol prev

/-- The price lies in the band of a listing, if there is one. -/
def InBand (b : PaperEquityBroker) (venue symbol : String) (price : ℚ) : Prop :=
  ∀ band ∈ b.bandInForce venue symbol, band.Contains price

instance (b : PaperEquityBroker) (venue symbol : String) (price : ℚ) :
    Decidable (b.InBand venue symbol price) :=
  inferInstanceAs (Decidable (∀ band ∈ b.bandInForce venue symbol, band.Contains price))

/-- The fills of a call lie in the bands in force. -/
def FillsInBand (b : PaperEquityBroker) (call : Call) : Prop :=
  ∀ f ∈ (b.step call).fills.drop b.fills.length, (b.step call).InBand f.venue f.symbol f.price

instance (b : PaperEquityBroker) (call : Call) : Decidable (FillsInBand b call) :=
  inferInstanceAs (Decidable (∀ f ∈ (b.step call).fills.drop b.fills.length,
    (b.step call).InBand f.venue f.symbol f.price))

/-- The limits of the orders that the call hands to `fill` lie in the bands in force, and the mark
of a market order lies in the band or beyond the bound that is checked. -/
structure PricesInBand (b : PaperEquityBroker) (call : Call) : Prop where
  limit : ∀ o px, Handed b call o px → o.limitPrice = some px →
    (b.opened call).InBand o.venue o.symbol px
  mark : ∀ r ∈ call.request, r.orderType = .market →
    ∀ mark ∈ b.marks.lookup (b.fresh r).1.key,
      ∀ band ∈ b.bandInForce (b.fresh r).1.venue (b.fresh r).1.symbol,
        band.Contains mark ∨ band.allows mark r.side = false

variable {b : PaperEquityBroker}

/-! ## The check -/

/-- What the check lets through, when it lets the mark through, or clamps it. -/
theorem inBand_of_checkPrice (hlimits : b.enforcePriceLimits = true) {venue symbol : String}
    {side : Side} {price px : ℚ} (h : b.checkPrice venue symbol side price true = .ok px)
    (hprice : ∀ band ∈ b.bandInForce venue symbol,
      band.Contains price ∨ band.allows price side = false) :
    b.InBand venue symbol px := by
  intro band hband
  obtain ⟨prev, hprev, hlimit⟩ := Option.bind_eq_some_iff.mp hband
  rw [checkPrice, if_pos hlimits, hprev] at h
  dsimp only at h
  rw [hlimit] at h
  dsimp only at h
  rcases hprice band hband with hin | hbeyond
  · -- a price in the band is allowed on either side
    have hallows : band.allows price side = true := by
      cases side
      · exact decide_eq_true (hin.2.trans (by norm_num))
      · exact decide_eq_true (le_trans (by norm_num) hin.1)
    rw [if_pos hallows] at h
    cases h
    exact hin
  · rw [hbeyond, if_neg (by decide)] at h
    split_ifs at h
    cases h
    exact LimitBand.contains_clamp (LimitBand.down_le_up hlimit) price

/-- **The prices at which a call fills.** -/
theorem PricesInBand.inBand {call : Call} (hlimits : b.enforcePriceLimits = true)
    (h : PricesInBand b call) {o : BrokerOrder} {px : ℚ} (hhanded : Handed b call o px) :
    (b.opened call).InBand o.venue o.symbol px := by
  cases hhanded with
  | mark hmem hreached => exact h.limit o px (.mark hmem hreached) hreached.limit
  | bar hmem hreached => exact h.limit o px (.bar hmem hreached) hreached.limit
  | market hfresh hmark hcheck =>
    refine inBand_of_checkPrice hlimits hcheck fun band hband ↦ ?_
    subst hfresh
    exact h.mark _ rfl rfl _ hmark band hband
  | limit hfresh hmark hcheck hreached =>
    exact h.limit _ px (.limit hfresh hmark hcheck hreached) hreached.limit
  | resting hfresh hmark hcheck hmem hreached =>
    exact h.limit o px (.resting hfresh hmark hcheck hmem hreached) hreached.limit

/-! ## Calls -/

theorem prevClose_matchLimit (venue symbol : String) (mark : ℚ) (b : PaperEquityBroker)
    (o : BrokerOrder) : (b.matchLimit venue symbol mark o).1.prevClose = b.prevClose := by
  rcases b.matchLimit_cases o venue symbol mark with heq | ⟨px, -, heq⟩
  · rw [heq]
  · rw [heq]
    exact ((SameRules.refl b.nowNs.2).fill o px _ _).prevClose

theorem prevClose_matchBar (venue symbol : String) (high low : ℚ) (tsNs : ℤ) (b : PaperEquityBroker)
    (o : BrokerOrder) : (b.matchBar venue symbol high low tsNs o).1.prevClose = b.prevClose := by
  rcases b.matchBar_cases o venue symbol high low tsNs with heq | ⟨px, -, heq⟩
  · rw [heq]
  · rw [heq]
    exact ((SameRules.refl b).fill o px _ _).prevClose

theorem prevClose_matchLimits (venue symbol : String) (mark : ℚ) (b : PaperEquityBroker) :
    (b.matchLimits venue symbol mark).prevClose = b.prevClose :=
  sweep_state (I := fun b₁ ↦ b₁.prevClose = b.prevClose)
    (fun b₁ o h ↦ (prevClose_matchLimit venue symbol mark b₁ o).trans h) rfl b.orders

theorem prevClose_step {call : Call}
    (hcall : ∀ venue symbol prevClose, call ≠ .setPrevClose venue symbol prevClose) :
    (b.step call).prevClose = (b.opened call).prevClose := by
  cases call with
  | connect | disconnect | setSessionDay => rfl
  | setPrevClose venue symbol prevClose => exact absurd rfl (hcall venue symbol prevClose)
  | setMark venue symbol price => exact prevClose_matchLimits _ _ price _
  | onBar venue symbol high low close tsNs =>
    cases tsNs with
    | none =>
      exact sweep_state (f := matchBar _ _ high low b.nowNs.1)
        (I := fun b₁ ↦ b₁.prevClose = (b.nowNs.2.openBar venue symbol b.nowNs.1).prevClose)
        (fun b₁ o h ↦ (prevClose_matchBar _ _ high low _ b₁ o).trans h) rfl b.orders
    | some ts =>
      exact sweep_state (f := matchBar _ _ high low ts)
        (I := fun b₁ ↦ b₁.prevClose = (b.openBar venue symbol ts).prevClose)
        (fun b₁ o h ↦ (prevClose_matchBar _ _ high low ts b₁ o).trans h) rfl b.orders
  | submitMarket venue symbol side qty =>
    change (b.submitMarket venue symbol side qty).2.prevClose = b.prevClose
    rcases b.submitMarket_cases venue symbol side qty with
      heq | ⟨-, o, b₁, hnew, ⟨reason, heq⟩ | ⟨mark, px, -, -, heq⟩⟩
    · rw [heq]
    · rw [heq]
      cases hnew
      rfl
    · rw [heq]
      cases hnew
      exact ((SameRules.refl _).fill _ px qty _).prevClose
  | submitLimit venue symbol side qty price =>
    change (b.submitLimit venue symbol side qty price).2.prevClose = b.prevClose
    rcases b.submitLimit_cases venue symbol side qty price with
      heq | ⟨-, o, b₁, hnew, ⟨reason, heq⟩ | ⟨px, -, ⟨-, heq⟩ | ⟨mark, -, heq⟩⟩⟩
    · rw [heq]
    · rw [heq]
      cases hnew
      rfl
    · rw [heq]
      cases hnew
      rfl
    · rw [heq, prevClose_matchLimits]
      cases hnew
      rfl
  | cancel clientOrderId =>
    change (b.cancel clientOrderId).2.prevClose = b.prevClose
    rcases b.cancel_cases clientOrderId with heq | ⟨front, o, back, -, -, heq⟩
    · rw [heq]
    · rw [heq]
      rfl

/-- The moves of a call add fills at the prices that orders are handed over with. -/
theorem movesKeep_fillsAt {call : Call} (good : String → String → ℚ → Prop)
    (hgood : ∀ o px, Handed b call o px → good o.venue o.symbol px) :
    MovesKeep (fun b₁ _ ↦ ∃ new, b₁.fills = b.fills ++ new
      ∧ ∀ f ∈ new, good f.venue f.symbol f.price) b call where
  books b₁ b₂ _ h hbooks := by
    rwa [hbooks.fills]
  restatus _ _ _ _ _ _ _ h := h
  fresh _ _ _ h := h
  fill b₁ front o back px ts ho _ h := by
    obtain ⟨new, hfills, hnew⟩ := h
    rcases b₁.fill_cases o px (o.qty - o.filledQty) ts with
      ⟨heq, -⟩ | ⟨-, -, ⟨reason, heq⟩ | ⟨hexec, -⟩⟩
    · rw [heq]
      exact ⟨new, hfills, hnew⟩
    · rw [heq]
      exact ⟨new, hfills, hnew⟩
    · refine ⟨new ++ [b₁.report o px (o.qty - o.filledQty) ts], ?_, fun f hf ↦ ?_⟩
      · rw [hexec.fills, hfills, List.append_assoc]
      · rcases List.mem_append.mp hf with hf | hf
        · exact hnew f hf
        · rw [List.mem_singleton.mp hf]
          exact hgood o px ho

/-- **Step.** A call fills in the bands in force, if the prices lie in them. -/
theorem fillsInBand_step {call : Call} (hlimits : b.enforcePriceLimits = true)
    (h : PricesInBand b call) : FillsInBand b call := by
  obtain ⟨new, hfills, hnew⟩ := step_rule
    (movesKeep_fillsAt (b.opened call).InBand fun o px ho ↦ h.inBand hlimits ho)
    ⟨[], (List.append_nil _).symm, fun _ hf ↦ absurd hf List.not_mem_nil⟩
  intro f hf band hband
  rw [hfills, List.drop_left] at hf
  by_cases hcall : ∃ venue symbol prevClose, call = .setPrevClose venue symbol prevClose
  · -- a new previous close fills nothing
    obtain ⟨venue, symbol, prevClose, rfl⟩ := hcall
    have hnone : new = [] := List.append_right_eq_self.mp hfills.symm
    rw [hnone] at hf
    cases hf
  · refine hnew f hf band ?_
    rwa [bandInForce, ← prevClose_step fun venue symbol prevClose heq ↦
      hcall ⟨venue, symbol, prevClose, heq⟩]

end Coinext.Broker.PaperEquityBroker

namespace Coinext.Broker.PaperEquityBroker

section Instances

attribute [local instance] sampleLookups

/-- A limit at 109 rests, and the previous close is then 50 instead of 100. -/
def overnight : List Call :=
  [.connect, .setPrevClose "SSE" "600000" 100, .setMark "SSE" "600000" 110,
    .submitLimit "SSE" "600000" .buy 100 109, .setPrevClose "SSE" "600000" 50]

end Instances

end Coinext.Broker.PaperEquityBroker
