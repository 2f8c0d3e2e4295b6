import Coinext.Sim.Matching

/-!
# Where a fill gets its price

An order that is marketable when it is submitted waits for the next event of its instrument. That
event prices it at its open, unless the open has gapped past the limit or the volume leaves nothing
to fill. Either way the order is an ordinary resting order from then on: a limit order fills at its
limit, as a maker, and a market order at the close of a later bar.

`Priced` says this for one fill; `priced_of_verdict` is the first pass over one resting order, and
`onMarket_spec` says of all fills that an event schedules, and of all orders it leaves, where they
come from.
-/

namespace Coinext

/-- The price no worse than the limit of the order, if it has one. -/
def Order.capped (o : Order) (px : Price) : Price :=
  match o.price with
  | some limit => match o.side with
    | .buy => min px limit
    | .sell => max px limit
  | none => px

/-- The price is no worse than the limit of the order, if it has one. -/
def Order.WithinLimit (o : Order) (px : Price) : Prop :=
  ∀ limit, o.price = some limit → match o.side with
    | .buy => px ≤ limit
    | .sell => limit ≤ px

theorem Order.withinLimit_capped (o : Order) (px : Price) : o.WithinLimit (o.capped px) := by
  intro limit hlimit
  unfold Order.capped
  rw [hlimit]
  cases o.side with
  | buy => exact min_le_right px limit
  | sell => exact le_max_right px limit

def Order.IsMarketOrLimit (o : Order) : Prop := o.orderType = .market ∨ o.orderType = .limit

theorem Order.IsMarketOrLimit.not_stop {o : Order} (h : o.IsMarketOrLimit) :
    ¬ (o.orderType ≠ .market ∧ o.orderType ≠ .limit) := by
  rintro ⟨hmarket, hlimit⟩
  exact h.elim hmarket hlimit

namespace SimulatedExecutionClient

/-- Price and liquidity of a fill of an order that was submitted marketable. The flag tells whether
the event is the first of the order's instrument since. -/
inductive Priced (model : BrokerageModel) (inst : Instrument) (tape : Tape) (order : Order) :
    Bool → Price → LiquiditySide → Prop
  | atOpen : Priced model inst tape order true
      (order.capped (model.fillPrice order tape.open_ (some (tape.low, tape.high)) inst)) .taker
  | atLimit (limit : Price) : order.price = some limit →
      Priced model inst tape order false limit .maker
  | atClose : order.price = none → tape.barVolume ≠ none → Priced model inst tape order false
      (model.fillPrice order tape.close (some (tape.low, tape.high)) inst) .taker

variable {model : BrokerageModel} {inst : Instrument} {tape : Tape} {r : Resting} {d : Decision}

theorem Priced.withinLimit {order : Order} {first : Bool} {px : Price} {liquidity : LiquiditySide}
    (h : Priced model inst tape order first px liquidity) : order.WithinLimit px := by
  cases h with
  | atOpen => exact order.withinLimit_capped _
  | atLimit _ hpx =>
    intro limit hlimit
    cases hpx.symm.trans hlimit
    cases order.side <;> exact le_rfl
  | atClose hnone =>
    intro limit hlimit
    cases hnone.symm.trans hlimit

/-! ## The first pass over one order -/

theorem eq_of_takerDecision {refPx : Price} {q : Quantity} {cap : Price → Price}
    (h : takerDecision model inst tape r refPx q cap = some d) :
    d.fillPx = cap (model.fillPrice r.order refPx (some (tape.low, tape.high)) inst)
      ∧ d.liquidity = .taker := by
  unfold takerDecision at h
  split_ifs at h
  cases h
  exact ⟨rfl, rfl⟩

theorem priced_of_pendingVerdict (h : (pendingVerdict model inst tape r).decision = some d) :
    Priced model inst tape r.order true d.fillPx d.liquidity := by
  simp only [pendingVerdict] at h
  split_ifs at h
  obtain ⟨hpx, hliquidity⟩ := eq_of_takerDecision h
  rw [hpx, hliquidity]
  exact .atOpen

variable [DecimalWidth]

theorem priced_of_limitVerdict {limit : Price} (hlimit : r.order.price = some limit)
    (h : (limitVerdict model inst tape r limit).decision = some d) :
    Priced model inst tape r.order false d.fillPx d.liquidity := by
  obtain ⟨hpx, hliquidity, -⟩ := of_limitVerdict h
  rw [hpx, hliquidity]
  exact .atLimit limit hlimit

omit [DecimalWidth] in
theorem priced_of_aggressiveVerdict (hnone : r.order.price = none)
    (h : (aggressiveVerdict model inst tape r).decision = some d) :
    Priced model inst tape r.order false d.fillPx d.liquidity := by
  unfold aggressiveVerdict at h
  split at h
  · cases h
  · rename_i v hvolume
    obtain ⟨hpx, hliquidity⟩ := eq_of_takerDecision h
    rw [hpx, hliquidity]
    refine .atClose hnone ?_
    rw [hvolume]
    exact Option.some_ne_none v

/-- **The price of a decision.** -/
theorem priced_of_verdict (htype : r.order.IsMarketOrLimit)
    (h : (verdict model inst tape r).decision = some d) :
    Priced model inst tape r.order r.pendingOpen d.fillPx d.liquidity := by
  unfold verdict at h
  rw [if_neg htype.not_stop] at h
  cases hpending : r.pendingOpen with
  | true =>
    rw [hpending] at h
    exact priced_of_pendingVerdict h
  | false =>
    rw [hpending] at h
    cases hprice : r.order.price with
    | none =>
      simp only [hprice] at h
      exact priced_of_aggressiveVerdict hprice h
    | some limit =>
      simp only [hprice] at h
      exact priced_of_limitVerdict hprice h

theorem verdict_of_isMarketOrLimit (htype : r.order.IsMarketOrLimit) :
    (verdict model inst tape r).activate = false ∧ (verdict model inst tape r).trail = none
      ∧ (r.pendingOpen = true → (verdict model inst tape r).clearPending = true) := by
  unfold verdict
  rw [if_neg htype.not_stop]
  split_ifs with hpending
  · exact ⟨rfl, rfl, fun _ ↦ rfl⟩
  · have haggressive : (aggressiveVerdict model inst tape r).activate = false
        ∧ (aggressiveVerdict model inst tape r).trail = none := by
      unfold aggressiveVerdict
      split <;> exact ⟨rfl, rfl⟩
    have hlimit (limit : Price) : (limitVerdict model inst tape r limit).activate = false
        ∧ (limitVerdict model inst tape r limit).trail = none := by
      unfold limitVerdict
      cases tape.barVolume with
      | none =>
        simp only
        split_ifs <;> exact ⟨rfl, rfl⟩
      | some v =>
        simp only
        split_ifs <;> exact ⟨rfl, rfl⟩
    split
    · exact ⟨haggressive.1, haggressive.2, fun h ↦ absurd h hpending⟩
    · exact ⟨(hlimit _).1, (hlimit _).2, fun h ↦ absurd h hpending⟩

theorem applyVerdict_of_isMarketOrLimit (htype : r.order.IsMarketOrLimit) :
    (applyVerdict r (verdict model inst tape r)).order = r.order
      ∧ (applyVerdict r (verdict model inst tape r)).pendingOpen = false := by
  obtain ⟨hactivate, htrail, hclear⟩ : (verdict model inst tape r).activate = false
      ∧ (verdict model inst tape r).trail = none ∧ _ := verdict_of_isMarketOrLimit htype
  unfold applyVerdict
  rw [hactivate, htrail]
  refine ⟨rfl, ?_⟩
  cases hpending : r.pendingOpen with
  | true => simp [hclear hpending]
  | false => simp

/-! ## A whole event -/

/-- The resting order as an event of its instrument leaves it, up to what it fills. -/
structure Left (model : BrokerageModel) (inst : Instrument) (tape : Tape) (r r' : Resting) :
    Prop where
  order : r'.order = (applyVerdict r (verdict model inst tape r)).order
  pendingOpen : r'.pendingOpen = (applyVerdict r (verdict model inst tape r)).pendingOpen

/-- A fill that the first pass decides for a resting order. -/
def Decides (model : BrokerageModel) (now : UnixNanos) (inst : Instrument) (tape : Tape)
    (r : Resting) (f : Fill) : Prop :=
  ∃ n d, (verdict model inst tape r).decision = some d
    ∧ f = makeFill model inst r n d (saturatingAddNs now (model.latencyNs .submit))

variable {now : UnixNanos} {id : InstrumentId}

theorem Decides.clientOrderId {f : Fill} (h : Decides model now inst tape r f) :
    f.clientOrderId = r.order.clientOrderId := by
  obtain ⟨n, d, -, rfl⟩ := h
  rfl

theorem matchOne_spec (s : SimState) (r : Resting) :
    ∃ new kept, (matchOne model now inst tape id s r).fills.Perm (new ++ s.fills)
      ∧ (matchOne model now inst tape id s r).resting = s.resting ++ kept
      ∧ (∀ f ∈ new, r.order.instrumentId = id ∧ Decides model now inst tape r f)
      ∧ ∀ r' ∈ kept, (r.order.instrumentId ≠ id ∧ r' = r)
        ∨ r.order.instrumentId = id ∧ Left model inst tape r r' := by
  unfold matchOne
  split_ifs with hid
  · refine ⟨[], [r], .refl _, rfl, fun f hf ↦ absurd hf List.not_mem_nil, fun r' hr' ↦ ?_⟩
    exact .inl ⟨hid, List.mem_singleton.mp hr'⟩
  · rw [not_not] at hid
    cases hdecision : (verdict model inst tape r).decision with
    | none =>
      simp only [hdecision]
      refine ⟨[], [_], .refl _, rfl, fun f hf ↦ absurd hf List.not_mem_nil, fun r' hr' ↦ ?_⟩
      rw [List.mem_singleton.mp hr']
      exact .inr ⟨hid, rfl, rfl⟩
    | some d =>
      simp only [hdecision]
      obtain ⟨new, hfills, hresting, hnew⟩ : ∃ new,
          (schedule model now inst r d s).fills.Perm (new ++ s.fills)
          ∧ (schedule model now inst r d s).resting = s.resting
          ∧ ∀ f ∈ new, Decides model now inst tape r f := by
        unfold schedule
        split_ifs
        · refine ⟨[_], (s.queue.items_push_perm _ _).filterMap ExecutionReport.fill?, rfl,
            fun f hf ↦ ?_⟩
          rw [List.mem_singleton.mp hf]
          exact ⟨_, d, hdecision, rfl⟩
        · exact ⟨[], .refl _, rfl, fun f hf ↦ absurd hf List.not_mem_nil⟩
      split_ifs
      · exact ⟨new, [], hfills, hresting.trans (List.append_nil _).symm,
          fun f hf ↦ ⟨hid, hnew f hf⟩, fun r' hr' ↦ absurd hr' List.not_mem_nil⟩
      · refine ⟨new, [_], hfills, congrArg (· ++ _) hresting, fun f hf ↦ ⟨hid, hnew f hf⟩,
          fun r' hr' ↦ ?_⟩
        rw [List.mem_singleton.mp hr']
        exact .inr ⟨hid, rfl, rfl⟩

theorem foldl_matchOne_spec (todo : List Resting) (s : SimState) :
    ∃ new kept, (todo.foldl (matchOne model now inst tape id) s).fills.Perm (new ++ s.fills)
      ∧ (todo.foldl (matchOne model now inst tape id) s).resting = s.resting ++ kept
      ∧ (∀ f ∈ new, ∃ r ∈ todo, r.order.instrumentId = id ∧ Decides model now inst tape r f)
      ∧ ∀ r' ∈ kept, ∃ r ∈ todo, (r.order.instrumentId ≠ id ∧ r' = r)
        ∨ r.order.instrumentId = id ∧ Left model inst tape r r' := by
  induction todo generalizing s with
  | nil => exact ⟨[], [], .refl _, (List.append_nil _).symm, fun f hf ↦ absurd hf List.not_mem_nil,
      fun r' hr' ↦ absurd hr' List.not_mem_nil⟩
  | cons r todo ih =>
    obtain ⟨new, kept, hfills, hresting, hnew, hkept⟩ :
      ∃ new kept, (matchOne model now inst tape id s r).fills.Perm (new ++ s.fills) ∧ _ ∧ _ ∧ _ :=
      matchOne_spec s r
    obtain ⟨later, kept', hfills', hresting', hlater, hkept'⟩ :=
      ih (matchOne model now inst tape id s r)
    refine ⟨later ++ new, kept ++ kept', ?_, ?_, fun f hf ↦ ?_, fun r' hr' ↦ ?_⟩
    · rw [List.append_assoc]
      exact hfills'.trans (hfills.append_left later)
    · rw [List.foldl_cons, hresting', hresting, List.append_assoc]
    · rcases List.mem_append.mp hf with hf | hf
      · obtain ⟨r₁, hr₁, hdecides⟩ := hlater f hf
        exact ⟨r₁, List.mem_cons_of_mem r hr₁, hdecides⟩
      · exact ⟨r, List.mem_cons_self, hnew f hf⟩
    · rcases List.mem_append.mp hr' with hr' | hr'
      · exact ⟨r, List.mem_cons_self, hkept r' hr'⟩
      · obtain ⟨r₁, hr₁, hleft⟩ := hkept' r' hr'
        exact ⟨r₁, List.mem_cons_of_mem r hr₁, hleft⟩

/-- An event offers something to the orders of its instrument. -/
def Offers (cache : Cache) (ev : MarketEvent) (inst : Instrument) (tape : Tape) : Prop :=
  cache.instrument ev.instrumentId = some inst ∧ tape? ev = some tape

/-- **What an event schedules and what it leaves.** Every new fill is decided for a resting order of
the event's instrument, and every order that rests afterwards comes from one that rested before. -/
theorem onMarket_spec (cache : Cache) (ev : MarketEvent) (s : SimState) :
    ∃ new, (onMarket model cache now ev s).fills.Perm (new ++ s.fills)
      ∧ (∀ f ∈ new, ∃ inst tape, Offers cache ev inst tape ∧ ∃ r ∈ s.resting,
        r.order.instrumentId = ev.instrumentId ∧ Decides model now inst tape r f)
      ∧ ∀ r' ∈ (onMarket model cache now ev s).resting, ∃ r ∈ s.resting,
        (r' = r ∧ ∀ inst tape, Offers cache ev inst tape → r.order.instrumentId ≠ ev.instrumentId)
        ∨ ∃ inst tape, Offers cache ev inst tape ∧ r.order.instrumentId = ev.instrumentId
          ∧ Left model inst tape r r' := by
  unfold onMarket
  split
  · rename_i inst tape hinst htape
    have hfills : (rememberBar ev s).fills = s.fills := by
      cases ev <;> rfl
    obtain ⟨new, kept, hperm, hresting, hnew, hkept⟩ : ∃ new kept, (s.resting.foldl
        (matchOne model now inst tape ev.instrumentId)
        { rememberBar ev s with resting := [] }).fills.Perm
          (new ++ (rememberBar ev s).fills) ∧ _ ∧ _ ∧ _ :=
      foldl_matchOne_spec s.resting { rememberBar ev s with resting := [] }
    rw [hfills] at hperm
    refine ⟨new, hperm, fun f hf ↦ ⟨inst, tape, ⟨hinst, htape⟩, hnew f hf⟩, fun r' hr' ↦ ?_⟩
    rw [hresting] at hr'
    obtain ⟨r, hr, ⟨hother, heq⟩ | ⟨hid, hleft⟩⟩ := hkept r' hr'
    · exact ⟨r, hr, .inl ⟨heq, fun _ _ _ ↦ hother⟩⟩
    · exact ⟨r, hr, .inr ⟨inst, tape, ⟨hinst, htape⟩, hid, hleft⟩⟩
  · rename_i hnone
    refine ⟨[], .refl _, fun f hf ↦ absurd hf List.not_mem_nil, fun r hr ↦ ⟨r, hr, .inl ⟨rfl, ?_⟩⟩⟩
    exact fun inst tape hoffers ↦ absurd hoffers.2 (hnone inst tape hoffers.1)

end SimulatedExecutionClient

end Coinext
