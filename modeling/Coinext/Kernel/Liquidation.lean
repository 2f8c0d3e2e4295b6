import Coinext.Kernel.FillConservation
import Coinext.Kernel.Snapshot
import Coinext.Engine.Holdings

/-!
# Forced liquidation

Closing a position at its own mark books as realized what was unrealized before, rounded to money in
the same way, so the equity of the portfolio does not change. `checkLiquidation` does this to every
open position that has a mark. In between, the strategy hears of each close and may send orders;
they touch neither positions nor marks.
-/

namespace Coinext

/-! ## Closing one position -/

section Close

variable {pos : Position} {inst : Instrument} {iid : InstrumentId} {mark : Price}
  {now : UnixNanos} {tagSuffix : String} {f : Fill}

/-- The profit of a position at a price, before it is rounded. -/
def Position.profitAt (pos : Position) (mark : Price) (inst : Instrument) : Decimal :=
  (if pos.side = .long then 1 else -1) * pos.quantity.asDecimal
    * Position.pnlPerQty inst.isInverse pos.avgPxOpen.asDecimal mark.asDecimal
      inst.multiplier.asDecimal

theorem closingFill_eq_some (h : closingFill pos inst iid mark now tagSuffix = some f) :
    pos.side ≠ .flat ∧ f.lastQty = pos.quantity ∧ f.lastPx = mark
      ∧ f.fee = Money.zero inst.settlementCurrency ∧ f.signedQty = -pos.signed := by
  obtain ⟨side, hside, rfl⟩ := Option.map_eq_some_iff.mp h
  unfold Position.signed Fill.signedQty
  cases hpos : pos.side with
  | flat =>
    rw [hpos] at hside
    cases hside
  | long =>
    rw [hpos] at hside
    cases hside
    exact ⟨by simp, rfl, rfl, rfl, by simp [OrderSide.sign]⟩
  | short =>
    rw [hpos] at hside
    cases hside
    exact ⟨by simp, rfl, rfl, rfl, by simp [OrderSide.sign]⟩

theorem realized_closingFill (h : closingFill pos inst iid mark now tagSuffix = some f) :
    pos.realized f inst = pos.profitAt mark inst := by
  obtain ⟨hopen, hqty, hpx, hfee, hsigned⟩ := closingFill_eq_some h
  have htrade : pos.realized f inst = pos.tradePnl f inst := by
    unfold Position.realized
    rw [hfee]
    split_ifs <;> simp
  rw [htrade]
  have hnonneg := pos.quantity.asDecimal_nonneg
  rcases hnonneg.eq_or_lt with hzero | hpos
  · -- nothing is held
    have hflat : pos.signed = 0 := by
      unfold Position.signed
      split <;> simp [← hzero]
    simp [Position.tradePnl, Position.meeting, Position.profitAt, hflat, ← hzero]
  · have hsides : pos.side = .long ∧ pos.signed = pos.quantity.asDecimal
        ∨ pos.side = .short ∧ pos.signed = -pos.quantity.asDecimal := by
      unfold Position.signed
      cases hside : pos.side with
      | long => exact .inl ⟨rfl, rfl⟩
      | short => exact .inr ⟨rfl, rfl⟩
      | flat => exact absurd hside hopen
    unfold Position.tradePnl Position.meeting Position.profitAt
    rw [hsigned, hqty, hpx]
    rcases hsides with ⟨hside, hvalue⟩ | ⟨hside, hvalue⟩
    · simp [hside, hvalue, hpos.ne', hpos, abs_of_pos hpos, not_lt.mpr hpos.le]
    · simp [hside, hvalue, hpos.ne', hpos, abs_of_pos hpos, not_lt.mpr hpos.le]

variable [DecimalWidth]

theorem unrealizedPnl_eq (hopen : pos.side ≠ .flat) (mark : Price) (inst : Instrument) :
    pos.unrealizedPnl mark inst
      = PortfolioState.toMoney inst.settlementCurrency (pos.profitAt mark inst) :=
  if_neg hopen

/-- Booking a profit rounds it as the portfolio does. -/
theorem amount_toMoney_of_bookRealized {pnl pnl' : Money} {realized : Decimal} {settle : Currency}
    (h : Position.bookRealized pnl realized settle = .ok pnl') :
    (PortfolioState.toMoney settle realized).amount
      = mantissa realized settle.precision * ulp settle.precision := by
  unfold PortfolioState.toMoney
  cases hmoney : Money.fromDecimal realized settle with
  | ok m =>
    obtain ⟨-, rfl⟩ := Money.fromDecimal_eq_ok_iff.mp hmoney
    rfl
  | error e =>
    -- only zero is booked without a conversion
    unfold Position.bookRealized at h
    split_ifs at h with hzero
    · simp [hzero]
    · rw [hmoney] at h
      cases h

/-- **The close books what was unrealized.** The position is flat afterwards. -/
theorem applied_closingFill (hwf : Position.WellFormed inst pos)
    (h : closingFill pos inst iid mark now tagSuffix = some f)
    (hbooks : Position.Books inst pos f) :
    (pos.applied inst f).side = .flat ∧ (pos.applied inst f).quantity.asDecimal = 0
      ∧ (pos.applied inst f).realizedPnl.currency = inst.settlementCurrency
      ∧ (pos.applied inst f).realizedPnl.amount
        = pos.realizedPnl.amount + (pos.unrealizedPnl mark inst).amount := by
  obtain ⟨hopen, -, -, -, hsigned⟩ := closingFill_eq_some h
  obtain ⟨⟨pnl, hbook⟩, q, hsize⟩ := hbooks
  have hsum : pos.signed + f.signedQty = 0 := by rw [hsigned, add_neg_cancel]
  have hside : Position.sideOf (pos.signed + f.signedQty) = .flat := if_pos hsum
  have happlied : pos.applied inst f = { pos with
      realizedPnl := pnl, side := .flat, quantity := q,
      avgPxOpen := Price.zero pos.pricePrecision } := by
    rw [Position.applied, Position.exec_applyFill, hbook, hsize, hside]
    rfl
  have hq : q.asDecimal = 0 := by
    rw [hsum, abs_zero] at hsize
    exact Quantity.asDecimal_fromDecimal hsize (.zero _)
  rw [realized_closingFill h] at hbook
  obtain ⟨hcurrency, hamount⟩ := Position.bookRealized_spec hbook hwf.settlement
  rw [happlied]
  refine ⟨rfl, hq, hcurrency, ?_⟩
  rw [unrealizedPnl_eq hopen, amount_toMoney_of_bookRealized hbook]
  exact hamount

/-! ## What the portfolio makes of it -/

variable {c : Cache} {settle : Currency}

omit [DecimalWidth] in
/-- Amounts of one currency are converted at one rate. -/
theorem convertToSettle_add {a b sum : Money} (hb : b.currency = a.currency)
    (hsum : sum.currency = a.currency) (hamount : sum.amount = a.amount + b.amount)
    (inst : Instrument) (mark : Price) (settle : Currency) :
    (convertToSettle sum inst mark settle).getD 0 = (convertToSettle a inst mark settle).getD 0
      + (convertToSettle b inst mark settle).getD 0 := by
  unfold convertToSettle
  rw [hb, hsum, hamount]
  split_ifs
  · rfl
  · exact add_mul _ _ _
  · exact (add_zero 0).symm

theorem profitOf_eq (hinst : c.instrument pos.instrumentId = some inst)
    (hmark : c.mark pos.instrumentId = some mark) : PortfolioState.profitOf c settle pos
      = (convertToSettle pos.realizedPnl inst mark settle).getD 0
        + (convertToSettle (pos.unrealizedPnl mark inst) inst mark settle).getD 0 := by
  unfold PortfolioState.profitOf
  simp only [hinst, hmark]
  split_ifs with hcurrency
  · rw [convertToSettle_of_currency hcurrency, Option.getD_some]
  · rfl

section Own

variable (hwf : Position.WellFormed inst pos) (hinst : c.instrument pos.instrumentId = some inst)
  (hmark : c.mark pos.instrumentId = some mark)
  (hfill : closingFill pos inst iid mark now tagSuffix = some f)
  (hbooks : Position.Books inst pos f)
include hwf hinst hmark hfill hbooks

theorem profitOf_applied_closingFill : PortfolioState.profitOf c settle (pos.applied inst f)
    = PortfolioState.profitOf c settle pos := by
  obtain ⟨hflat, -, hcurrency, hamount⟩ := applied_closingFill hwf hfill hbooks
  have hid : (pos.applied inst f).instrumentId = pos.instrumentId :=
    Position.instrumentId_applied inst pos f
  rw [profitOf_eq (hid ▸ hinst) (hid ▸ hmark), profitOf_eq hinst hmark]
  have hnone : (convertToSettle ((pos.applied inst f).unrealizedPnl mark inst) inst mark
      settle).getD 0 = 0 := by
    have hzero : (pos.applied inst f).unrealizedPnl mark inst
        = Money.zero inst.settlementCurrency := if_pos hflat
    rw [hzero]
    unfold convertToSettle
    split_ifs <;> simp
  rw [hnone, add_zero]
  refine convertToSettle_add ?_ (hcurrency.trans hwf.settlement.symm) hamount inst mark settle
  exact (currency_unrealizedPnl pos mark inst).trans hwf.settlement.symm

theorem exposureOf_applied_closingFill :
    PortfolioState.exposureOf c settle (pos.applied inst f) = 0 := by
  obtain ⟨-, hsize, -, -⟩ := applied_closingFill hwf hfill hbooks
  have hid : (pos.applied inst f).instrumentId = pos.instrumentId :=
    Position.instrumentId_applied inst pos f
  have hnotional := amount_notional_of_size_zero hsize mark inst
  unfold PortfolioState.exposureOf
  rw [hid]
  simp only [hinst, hmark]
  unfold convertToSettle
  split_ifs <;> simp [hnotional]

end Own

end Close

/-! ## The operation -/

section Operation

variable [DecimalWidth] (model : BrokerageModel) {c : Core} {iid : InstrumentId} {mark : Price}
  {now : UnixNanos} {tagSuffix : String} {settle : Currency}

/-- What the portfolio reads besides the positions is the same. -/
structure Cache.SameMarket (c c' : Cache) : Prop where
  instruments : c'.instruments = c.instruments
  marks : c'.marks = c.marks
  account : c'.account = c.account

omit [DecimalWidth] in
theorem Cache.SameMarket.trans {c c' c'' : Cache} (h : c.SameMarket c') (h' : c'.SameMarket c'') :
    c.SameMarket c'' :=
  ⟨h'.instruments.trans h.instruments, h'.marks.trans h.marks, h'.account.trans h.account⟩

/-- With the same market, the equity is a matter of the positions' profits. -/
theorem equity_congr {c c' : Cache} (h : c.SameMarket c')
    (hprofits : AList.total (PortfolioState.profitOf c settle) c'.positions
      = AList.total (PortfolioState.profitOf c settle) c.positions) :
    PortfolioState.equity c' settle = PortfolioState.equity c settle := by
  have hprofitOf : PortfolioState.profitOf c' settle = PortfolioState.profitOf c settle := by
    funext pos
    unfold PortfolioState.profitOf Cache.instrument Cache.mark
    rw [h.instruments, h.marks]
  unfold PortfolioState.equity
  rw [h.account, hprofitOf]
  unfold PortfolioState.positions
  simp only [List.map_map]
  congr 2

/-- Positions can be closed at their marks: the marks are positive, and the profit that is booked is
in range. -/
def Oms.CanClose (s : Oms) (now : UnixNanos) (tagSuffix : String) : Prop :=
  ∀ iid mark, s.cache.mark iid = some mark → ∀ inst pos f,
    s.closing iid mark now tagSuffix = some (inst, pos, f) →
      0 < mark.asDecimal ∧ Position.Books inst pos f

variable (settle) in
/-- The position of `iid` is closed, and nothing else changes: not even the equity. -/
structure Oms.Closes (s s' : Oms) (iid : InstrumentId) : Prop where
  market : s.cache.SameMarket s'.cache
  keyed : s'.Keyed
  others : ∀ i, i ≠ iid → s'.cache.position i = s.cache.position i
  flat : ∀ pos, s'.cache.position iid = some pos → pos.side = .flat
  exposure : ∀ pos, s.cache.position iid = some pos → pos.side ≠ .flat →
    ∃ pos', s'.cache.position iid = some pos' ∧ PortfolioState.exposureOf s'.cache settle pos' = 0
  equity : PortfolioState.equity s'.cache settle = PortfolioState.equity s.cache settle

omit [DecimalWidth] in
theorem Oms.side_of_closing_eq_none {s : Oms} (hkeyed : s.Keyed)
    (h : s.closing iid mark now tagSuffix = none) {pos : Position}
    (hpos : s.cache.position iid = some pos) : pos.side = .flat := by
  obtain ⟨-, inst, hinst, -⟩ := hkeyed iid pos hpos
  by_contra hopen
  have hfill : (closingFill pos inst iid mark now tagSuffix).isSome = true := by
    unfold closingFill
    cases hside : pos.side with
    | flat => exact absurd hside hopen
    | long => rfl
    | short => rfl
  obtain ⟨f, hf⟩ := Option.isSome_iff_exists.mp hfill
  simp only [Oms.closing, hinst, hpos, hf, bind, Option.bind_some] at h
  cases h

/-- **Closing at the mark.** -/
theorem Core.closes_closeAt (hkeyed : c.oms.Keyed) (hcan : c.oms.CanClose now tagSuffix)
    (hmark : c.oms.cache.mark iid = some mark) :
    Oms.Closes settle c.oms (c.step model (.closeAt iid mark now tagSuffix)).oms iid := by
  rcases c.closeAt_cases model iid mark now tagSuffix with
    ⟨hclosing, heq⟩ | ⟨inst, pos, f, hclosing, heq⟩
  · rw [heq]
    exact ⟨⟨rfl, rfl, rfl⟩, hkeyed, fun _ _ ↦ rfl,
      fun pos hpos ↦ Oms.side_of_closing_eq_none hkeyed hclosing hpos,
      fun pos hpos hopen ↦ absurd (Oms.side_of_closing_eq_none hkeyed hclosing hpos) hopen, rfl⟩
  · obtain ⟨hinst, hpos, hfill⟩ := closing_eq_some hclosing
    obtain ⟨hid, inst', hinst', hwf⟩ := hkeyed iid pos hpos
    obtain rfl : inst' = inst := Option.some.inj (hinst'.symm.trans hinst)
    obtain ⟨-, hbooks⟩ := hcan iid mark hmark _ _ _ hclosing
    have hposition (i : InstrumentId) : (c.oms.cache.upsertPosition
        (pos.applied inst' f)).position i
        = if i = iid then some (pos.applied inst' f) else c.oms.cache.position i :=
      position_upsert_applied hid inst' f i
    rw [heq]
    refine ⟨⟨rfl, rfl, rfl⟩, hkeyed.upsert_applied hinst hpos f, fun i hi ↦ ?_, fun p hp ↦ ?_,
      fun _ _ _ ↦ ⟨_, (hposition iid).trans (if_pos rfl), ?_⟩, equity_congr ⟨rfl, rfl, rfl⟩ ?_⟩
    · exact (hposition i).trans (if_neg hi)
    · rw [hposition, if_pos rfl] at hp
      cases hp
      exact (applied_closingFill hwf hfill hbooks).1
    · exact exposureOf_applied_closingFill hwf (hid ▸ hinst) (hid ▸ hmark) hfill hbooks
    · -- the profit of the position is where it was
      have htotal : AList.total (PortfolioState.profitOf c.oms.cache settle)
            (c.oms.cache.positions.insert iid (pos.applied inst' f))
            + PortfolioState.profitOf c.oms.cache settle pos
          = AList.total (PortfolioState.profitOf c.oms.cache settle) c.oms.cache.positions
            + PortfolioState.profitOf c.oms.cache settle (pos.applied inst' f) :=
        AList.total_insert_of_lookup hpos
      rw [profitOf_applied_closingFill hwf (hid ▸ hinst) (hid ▸ hmark) hfill hbooks] at htotal
      change AList.total _ (c.oms.cache.positions.insert (pos.applied inst' f).instrumentId
        (pos.applied inst' f)) = _
      rw [Position.instrumentId_applied, hid]
      exact add_right_cancel htotal

theorem Core.sound_step (h : c.oms.Sound) (op : CoreOp) : (c.step model op).oms.Sound := by
  cases op with
  | submit risk portfolio order now => exact h.step model (.submit risk portfolio _ order now)
  | cancel id now => exact h.step model (.cancel _ id now)
  | process ev => exact h.step model (.market ev)
  | applyNext =>
    rcases c.applyNext_cases model with ⟨-, heq⟩ | ⟨r, rest, -, heq⟩
    · rw [heq]
      exact h
    · rw [heq]
      exact h.step model (.report r c.clock.now)
  | closeAt iid px now tagSuffix =>
    rcases c.closeAt_cases model iid px now tagSuffix with
      ⟨-, heq⟩ | ⟨inst, pos, f, hclosing, heq⟩
    · rw [heq]
      exact h
    · obtain ⟨hinst, hpos, -⟩ := closing_eq_some hclosing
      have hid := (h.keyed iid pos hpos).1
      rw [heq]
      refine ⟨h.keyed.upsert_applied hinst hpos f, fun i p hp ↦ ?_⟩
      rw [position_upsert_applied hid] at hp
      split_ifs at hp
      · cases hp
        exact Position.made_applied (h.made iid pos hpos) inst f
      · exact h.made i p hp
  | _ => exact h.congr rfl rfl

end Operation

/-! ## The strategy touches no holdings -/

/-- Positions, marks, instruments and the account are the same. -/
structure Cache.SameHoldings (c c' : Cache) : Prop extends c.SameMarket c' where
  positions : c'.positions = c.positions

namespace Cache.SameHoldings

variable {c c' c'' : Cache}

theorem refl (c : Cache) : c.SameHoldings c := ⟨⟨rfl, rfl, rfl⟩, rfl⟩

theorem trans (h : c.SameHoldings c') (h' : c'.SameHoldings c'') : c.SameHoldings c'' :=
  ⟨h.toSameMarket.trans h'.toSameMarket, h'.positions.trans h.positions⟩

theorem setOrder (id : ClientOrderId) (o : Order) : c.SameHoldings (c.setOrder id o) :=
  ⟨⟨rfl, rfl, rfl⟩, rfl⟩

theorem addOrder (o : Order) : c.SameHoldings (c.addOrder o) := ⟨⟨rfl, rfl, rfl⟩, rfl⟩

end Cache.SameHoldings

namespace BacktestKernel

section Holdings

variable {σ : Type} [DecimalWidth] {setup : Setup σ} {k k' k'' : BacktestKernel σ}

/-- A move of the kernel after which it holds what it held. -/
def Holds (k k' : BacktestKernel σ) : Prop := k.core.oms.cache.SameHoldings k'.core.oms.cache

namespace Holds

omit [DecimalWidth] in
theorem frame (h : k'.core.oms.cache = k.core.oms.cache) : Holds k k' := by
  rw [Holds, h]
  exact .refl _

omit [DecimalWidth] in
theorem refl (k : BacktestKernel σ) : Holds k k := frame rfl

omit [DecimalWidth] in
theorem trans (h : Holds k k') (h' : Holds k' k'') : Holds k k'' := Cache.SameHoldings.trans h h'

theorem submit (risk : RiskEngine) (portfolio : Portfolio) (order : Order) (now : UnixNanos) :
    Holds k (perform setup (.submit risk portfolio order now) k).2 := by
  change k.core.oms.cache.SameHoldings (ExecutionEngine.submit ..).2.cache
  obtain heq | ⟨ev, s', heq, -, -, hcache, -⟩ := ExecutionEngine.submit_cases risk portfolio
    setup.config.brokerage k.core.clock.now order now k.core.oms
  · rw [heq]
    exact .refl _
  · rw [heq, hcache]
    exact .addOrder _

theorem cancel (id : ClientOrderId) (now : UnixNanos) :
    Holds k (perform setup (.cancel id now) k).2 := by
  change k.core.oms.cache.SameHoldings
    (ExecutionEngine.applyToOrder id (.pendingCancel now) k.core.oms).2.cache
  rcases ExecutionEngine.applyToOrder_cases id (.pendingCancel now) k.core.oms with
    ⟨-, heq⟩ | ⟨o, o', -, -, heq⟩ | ⟨o, -, -, heq⟩
  · rw [heq]
    exact .refl _
  · rw [heq]
    exact .setOrder id o'
  · rw [heq]
    exact .setOrder id o

theorem moves : Moves setup Holds where
  refl := refl
  trans := trans
  frame hcore _ _ _ := frame (by rw [hcore])
  journal _ _ _ := frame rfl
  setTimer _ _ _ := frame rfl
  cancelTimer _ _ := frame rfl
  submit _ order := submit _ _ order _
  cancel _ := cancel

end Holds

end Holdings

end BacktestKernel

/-! ## Closing them all -/

section CloseAll

variable [DecimalWidth] {settle : Currency} {s s' s'' : Oms} {iid : InstrumentId} {now : UnixNanos}
  {tagSuffix : String}

theorem exposureOf_congr {c c' : Cache} (h : c.SameMarket c') :
    PortfolioState.exposureOf c' settle = PortfolioState.exposureOf c settle := by
  funext pos
  unfold PortfolioState.exposureOf Cache.instrument Cache.mark
  rw [h.instruments, h.marks]

theorem Oms.Closes.of_sameHoldings (h : Oms.Closes settle s s' iid)
    (hsame : s'.cache.SameHoldings s''.cache) : Oms.Closes settle s s'' iid where
  market := h.market.trans hsame.toSameMarket
  keyed := h.keyed.congr hsame.instruments hsame.positions
  others i hi := (congrArg (AList.lookup i) hsame.positions).trans (h.others i hi)
  flat pos hpos := h.flat pos ((congrArg (AList.lookup iid) hsame.positions).symm.trans hpos)
  exposure pos hpos hopen := by
    obtain ⟨pos', hpos', hzero⟩ := h.exposure pos hpos hopen
    refine ⟨pos', (congrArg (AList.lookup iid) hsame.positions).trans hpos', ?_⟩
    rw [exposureOf_congr hsame.toSameMarket]
    exact hzero
  equity := (equity_congr hsame.toSameMarket (by rw [hsame.positions])).trans h.equity

variable (settle) in
/-- Some positions have been closed, among them those of `done` that have a mark. -/
structure Oms.ClosesAll (s s' : Oms) (done : List InstrumentId) : Prop where
  market : s.cache.SameMarket s'.cache
  keyed : s'.Keyed
  others : ∀ i, s'.cache.position i = s.cache.position i
    ∨ ∀ pos, s'.cache.position i = some pos → pos.side = .flat
  flat : ∀ i ∈ done, s.cache.mark i ≠ none → ∀ pos, s'.cache.position i = some pos →
    pos.side = .flat
  equity : PortfolioState.equity s'.cache settle = PortfolioState.equity s.cache settle

namespace Oms.ClosesAll

variable {done : List InstrumentId}

theorem refl (h : s.Keyed) : Oms.ClosesAll settle s s [] :=
  ⟨⟨rfl, rfl, rfl⟩, h, fun _ ↦ .inl rfl, fun _ h ↦ absurd h List.not_mem_nil, rfl⟩

theorem canClose (h : Oms.ClosesAll settle s s' done) (hcan : s.CanClose now tagSuffix) :
    s'.CanClose now tagSuffix := by
  intro i mark hmark inst pos f hclosing
  obtain ⟨hinst, hpos, hfill⟩ := closing_eq_some hclosing
  have hmark' : s.cache.mark i = some mark := by
    rw [← hmark, Cache.mark, Cache.mark, h.market.marks]
  rcases h.others i with hsame | hflat
  · refine hcan i mark hmark' inst pos f ?_
    have hinst' : s.cache.instrument i = some inst := by
      rw [← hinst, Cache.instrument, Cache.instrument, h.market.instruments]
    simp only [Oms.closing, hinst', ← hsame, hpos, hfill, bind, Option.bind_some]
  · exact absurd (hflat pos hpos) (closingFill_eq_some hfill).1

theorem close (h : Oms.ClosesAll settle s s' done) (hclose : Oms.Closes settle s' s'' iid) :
    Oms.ClosesAll settle s s'' (done ++ [iid]) where
  market := h.market.trans hclose.market
  keyed := hclose.keyed
  others i := by
    by_cases hi : i = iid
    · subst hi
      exact .inr hclose.flat
    · rw [hclose.others i hi]
      exact h.others i
  flat i hmem hmark pos hpos := by
    by_cases hi : i = iid
    · subst hi
      exact hclose.flat pos hpos
    · rw [hclose.others i hi] at hpos
      refine h.flat i ?_ hmark pos hpos
      exact (List.mem_append.mp hmem).resolve_right fun hlast ↦ hi (List.mem_singleton.mp hlast)
  equity := hclose.equity.trans h.equity

theorem skip (h : Oms.ClosesAll settle s s' done) (hmark : s'.cache.mark iid = none) :
    Oms.ClosesAll settle s s' (done ++ [iid]) where
  market := h.market
  keyed := h.keyed
  others := h.others
  flat i hmem hmark' pos hpos := by
    rcases List.mem_append.mp hmem with hdone | hlast
    · exact h.flat i hdone hmark' pos hpos
    · rw [List.mem_singleton.mp hlast] at hmark'
      rw [Cache.mark, h.market.marks] at hmark
      exact absurd hmark hmark'
  equity := h.equity

end Oms.ClosesAll

end CloseAll

namespace BacktestKernel

section Liquidation

variable {σ : Type} [DecimalWidth] {setup : Setup σ} {k : BacktestKernel σ} {now : UnixNanos}

theorem closes_closePositionAt {settle : Currency} {iid : InstrumentId} {mark : Price}
    {tagSuffix : String} (hkeyed : k.core.oms.Keyed) (hcan : k.core.oms.CanClose now tagSuffix)
    (hmark : k.core.oms.cache.mark iid = some mark) :
    Oms.Closes settle k.core.oms
      (closePositionAt setup iid mark now tagSuffix k).core.oms iid := by
  have hclose : Oms.Closes settle k.core.oms
      (perform setup (.closeAt iid mark now tagSuffix) k).2.core.oms iid :=
    Core.closes_closeAt _ hkeyed hcan hmark
  have hmoves : Moves setup Holds := Holds.moves
  exact hclose.of_sameHoldings (hmoves.foldl (fun _ ev ↦ hmoves.notifyClosed now ev) _)

variable (setup) in
/-- **Whole fold.** -/
theorem closesAll_foldl {settle : Currency} (hkeyed : k.core.oms.Keyed)
    (hcan : k.core.oms.CanClose now "LIQ") (iids : List InstrumentId) :
    Oms.ClosesAll settle k.core.oms (iids.foldl (fun k iid ↦
      match k.core.oms.cache.mark iid with
      | some mark => closePositionAt setup iid mark now "LIQ" k
      | none => k) k).core.oms iids := by
  induction iids using List.reverseRecOn with
  | nil => exact .refl hkeyed
  | append_singleton iids iid ih =>
    rw [List.foldl_append, List.foldl_cons, List.foldl_nil]
    split
    · exact ih.close (closes_closePositionAt ih.keyed (ih.canClose hcan) ‹_›)
    · exact ih.skip ‹_›

/-- **Forced liquidation.** Closing a position at its mark changes no equity and leaves no exposure.
When the liquidation check is over, there was no exposure to begin with, or the equity was enough,
or every position that has a mark is flat and the equity is what it was. -/
theorem liquidation_complete {rate : Decimal}
    (hrate : setup.config.risk.maintenanceMarginRate = some rate) (hkeyed : k.core.oms.Keyed)
    (hcan : k.core.oms.CanClose now "LIQ") :
    (∀ iid pos mark, k.core.oms.cache.position iid = some pos → pos.side ≠ .flat →
      k.core.oms.cache.mark iid = some mark →
      let c := (closePositionAt setup iid mark now "LIQ" k).core.oms.cache
      PortfolioState.equity c setup.config.settle
          = PortfolioState.equity k.core.oms.cache setup.config.settle
        ∧ ∃ pos', c.position iid = some pos' ∧ pos'.side = .flat
          ∧ PortfolioState.exposureOf c setup.config.settle pos' = 0)
    ∧ ((PortfolioState.grossExposure k.core.oms.cache setup.config.settle).amount ≤ 0
      ∨ (PortfolioState.grossExposure k.core.oms.cache setup.config.settle).amount * rate
        ≤ (PortfolioState.equity k.core.oms.cache setup.config.settle).amount
      ∨ let c := (checkLiquidation setup now k).core.oms.cache
        (∀ iid pos, c.position iid = some pos → c.mark iid ≠ none → pos.side = .flat)
        ∧ PortfolioState.equity c setup.config.settle
          = PortfolioState.equity k.core.oms.cache setup.config.settle) := by
  constructor
  · intro iid pos mark hpos hopen hmark
    have hclose : Oms.Closes setup.config.settle k.core.oms
        (closePositionAt setup iid mark now "LIQ" k).core.oms iid :=
      closes_closePositionAt hkeyed hcan hmark
    obtain ⟨pos', hpos', hzero⟩ := hclose.exposure pos hpos hopen
    exact ⟨hclose.equity, pos', hpos', hclose.flat pos' hpos', hzero⟩
  · unfold checkLiquidation
    simp only [hrate]
    split_ifs with henough
    · rcases henough with hnone | henough
      · exact .inl hnone
      · exact .inr (.inl henough)
    · right
      right
      have hall : Oms.ClosesAll setup.config.settle k.core.oms _
          (((setup.hash.positions k.ops k.core.oms.cache).filter fun p ↦ p.side ≠ .flat).map
            Position.instrumentId) := closesAll_foldl setup hkeyed hcan _
      refine ⟨fun iid pos hpos hmark ↦ ?_, hall.equity⟩
      rcases hall.others iid with hsame | hflat
      · -- an open position was on the list
        by_contra hopen
        have hold : k.core.oms.cache.position iid = some pos := hsame.symm.trans hpos
        have hmem : pos ∈ setup.hash.positions k.ops k.core.oms.cache :=
          (setup.hash.positions_perm k.ops k.core.oms.cache).mem_iff.mpr
            (List.mem_map.mpr ⟨⟨iid, pos⟩, AList.mem_lookup_iff.mp hold, rfl⟩)
        have hiid : iid ∈ ((setup.hash.positions k.ops k.core.oms.cache).filter fun p ↦
            p.side ≠ .flat).map Position.instrumentId :=
          List.mem_map.mpr ⟨pos, List.mem_filter.mpr ⟨hmem, by simpa using hopen⟩,
            (hkeyed iid pos hold).1⟩
        refine hopen (hall.flat iid hiid (fun hnone ↦ hmark ?_) pos hpos)
        exact (congrArg (AList.lookup iid) hall.market.marks).trans hnone
      · exact hflat pos hpos

theorem Reached.keyed {events : List MarketEvent} (h : Reached setup events k) :
    k.core.oms.Keyed := by
  rw [h.replays]
  have hsound := foldl_induction (I := fun c : Core ↦ c.oms.Sound)
    (fun c op hc ↦ Core.sound_step setup.config.brokerage hc op)
    (fresh_initialCore setup.config).sound k.ops
  exact hsound.keyed

end Liquidation

section Instances

open scoped RustDecimal

/-- A pair that is traded in thousandths. -/
def finePair : Instrument :=
  currencyPair ⟨⟨"BTCUSDT"⟩, ⟨"SIM"⟩⟩ ⟨"BTC", 8, eight_le_maxPrecision⟩
    ⟨"USDT", 2, two_le_maxPrecision⟩ 2 3 ⟨1, 2⟩ ⟨1, 3⟩ none 0 0

/-- A backtest of the pair that liquidates below half of the exposure. -/
def maintained : Setup Unit where
  config := ⟨[finePair], ⟨"USDT", 2, two_le_maxPrecision⟩, ⟨100, ⟨"USDT", 2, two_le_maxPrecision⟩⟩,
    { RiskLimits.unlimited with maintenanceMarginRate := some (1 / 2) },
    ({} : DefaultBrokerageModel).brokerage, 0⟩
  strategyId := ⟨"S"⟩
  strategy := ⟨fun _ _ ↦ .done ()⟩
  initial := ()
  killed := false
  hash := .lastInserted

/-- A fill of the pair. -/
def finePairFill (side : OrderSide) (px : ℤ) (qty : ℕ) : Fill where
  tradeId := ⟨"T"⟩
  clientOrderId := ⟨"C"⟩
  venueOrderId := ⟨"V"⟩
  instrumentId := finePair.id
  side := side
  lastPx := ⟨px, 2⟩
  lastQty := ⟨qty, 3⟩
  fee := Money.zero finePair.settlementCurrency
  liquidity := .taker
  tsEvent := 0
  tsInit := 0

/-- The position after fills of the pair. -/
def finePairPosition (fills : List Fill) : Position :=
  fills.foldl (Position.applied finePair)
    (Position.flat ⟨"P"⟩ finePair.id 2 3 finePair.settlementCurrency)

/-- The kernel with this position, at a mark of one. -/
def finePairKernel (fills : List Fill) : BacktestKernel Unit :=
  let k := build maintained
  { k with core := { k.core with oms := { k.core.oms with
    cache := { k.core.oms.cache with
      positions := (∅ : Map InstrumentId Position).insert finePair.id (finePairPosition fills)
      marks := (∅ : Map InstrumentId Price).insert finePair.id ⟨100, 2⟩ } } } }

theorem position_finePairKernel {fills : List Fill} {iid : InstrumentId} {pos : Position}
    (h : (finePairKernel fills).core.oms.cache.position iid = some pos) :
    iid = finePair.id ∧ pos = finePairPosition fills := by
  change ((∅ : Map InstrumentId Position).insert finePair.id (finePairPosition fills)).lookup iid
    = some pos at h
  by_cases hiid : iid = finePair.id
  · rw [hiid, AList.lookup_insert] at h
    exact ⟨hiid, (Option.some.inj h).symm⟩
  · rw [AList.lookup_insert_ne hiid, AList.lookup_empty] at h
    cases h

theorem instrument_finePair :
    (initialCore maintained.config).oms.cache.instrument finePair.id = some finePair := by
  decide

theorem keyed_finePairKernel (fills : List Fill) : (finePairKernel fills).core.oms.Keyed := by
  intro iid pos hpos
  obtain ⟨rfl, rfl⟩ := position_finePairKernel hpos
  have hfold : (finePairPosition fills).instrumentId = finePair.id
      ∧ Position.WellFormed finePair (finePairPosition fills) :=
    foldl_induction (I := fun pos ↦ pos.instrumentId = finePair.id
      ∧ Position.WellFormed finePair pos)
      (fun pos f h ↦ ⟨(Position.instrumentId_applied _ _ _).trans h.1, h.2.applied f⟩)
      ⟨rfl, Position.wellFormed_flat _ _ finePair⟩ fills
  exact ⟨hfold.1, finePair, instrument_finePair, hfold.2⟩

/-- What is to be evaluated to see that the position can be closed. -/
theorem canClose_finePairKernel {fills : List Fill}
    (h : ∀ f ∈ closingFill (finePairPosition fills) finePair finePair.id ⟨100, 2⟩ 0 "LIQ",
      Position.Books finePair (finePairPosition fills) f) :
    (finePairKernel fills).core.oms.CanClose 0 "LIQ" := by
  intro iid mark hmark inst pos f hclosing
  obtain ⟨hinst, hpos, hfill⟩ := closing_eq_some hclosing
  obtain ⟨rfl, rfl⟩ := position_finePairKernel hpos
  have hmark' : (finePairKernel fills).core.oms.cache.mark finePair.id = some ⟨100, 2⟩ := rfl
  obtain rfl := Option.some.inj (hmark'.symm.trans hmark)
  obtain rfl := Option.some.inj (instrument_finePair.symm.trans hinst)
  exact ⟨by decide +kernel, h f hfill⟩

/-- The position of one coin, bought at ten, is closed at one. -/
theorem liquidation_complete_finePair :
    (PortfolioState.equity (finePairKernel [finePairFill .buy 1000 1000]).core.oms.cache
        maintained.config.settle).amount = -8
    ∧ (∀ iid pos, (checkLiquidation maintained 0
        (finePairKernel [finePairFill .buy 1000 1000])).core.oms.cache.position iid = some pos →
      (checkLiquidation maintained 0
        (finePairKernel [finePairFill .buy 1000 1000])).core.oms.cache.mark iid ≠ none →
      pos.side = .flat)
    ∧ PortfolioState.equity (checkLiquidation maintained 0
        (finePairKernel [finePairFill .buy 1000 1000])).core.oms.cache maintained.config.settle
      = PortfolioState.equity (finePairKernel [finePairFill .buy 1000 1000]).core.oms.cache
        maintained.config.settle := by
  refine ⟨by decide +kernel, ?_⟩
  have hcan : (finePairKernel [finePairFill .buy 1000 1000]).core.oms.CanClose 0 "LIQ" :=
    canClose_finePairKernel (by decide +kernel)
  have hrate : maintained.config.risk.maintenanceMarginRate = some (1 / 2) := rfl
  rcases (liquidation_complete hrate (keyed_finePairKernel _) hcan).2 with hnone | henough | hall
  · exact absurd hnone (by decide +kernel)
  · exact absurd henough (by decide +kernel)
  · exact hall

/-- A thousandth of a coin is left, whose exposure rounds to nothing. The account is down to minus
eight, but the position is not closed. -/
theorem not_liquidated_of_dust :
    (PortfolioState.equity (finePairKernel [finePairFill .buy 1000 1000,
        finePairFill .sell 100 999]).core.oms.cache maintained.config.settle).amount
      < (PortfolioState.grossExposure (finePairKernel [finePairFill .buy 1000 1000,
        finePairFill .sell 100 999]).core.oms.cache maintained.config.settle).amount * (1 / 2)
    ∧ ((checkLiquidation maintained 0 (finePairKernel [finePairFill .buy 1000 1000,
        finePairFill .sell 100 999])).core.oms.cache.position finePair.id).map
          (fun pos ↦ (pos.side, pos.quantity)) = some (.long, ⟨1, 3⟩) := by
  decide +kernel

end Instances

end BacktestKernel

end Coinext
