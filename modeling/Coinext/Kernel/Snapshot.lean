import Coinext.Engine.Exposure
import Coinext.Kernel.Backtest
import Coinext.Model.Pnl

/-!
# Three computations of equity

The portfolio, which the risk gate and the liquidation check read, converts a profit that is held in
a coin at the mark. The equity of the kernel and the portfolio snapshot add amounts of all
currencies as they are. `equities_agree_iff` says by how much the three differ: by what the
positions in other currencies contribute, by what the account does not hold of the starting balance,
and by the rounding of the total. They agree when all amounts are in one currency
(`equities_agree_of_inOneCurrency`).
-/

namespace Coinext

/-! ## The portfolio snapshot -/

structure PositionSnapshot where
  symbol : String
  venue : String
  netQty : Decimal
  avgPrice : Decimal
  markPrice : Decimal
  realizedPnl : Decimal
  unrealizedPnl : Decimal
  notional : Decimal
deriving DecidableEq

structure PortfolioSnapshot where
  cashBalance : Decimal
  realizedPnl : Decimal
  equity : Decimal
  grossExposure : Decimal
  netExposure : Decimal
  unrealizedPnl : Decimal
  positions : List PositionSnapshot
deriving DecidableEq

section Snapshot

variable [DecimalWidth] (c : Cache) (settle : Currency)

/-- The sign of a side. -/
def PositionSide.sign : PositionSide → Decimal
  | .long => 1
  | .short => -1
  | .flat => 0

/-- The balance of the account. -/
def cashBalance : Decimal :=
  match c.account with
  | some balances => ((balances.lookup settle).getD (Money.zero settle)).amount
  | none => 0

def snapshotPosition (pos : Position) : PositionSnapshot :=
  let (markPrice, unrealized, notional) :=
    match c.instrument pos.instrumentId, c.mark pos.instrumentId with
    | some inst, some mark =>
      (mark.asDecimal, (pos.unrealizedPnl mark inst).amount, (pos.notional mark inst).amount)
    | _, _ => (0, 0, 0)
  { symbol := pos.instrumentId.symbol.text
    venue := pos.instrumentId.venue.text
    netQty := pos.side.sign * pos.quantity.asDecimal
    avgPrice := pos.avgPxOpen.asDecimal
    markPrice := markPrice
    realizedPnl := pos.realizedPnl.amount
    unrealizedPnl := unrealized
    notional := notional }

/-- The state of the account and its positions, for telemetry. -/
def snapshotPortfolio : PortfolioSnapshot :=
  let rows := (PortfolioState.positions c).map fun pos ↦ (pos.side.sign, snapshotPosition c pos)
  let cash := cashBalance c settle
  let realized := (rows.map fun r ↦ r.2.realizedPnl).sum
  let unrealized := (rows.map fun r ↦ r.2.unrealizedPnl).sum
  { cashBalance := cash
    realizedPnl := realized
    equity := cash + realized + unrealized
    grossExposure := (rows.map fun r ↦ |r.2.notional|).sum
    netExposure := (rows.map fun r ↦ r.1 * r.2.notional).sum
    unrealizedPnl := unrealized
    positions := rows.map Prod.snd }

/-! ## What a position contributes -/

/-- Realized and unrealized profit of a position, in whatever currency they are. -/
def rawProfit (pos : Position) : Decimal :=
  (snapshotPosition c pos).realizedPnl + (snapshotPosition c pos).unrealizedPnl

/-- The amounts of the position are in the currency, or there are none: nothing has been realized in
another currency, and nothing that has a mark is held in a contract that is settled in another. -/
def SettledIn (pos : Position) : Prop :=
  (pos.realizedPnl.currency = settle ∨ pos.realizedPnl.amount = 0)
    ∧ ∀ inst ∈ c.instrument pos.instrumentId, ∀ mark ∈ c.mark pos.instrumentId,
      inst.settlementCurrency = settle ∨ pos.quantity.asDecimal = 0

instance (pos : Position) : Decidable (SettledIn c settle pos) :=
  inferInstanceAs (Decidable (_ ∧ _))

variable {c settle}

namespace SettledIn

variable {pos : Position} {inst : Instrument} {mark : Price}

theorem unrealized (h : SettledIn c settle pos) (hinst : c.instrument pos.instrumentId = some inst)
    (hmark : c.mark pos.instrumentId = some mark) :
    (pos.unrealizedPnl mark inst).currency = settle ∨ (pos.unrealizedPnl mark inst).amount = 0 := by
  rcases h.2 inst hinst mark hmark with hsettle | hsize
  · exact .inl ((currency_unrealizedPnl pos mark inst).trans hsettle)
  · exact .inr (amount_unrealizedPnl_of_size_zero hsize mark inst)

theorem notional (h : SettledIn c settle pos) (hinst : c.instrument pos.instrumentId = some inst)
    (hmark : c.mark pos.instrumentId = some mark) :
    (pos.notional mark inst).currency = settle ∨ (pos.notional mark inst).amount = 0 := by
  rcases h.2 inst hinst mark hmark with hsettle | hsize
  · exact .inl ((currency_notional pos mark inst).trans hsettle)
  · exact .inr (amount_notional_of_size_zero hsize mark inst)

/-- The profit of a position that is settled in the currency needs no conversion. -/
theorem profitOf_eq (h : SettledIn c settle pos) :
    PortfolioState.profitOf c settle pos = rawProfit c pos := by
  -- without an instrument or a mark, the portfolio drops what it would have to convert
  have hdropped : (if pos.realizedPnl.currency = settle then pos.realizedPnl.amount else 0)
      = pos.realizedPnl.amount := by
    rw [ite_eq_left_iff]
    exact fun hne ↦ (h.1.resolve_left hne).symm
  have hconverted (inst : Instrument) (mark : Price) :
      (if pos.realizedPnl.currency = settle then pos.realizedPnl.amount
        else (convertToSettle pos.realizedPnl inst mark settle).getD 0)
        = pos.realizedPnl.amount := by
    rw [getD_convertToSettle h.1, ite_self]
  unfold PortfolioState.profitOf rawProfit snapshotPosition
  cases hinst : c.instrument pos.instrumentId with
  | none => exact congrArg (· + 0) hdropped
  | some inst =>
    cases hmark : c.mark pos.instrumentId with
    | none => exact congrArg (· + 0) hdropped
    | some mark =>
      simp only [hconverted, getD_convertToSettle (h.unrealized hinst hmark)]

theorem exposureOf_eq (h : SettledIn c settle pos) :
    PortfolioState.exposureOf c settle pos = (snapshotPosition c pos).notional := by
  unfold PortfolioState.exposureOf snapshotPosition
  cases hinst : c.instrument pos.instrumentId with
  | none => rfl
  | some inst =>
    cases hmark : c.mark pos.instrumentId with
    | none => rfl
    | some mark => simp only [getD_convertToSettle (h.notional hinst hmark)]

end SettledIn

omit [DecimalWidth] in
/-- Two sums differ by the terms in which they differ. -/
theorem sum_map_sub_sum_map {α : Type} {p : α → Prop} [DecidablePred p] {f g : α → Decimal}
    (h : ∀ a, p a → f a = g a) (l : List α) :
    (l.map f).sum - (l.map g).sum = ((l.filter fun a ↦ ¬ p a).map fun a ↦ f a - g a).sum := by
  induction l with
  | nil => simp
  | cons a l ih =>
    rw [List.map_cons, List.map_cons, List.sum_cons, List.sum_cons, add_sub_add_comm, ih]
    by_cases ha : p a
    · rw [List.filter_cons_of_neg (by simpa using ha), h a ha, sub_self, zero_add]
    · rw [List.filter_cons_of_pos (by simpa using ha), List.map_cons, List.sum_cons]

/-! ## The gaps -/

variable (c settle)

/-- What positions in other currencies contribute as they are, over what they are worth. -/
def coinGap : Decimal :=
  (((PortfolioState.positions c).filter fun pos ↦ ¬ SettledIn c settle pos).map fun pos ↦
    rawProfit c pos - PortfolioState.profitOf c settle pos).sum

/-- The same for the exposure. A notional below zero counts as exposure in the snapshot only. -/
def exposureGap : Decimal :=
  (((PortfolioState.positions c).filter fun pos ↦ ¬ (SettledIn c settle pos
    ∧ 0 ≤ (snapshotPosition c pos).notional)).map fun pos ↦
      |(snapshotPosition c pos).notional| - PortfolioState.exposureOf c settle pos).sum

/-- What the portfolio loses when it rounds a total to money; all of it when the total is out of
range. -/
def roundingGap (total : Decimal) : Decimal :=
  total - (PortfolioState.toMoney settle total).amount

/-- The profits of all positions, in the settlement currency. -/
def profits : Decimal := ((PortfolioState.positions c).map (PortfolioState.profitOf c settle)).sum

/-- The notionals of all positions, in the settlement currency. -/
def exposures : Decimal :=
  ((PortfolioState.positions c).map (PortfolioState.exposureOf c settle)).sum

theorem sum_rawProfit :
    ((PortfolioState.positions c).map (rawProfit c)).sum = profits c settle + coinGap c settle := by
  rw [profits, coinGap, ← sum_map_sub_sum_map fun pos h ↦ (SettledIn.profitOf_eq h).symm]
  ring

/-- The amounts of all positions, as the snapshot and the kernel add them. -/
theorem sum_realized_add_sum_unrealized :
    ((PortfolioState.positions c).map fun pos ↦ (snapshotPosition c pos).realizedPnl).sum
      + ((PortfolioState.positions c).map fun pos ↦ (snapshotPosition c pos).unrealizedPnl).sum
      = profits c settle + coinGap c settle := by
  rw [← sum_rawProfit]
  exact (List.sum_map_add).symm

theorem snapshot_equity_eq : (snapshotPortfolio c settle).equity
    = (PortfolioState.equity c settle).amount + (coinGap c settle
      + roundingGap settle (cashBalance c settle + profits c settle)) := by
  have hsnapshot : (snapshotPortfolio c settle).equity
      = cashBalance c settle + (profits c settle + coinGap c settle) := by
    rw [← sum_realized_add_sum_unrealized, ← add_assoc]
    simp only [snapshotPortfolio, List.map_map]
    rfl
  have hportfolio : (PortfolioState.equity c settle).amount
      = (PortfolioState.toMoney settle (cashBalance c settle + profits c settle)).amount := rfl
  rw [hsnapshot, hportfolio, roundingGap]
  ring

theorem snapshot_grossExposure_eq : (snapshotPortfolio c settle).grossExposure
    = (PortfolioState.grossExposure c settle).amount
      + (exposureGap c settle + roundingGap settle (exposures c settle)) := by
  have hsnapshot : (snapshotPortfolio c settle).grossExposure
      = ((PortfolioState.positions c).map fun pos ↦ |(snapshotPosition c pos).notional|).sum := by
    simp only [snapshotPortfolio, List.map_map]
    rfl
  have hgap : exposureGap c settle
      = ((PortfolioState.positions c).map fun pos ↦ |(snapshotPosition c pos).notional|).sum
        - exposures c settle := by
    refine (sum_map_sub_sum_map (fun pos h ↦ ?_) _).symm
    rw [h.1.exposureOf_eq, abs_of_nonneg h.2]
  have hportfolio : (PortfolioState.grossExposure c settle).amount
      = (PortfolioState.toMoney settle (exposures c settle)).amount := rfl
  rw [hsnapshot, hportfolio, hgap, roundingGap]
  ring

/-! ## Accounts in one currency -/

variable {c settle}

theorem roundingGap_of_onGrid {total : Decimal} (hgrid : OnGrid total settle.precision)
    (hfits : DecimalWidth.fits (mantissa total settle.precision) = true) :
    roundingGap settle total = 0 := by
  rw [roundingGap, amount_toMoney hfits, Currency.rounded_of_onGrid hgrid]
  exact sub_self total

omit [DecimalWidth] in
theorem onGrid_of_currency {m : Money} (h : m.currency = settle ∨ m.amount = 0) :
    OnGrid m.amount settle.precision := by
  rcases h with h | h
  · rw [← h]
    exact Money.onGrid_amount m
  · rw [h]
    exact .zero _

section Settled

variable (h : ∀ pos ∈ PortfolioState.positions c, SettledIn c settle pos)
include h

theorem coinGap_of_settledIn : coinGap c settle = 0 := by
  have hnone : (PortfolioState.positions c).filter (fun pos ↦ ¬ SettledIn c settle pos) = [] :=
    List.filter_eq_nil_iff.mpr fun pos hpos ↦ by simpa using h pos hpos
  rw [coinGap, hnone]
  rfl

theorem profits_eq : profits c settle = ((PortfolioState.positions c).map (rawProfit c)).sum := by
  rw [sum_rawProfit c settle, coinGap_of_settledIn h, add_zero]

theorem exposures_eq : exposures c settle
    = ((PortfolioState.positions c).map fun pos ↦ (snapshotPosition c pos).notional).sum :=
  congrArg List.sum (List.map_congr_left fun pos hpos ↦ (h pos hpos).exposureOf_eq)

theorem onGrid_profits : OnGrid (profits c settle) settle.precision := by
  refine OnGrid.sum fun d hd ↦ ?_
  obtain ⟨pos, hpos, rfl⟩ := List.mem_map.mp hd
  have hsettled := h pos hpos
  rw [hsettled.profitOf_eq]
  refine OnGrid.add (onGrid_of_currency hsettled.1) ?_
  unfold snapshotPosition
  cases hinst : c.instrument pos.instrumentId with
  | none => exact .zero _
  | some inst =>
    cases hmark : c.mark pos.instrumentId with
    | none => exact .zero _
    | some mark => exact onGrid_of_currency (hsettled.unrealized hinst hmark)

theorem onGrid_exposures : OnGrid (exposures c settle) settle.precision := by
  refine OnGrid.sum fun d hd ↦ ?_
  obtain ⟨pos, hpos, rfl⟩ := List.mem_map.mp hd
  have hsettled := h pos hpos
  rw [hsettled.exposureOf_eq]
  unfold snapshotPosition
  cases hinst : c.instrument pos.instrumentId with
  | none => exact .zero _
  | some inst =>
    cases hmark : c.mark pos.instrumentId with
    | none => exact .zero _
    | some mark => exact onGrid_of_currency (hsettled.notional hinst hmark)

end Settled

theorem exposureGap_of_settledIn (h : ∀ pos ∈ PortfolioState.positions c,
    SettledIn c settle pos ∧ 0 ≤ (snapshotPosition c pos).notional) :
    exposureGap c settle = 0 := by
  have hnone : (PortfolioState.positions c).filter (fun pos ↦ ¬ (SettledIn c settle pos
      ∧ 0 ≤ (snapshotPosition c pos).notional)) = [] :=
    List.filter_eq_nil_iff.mpr fun pos hpos ↦ by simpa using h pos hpos
  rw [exposureGap, hnone]
  rfl

end Snapshot

namespace BacktestKernel

section Equity

variable {σ : Type} [DecimalWidth] (setup : Setup σ) (k : BacktestKernel σ)

/-- What the account does not hold of the starting balance in the settlement currency. -/
def startGap : Decimal :=
  setup.config.startingBalance.amount - cashBalance k.core.oms.cache setup.config.settle

theorem equity_eq_snapshot_equity : equity setup k
    = (snapshotPortfolio k.core.oms.cache setup.config.settle).equity + startGap setup k := by
  have hunrealized : (PortfolioState.positions k.core.oms.cache).map (fun pos ↦
      (snapshotPosition k.core.oms.cache pos).unrealizedPnl)
      = (PortfolioState.positions k.core.oms.cache).map fun pos ↦
        match k.core.oms.cache.instrument pos.instrumentId,
          k.core.oms.cache.mark pos.instrumentId with
        | some inst, some mark => (pos.unrealizedPnl mark inst).amount
        | _, _ => 0 := by
    refine List.map_congr_left fun pos _ ↦ ?_
    unfold snapshotPosition
    cases k.core.oms.cache.instrument pos.instrumentId with
    | none => rfl
    | some inst => cases k.core.oms.cache.mark pos.instrumentId <;> rfl
  have hkernel : equity setup k = setup.config.startingBalance.amount
      + ((PortfolioState.positions k.core.oms.cache).map fun pos ↦
        (snapshotPosition k.core.oms.cache pos).realizedPnl).sum
      + ((PortfolioState.positions k.core.oms.cache).map fun pos ↦
        (snapshotPosition k.core.oms.cache pos).unrealizedPnl).sum := by
    rw [hunrealized]
    rfl
  have hsnapshot : (snapshotPortfolio k.core.oms.cache setup.config.settle).equity
      = cashBalance k.core.oms.cache setup.config.settle
        + ((PortfolioState.positions k.core.oms.cache).map fun pos ↦
          (snapshotPosition k.core.oms.cache pos).realizedPnl).sum
        + ((PortfolioState.positions k.core.oms.cache).map fun pos ↦
          (snapshotPosition k.core.oms.cache pos).unrealizedPnl).sum := by
    simp only [snapshotPortfolio, List.map_map]
    rfl
  rw [hkernel, hsnapshot, startGap]
  ring

/-- The three computations of equity agree up to one unit of the settlement currency, and the two of
gross exposure agree. -/
structure EquitiesAgree : Prop where
  kernel_snapshot : |equity setup k
    - (snapshotPortfolio k.core.oms.cache setup.config.settle).equity|
      ≤ ulp setup.config.settle.precision
  kernel_portfolio : |equity setup k
    - (PortfolioState.equity k.core.oms.cache setup.config.settle).amount|
      ≤ ulp setup.config.settle.precision
  snapshot_portfolio : |(snapshotPortfolio k.core.oms.cache setup.config.settle).equity
    - (PortfolioState.equity k.core.oms.cache setup.config.settle).amount|
      ≤ ulp setup.config.settle.precision
  exposure : (snapshotPortfolio k.core.oms.cache setup.config.settle).grossExposure
    = (PortfolioState.grossExposure k.core.oms.cache setup.config.settle).amount

/-- What the equity of the portfolio leaves out of the snapshot's: what coins are not worth, and the
rounding of the total. -/
def profitGap : Decimal :=
  coinGap k.core.oms.cache setup.config.settle
    + roundingGap setup.config.settle (cashBalance k.core.oms.cache setup.config.settle
      + profits k.core.oms.cache setup.config.settle)

/-- **Agreement.** The three computations agree exactly when the account holds the starting balance,
the amounts of positions in other currencies add up to what they are worth, up to a unit, and the
notionals of such positions, and of those below zero, add up to their exposure. -/
theorem equities_agree_iff : EquitiesAgree setup k
    ↔ |startGap setup k| ≤ ulp setup.config.settle.precision
      ∧ |startGap setup k + profitGap setup k| ≤ ulp setup.config.settle.precision
      ∧ |profitGap setup k| ≤ ulp setup.config.settle.precision
      ∧ exposureGap k.core.oms.cache setup.config.settle
        + roundingGap setup.config.settle (exposures k.core.oms.cache setup.config.settle) = 0 := by
  have hkernel := equity_eq_snapshot_equity setup k
  have hsnapshot := snapshot_equity_eq k.core.oms.cache setup.config.settle
  have hexposure := snapshot_grossExposure_eq k.core.oms.cache setup.config.settle
  have hks : equity setup k - (snapshotPortfolio k.core.oms.cache setup.config.settle).equity
      = startGap setup k := by
    rw [hkernel]
    ring
  have hkp : equity setup k - (PortfolioState.equity k.core.oms.cache setup.config.settle).amount
      = startGap setup k + profitGap setup k := by
    rw [hkernel, hsnapshot, profitGap]
    ring
  have hsp : (snapshotPortfolio k.core.oms.cache setup.config.settle).equity
      - (PortfolioState.equity k.core.oms.cache setup.config.settle).amount
      = profitGap setup k := by
    rw [hsnapshot, profitGap]
    ring
  constructor
  · rintro ⟨h₁, h₂, h₃, h₄⟩
    rw [hks] at h₁
    rw [hkp] at h₂
    rw [hsp] at h₃
    rw [hexposure, add_eq_left] at h₄
    exact ⟨h₁, h₂, h₃, h₄⟩
  · rintro ⟨h₁, h₂, h₃, h₄⟩
    refine ⟨by rwa [hks], by rwa [hkp], by rwa [hsp], ?_⟩
    rw [hexposure, h₄, add_zero]

/-- Every amount is one in the settlement currency, and in range. -/
structure InOneCurrency : Prop where
  balance : OnGrid (cashBalance k.core.oms.cache setup.config.settle) setup.config.settle.precision
  /-- The account holds the starting balance, up to one unit. -/
  start : |setup.config.startingBalance.amount
    - cashBalance k.core.oms.cache setup.config.settle| ≤ ulp setup.config.settle.precision
  settled : ∀ pos ∈ PortfolioState.positions k.core.oms.cache,
    SettledIn k.core.oms.cache setup.config.settle pos
  notional : ∀ pos ∈ PortfolioState.positions k.core.oms.cache,
    ∀ inst ∈ k.core.oms.cache.instrument pos.instrumentId,
    ∀ mark ∈ k.core.oms.cache.mark pos.instrumentId, 0 ≤ (pos.notional mark inst).amount
  equity_fits : DecimalWidth.fits (mantissa (cashBalance k.core.oms.cache setup.config.settle
    + ((PortfolioState.positions k.core.oms.cache).map (rawProfit k.core.oms.cache)).sum)
      setup.config.settle.precision) = true
  exposure_fits : DecimalWidth.fits (mantissa ((PortfolioState.positions k.core.oms.cache).map
    fun pos ↦ (snapshotPosition k.core.oms.cache pos).notional).sum
      setup.config.settle.precision) = true

/-- **Accounts in one currency.** When the account holds the starting balance, every amount is in
the settlement currency and no notional is below zero, the three computations agree, as long as the
totals are in range. -/
theorem equities_agree_of_inOneCurrency (h : InOneCurrency setup k) : EquitiesAgree setup k := by
  have hprofit : profitGap setup k = 0 := by
    rw [profitGap, coinGap_of_settledIn h.settled, zero_add]
    refine roundingGap_of_onGrid (h.balance.add (onGrid_profits h.settled)) ?_
    rw [profits_eq h.settled]
    exact h.equity_fits
  have hnotional : ∀ pos ∈ PortfolioState.positions k.core.oms.cache,
      SettledIn k.core.oms.cache setup.config.settle pos
        ∧ 0 ≤ (snapshotPosition k.core.oms.cache pos).notional := by
    refine fun pos hpos ↦ ⟨h.settled pos hpos, ?_⟩
    unfold snapshotPosition
    cases hinst : k.core.oms.cache.instrument pos.instrumentId with
    | none => exact le_rfl
    | some inst =>
      cases hmark : k.core.oms.cache.mark pos.instrumentId with
      | none => exact le_rfl
      | some mark => exact h.notional pos hpos inst hinst mark hmark
  have hexposure : exposureGap k.core.oms.cache setup.config.settle
      + roundingGap setup.config.settle (exposures k.core.oms.cache setup.config.settle) = 0 := by
    rw [exposureGap_of_settledIn hnotional, zero_add]
    refine roundingGap_of_onGrid (onGrid_exposures h.settled) ?_
    rw [exposures_eq h.settled]
    exact h.exposure_fits
  rw [equities_agree_iff, hprofit, add_zero, abs_zero]
  exact ⟨h.start, h.start, (ulp_pos _).le, hexposure⟩

end Equity

section Instances

open scoped RustDecimal

/-- A backtest of the coin-margined perpetual, with an account in dollars. -/
def coinMargined : Setup Unit where
  config := ⟨[Position.perp true], ⟨"USDT", 2, two_le_maxPrecision⟩, ⟨100000,
    ⟨"USDT", 2, two_le_maxPrecision⟩⟩, .unlimited, ({} : DefaultBrokerageModel).brokerage, 0⟩
  strategyId := ⟨"S"⟩
  strategy := ⟨fun _ _ ↦ .done ()⟩
  initial := ()
  killed := false
  hash := .lastInserted

/-- One hundred contracts, bought at one thousand. -/
def coinPosition : Position :=
  (Position.flat ⟨"P"⟩ (Position.perp true).id 1 0 (Position.perp true).settlementCurrency).applied
    (Position.perp true) (Position.perpFill true .buy 10000 100 0)

/-- The kernel with this position, at a mark of two thousand. -/
def coinKernel : BacktestKernel Unit :=
  let k := build coinMargined
  { k with core := { k.core with oms := { k.core.oms with
    cache := (k.core.oms.cache.upsertPosition coinPosition).setMark coinPosition.instrumentId
      ⟨20000, 1⟩ } } }

/-- The same of the perpetual that is settled in dollars. -/
def dollarMargined : Setup Unit :=
  { coinMargined with config := { coinMargined.config with instruments := [Position.perp false] } }

def dollarPosition : Position :=
  (Position.flat ⟨"P"⟩ (Position.perp false).id 1 0
    (Position.perp false).settlementCurrency).applied (Position.perp false)
    (Position.perpFill false .buy 10000 100 0)

def dollarKernel : BacktestKernel Unit :=
  let k := build dollarMargined
  { k with core := { k.core with oms := { k.core.oms with
    cache := (k.core.oms.cache.upsertPosition dollarPosition).setMark dollarPosition.instrumentId
      ⟨20000, 1⟩ } } }

/-- The contracts that are settled in dollars have gained in dollars. -/
theorem equities_agree_dollarKernel :
    InOneCurrency dollarMargined dollarKernel ∧ EquitiesAgree dollarMargined dollarKernel
      ∧ equity dollarMargined dollarKernel ≠ 1000 := by
  have h : InOneCurrency dollarMargined dollarKernel := by
    constructor
    · decide +kernel
    · decide +kernel
    · decide +kernel
    · decide +kernel
    · decide +kernel
    · decide +kernel
  exact ⟨h, equities_agree_of_inOneCurrency dollarMargined dollarKernel h, by decide +kernel⟩

/-- The position has gained five hundredths of a coin, which are worth one hundred dollars. The
kernel and the snapshot add five hundredths of a dollar, the portfolio one hundred dollars. The
exposure differs likewise. -/
theorem not_equities_agree_coinKernel :
    ¬ EquitiesAgree coinMargined coinKernel
      ∧ equity coinMargined coinKernel = 1000 + 5 / 100
      ∧ (snapshotPortfolio coinKernel.core.oms.cache coinMargined.config.settle).equity
        = 1000 + 5 / 100
      ∧ (PortfolioState.equity coinKernel.core.oms.cache coinMargined.config.settle).amount = 1100
      ∧ (snapshotPortfolio coinKernel.core.oms.cache coinMargined.config.settle).grossExposure
        = 5 / 100
      ∧ (PortfolioState.grossExposure coinKernel.core.oms.cache
        coinMargined.config.settle).amount = 100 := by
  refine ⟨fun h ↦ ?_, by decide +kernel⟩
  exact absurd h.kernel_portfolio (by decide +kernel)

end Instances

end BacktestKernel

end Coinext
