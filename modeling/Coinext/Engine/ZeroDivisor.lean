import Coinext.Engine.Risk
import Coinext.Model.Pnl
import Coinext.Sim.Brokerage

/-!
# Division by a zero price

The decimal library stops the program when it divides by zero, and a price may be zero. Everywhere
else in this development the quotient by zero is zero; here every function that divides is written
again with the division that stops, `none` standing for a program that has stopped.

Funding, notional and fees look at their price before they divide by it. The profit per unit looks
at the entry only, so an inverse position with a price behind it stops the program when it is
reduced or marked at zero, and with it the equity of the whole portfolio. The two theorems that
matter are that a call which completes does what the model says it does, and that exactly these
calls do not complete.
-/

namespace Coinext

/-! ## The division that stops -/

/-- The quotient of two decimals; `none` where the library stops the program. -/
def div? (x y : Decimal) : Option Decimal := if y = 0 then none else some (x / y)

namespace Position

def pnlPerQty? (isInverse : Bool) (entry exit mult : Decimal) : Option Decimal := do
  if entry = 0 then some 0
  else if isInverse then
    let atEntry ← div? 1 entry
    let atExit ← div? 1 exit
    some (mult * (atEntry - atExit))
  else some (mult * (exit - entry))

def newAvg? (pos : Position) (f : Fill) : Option Decimal :=
  let fillPx := f.lastPx.asDecimal
  let fillQty := f.lastQty.asDecimal
  let avgOpen := pos.avgPxOpen.asDecimal
  match pos.meeting f with
  | .opens => some fillPx
  | .adds =>
    let curAbs := |pos.signed|
    let denom := curAbs + fillQty
    if denom = 0 then some fillPx else div? (avgOpen * curAbs + fillPx * fillQty) denom
  | .opposes => some (if fillQty > |pos.signed| then fillPx else avgOpen)

def tradePnl? (pos : Position) (f : Fill) (inst : Instrument) : Option Decimal :=
  match pos.meeting f with
  | .opens | .adds => some 0
  | .opposes => do
    let reduce := min |pos.signed| f.lastQty.asDecimal
    let dir : Decimal := if pos.signed > 0 then 1 else -1
    let per ← pnlPerQty? inst.isInverse pos.avgPxOpen.asDecimal f.lastPx.asDecimal
      inst.multiplier.asDecimal
    some (dir * reduce * per)

/-- Folding a fill divides for the average and for the realized profit, before it changes anything.
Past that it is `applyFill`. -/
def applyFill? [DecimalWidth] (f : Fill) (inst : Instrument) (pos : Position) :
    Option (Except ModelError Unit × Position) := do
  let _ ← pos.newAvg? f
  let _ ← pos.tradePnl? f inst
  some ((applyFill f inst).exec pos)

def fundingNotional? (pos : Position) (mark : Price) (inst : Instrument) : Option Decimal :=
  let mult := inst.multiplier.asDecimal
  let markD := mark.asDecimal
  if inst.isInverse then
    if markD = 0 then some 0 else div? (pos.signed * mult) markD
  else some (pos.signed * markD * mult)

/-- A funding charge divides for the notional, unless the position is flat. -/
def applyFunding? [DecimalWidth] (rate : Decimal) (mark : Price) (inst : Instrument)
    (pos : Position) : Option (Except ModelError Unit × Position) :=
  if pos.side = .flat then some ((applyFunding rate mark inst).exec pos)
  else do
    let _ ← pos.fundingNotional? mark inst
    some ((applyFunding rate mark inst).exec pos)

def unrealizedPnl? [DecimalWidth] (pos : Position) (mark : Price) (inst : Instrument) :
    Option Money :=
  let settle := inst.settlementCurrency
  if pos.side = .flat then some (Money.zero settle)
  else do
    let dir : Decimal := if pos.side = .long then 1 else -1
    let per ← pnlPerQty? inst.isInverse pos.avgPxOpen.asDecimal mark.asDecimal
      inst.multiplier.asDecimal
    some <| match Money.fromDecimal (dir * pos.quantity.asDecimal * per) settle with
      | .ok m => m
      | .error _ => Money.zero settle

def notional? [DecimalWidth] (pos : Position) (mark : Price) (inst : Instrument) :
    Option Money :=
  let settle := inst.settlementCurrency
  let mult := inst.multiplier.asDecimal
  let qty := pos.quantity.asDecimal
  let value? :=
    if inst.isInverse then
      if mark.asDecimal = 0 then some 0 else div? (qty * mult) mark.asDecimal
    else some (qty * mark.asDecimal * mult)
  value?.map fun value ↦
    match Money.fromDecimal value settle with
    | .ok m => m
    | .error _ => Money.zero settle

end Position

def DefaultBrokerageModel.fee? [DecimalWidth] (_order : Order) (fillPx : Price)
    (fillQty : Quantity) (liquidity : LiquiditySide) (inst : Instrument) : Option Money :=
  let rate := match liquidity with
    | .maker => inst.makerFee
    | .taker => inst.takerFee
  let px := fillPx.asDecimal
  let mult := inst.multiplier.asDecimal
  let qty := fillQty.asDecimal
  let notional? :=
    if inst.isInverse then (if px = 0 then some 0 else div? (qty * mult) px)
    else some (px * qty * mult)
  notional?.map fun notional ↦
    match Money.fromDecimal (notional * rate) inst.settlementCurrency with
    | .ok money => money
    | .error _ => Money.zero inst.settlementCurrency

namespace PortfolioState

variable [DecimalWidth] (c : Cache) (settle : Currency)

def exposureOf? (pos : Position) : Option Decimal :=
  match c.instrument pos.instrumentId, c.mark pos.instrumentId with
  | some inst, some mark => do
    let notional ← pos.notional? mark inst
    some ((convertToSettle notional inst mark settle).getD 0)
  | _, _ => some 0

def grossExposure? : Option Money := do
  let exposures ← (positions c).mapM (exposureOf? c settle)
  some (toMoney settle exposures.sum)

def profitOf? (pos : Position) : Option Decimal :=
  let inst := c.instrument pos.instrumentId
  let mark := c.mark pos.instrumentId
  let realized :=
    if pos.realizedPnl.currency = settle then pos.realizedPnl.amount
    else match inst, mark with
      | some inst, some mark => (convertToSettle pos.realizedPnl inst mark settle).getD 0
      | _, _ => 0
  let unrealized? := match inst, mark with
    | some inst, some mark => do
      let unreal ← pos.unrealizedPnl? mark inst
      some ((convertToSettle unreal inst mark settle).getD 0)
    | _, _ => some 0
  unrealized?.map fun unrealized ↦ realized + unrealized

def equity? : Option Money := do
  let balance := match c.account with
    | some balances => ((balances.lookup settle).getD (Money.zero settle)).amount
    | none => 0
  let profits ← (positions c).mapM (profitOf? c settle)
  some (toMoney settle (balance + profits.sum))

end PortfolioState

/-! ## Which calls complete -/

@[simp] theorem div?_zero (x : Decimal) : div? x 0 = none := if_pos rfl

theorem div?_of_ne {x y : Decimal} (h : y ≠ 0) : div? x y = some (x / y) := if_neg h

theorem guarded_div? (x y d : Decimal) :
    (if y = 0 then some d else div? x y) = some (if y = 0 then d else x / y) := by
  split_ifs with h
  · rfl
  · exact div?_of_ne h

namespace Position

variable {pos : Position} {f : Fill} {inst : Instrument} {mark : Price}

/-- An inverse position with a price behind it meets a zero price. -/
def ZeroExit (inst : Instrument) (pos : Position) (exit : Price) : Prop :=
  inst.isInverse = true ∧ pos.avgPxOpen.asDecimal ≠ 0 ∧ exit.asDecimal = 0

instance (inst : Instrument) (pos : Position) (exit : Price) : Decidable (ZeroExit inst pos exit) :=
  inferInstanceAs (Decidable (_ ∧ _))

theorem pnlPerQty?_eq (inst : Instrument) (pos : Position) (exit : Price) (mult : Decimal) :
    pnlPerQty? inst.isInverse pos.avgPxOpen.asDecimal exit.asDecimal mult =
      if ZeroExit inst pos exit then none
      else some (pnlPerQty inst.isInverse pos.avgPxOpen.asDecimal exit.asDecimal mult) := by
  unfold pnlPerQty? pnlPerQty ZeroExit
  by_cases hentry : pos.avgPxOpen.asDecimal = 0
  · simp [hentry]
  · by_cases hinv : inst.isInverse = true
    · by_cases hexit : exit.asDecimal = 0
      · simp [hinv, hentry, hexit, div?_of_ne]
      · simp [hinv, hentry, hexit, div?_of_ne]
    · simp [hinv, hentry]

theorem newAvg?_eq (pos : Position) (f : Fill) : pos.newAvg? f = some (pos.newAvg f) := by
  unfold newAvg? newAvg
  cases pos.meeting f with
  | opens => rfl
  | adds => exact guarded_div? _ _ _
  | opposes => rfl

theorem tradePnl?_eq (pos : Position) (f : Fill) (inst : Instrument) :
    pos.tradePnl? f inst =
      if pos.meeting f = .opposes ∧ ZeroExit inst pos f.lastPx then none
      else some (pos.tradePnl f inst) := by
  unfold tradePnl? tradePnl
  cases pos.meeting f with
  | opens => rfl
  | adds => rfl
  | opposes =>
    simp only [true_and, pnlPerQty?_eq]
    by_cases hz : ZeroExit inst pos f.lastPx
    · rw [if_pos hz, if_pos hz]
      rfl
    · rw [if_neg hz, if_neg hz]
      rfl

theorem fundingNotional?_eq (pos : Position) (mark : Price) (inst : Instrument) :
    pos.fundingNotional? mark inst = some (pos.fundingNotional mark inst) := by
  unfold fundingNotional? fundingNotional
  cases inst.isInverse with
  | false => rfl
  | true => exact guarded_div? _ _ _

variable [DecimalWidth]

/-- A fold stops the program exactly when it reduces an inverse position at a zero price. -/
theorem applyFill?_eq (pos : Position) (f : Fill) (inst : Instrument) :
    applyFill? f inst pos =
      if pos.meeting f = .opposes ∧ ZeroExit inst pos f.lastPx then none
      else some ((applyFill f inst).exec pos) := by
  rw [applyFill?, newAvg?_eq, tradePnl?_eq]
  split_ifs <;> rfl

theorem applyFunding?_eq (pos : Position) (rate : Decimal) (mark : Price) (inst : Instrument) :
    applyFunding? rate mark inst pos = some ((applyFunding rate mark inst).exec pos) := by
  rw [applyFunding?, fundingNotional?_eq]
  split_ifs <;> rfl

/-- The unrealized profit stops the program exactly when an open inverse position is marked at
zero. -/
theorem unrealizedPnl?_eq (pos : Position) (mark : Price) (inst : Instrument) :
    pos.unrealizedPnl? mark inst =
      if pos.side ≠ .flat ∧ ZeroExit inst pos mark then none
      else some (pos.unrealizedPnl mark inst) := by
  unfold unrealizedPnl? unrealizedPnl
  by_cases hside : pos.side = .flat
  · simp [hside]
  · simp only [hside, ne_eq, not_false_eq_true, true_and, pnlPerQty?_eq]
    by_cases hz : ZeroExit inst pos mark
    · rw [if_pos hz, if_pos hz]
      rfl
    · rw [if_neg hz, if_neg hz]
      rfl

theorem notional?_eq (pos : Position) (mark : Price) (inst : Instrument) :
    pos.notional? mark inst = some (pos.notional mark inst) := by
  unfold notional? notional
  simp only [guarded_div?]
  cases inst.isInverse with
  | false => rfl
  | true => rfl

end Position

theorem DefaultBrokerageModel.fee?_eq [DecimalWidth] (order : Order) (fillPx : Price)
    (fillQty : Quantity) (liquidity : LiquiditySide) (inst : Instrument) :
    fee? order fillPx fillQty liquidity inst = some (fee order fillPx fillQty liquidity inst) := by
  unfold fee? fee
  simp only [guarded_div?]
  cases inst.isInverse with
  | false => rfl
  | true => rfl

theorem mapM_eq_ite {α β : Type} {f : α → Option β} {g : α → β} {stops : α → Prop}
    [DecidablePred stops] (h : ∀ x, f x = if stops x then none else some (g x)) (l : List α) :
    l.mapM f = if ∃ x ∈ l, stops x then none else some (l.map g) := by
  induction l with
  | nil => simp
  | cons x l ih =>
    rw [List.mapM_cons, h x, ih]
    by_cases hx : stops x
    · simp [hx]
    · by_cases hl : ∃ y ∈ l, stops y
      · simp [hx, hl]
      · simp [hx, hl]

namespace PortfolioState

variable [DecimalWidth] (c : Cache) (settle : Currency)

/-- The portfolio marks the position at zero behind a price that is not. -/
def MarkedAtZero (pos : Position) : Prop :=
  pos.side ≠ .flat ∧ ∃ inst ∈ c.instrument pos.instrumentId, ∃ mark ∈ c.mark pos.instrumentId,
    Position.ZeroExit inst pos mark

instance (pos : Position) : Decidable (MarkedAtZero c pos) :=
  inferInstanceAs (Decidable (_ ∧ _))

theorem exposureOf?_eq (pos : Position) :
    exposureOf? c settle pos = some (exposureOf c settle pos) := by
  unfold exposureOf? exposureOf
  cases c.instrument pos.instrumentId with
  | none => rfl
  | some inst =>
    cases c.mark pos.instrumentId with
    | none => rfl
    | some mark =>
      simp only [Position.notional?_eq]
      rfl

theorem grossExposure?_eq : grossExposure? c settle = some (grossExposure c settle) := by
  have hnever : ∀ pos, exposureOf? c settle pos =
      if False then none else some (exposureOf c settle pos) := fun pos ↦ by
    rw [exposureOf?_eq, if_neg not_false]
  rw [grossExposure?, mapM_eq_ite hnever, if_neg (by simp)]
  rfl

theorem profitOf?_eq (pos : Position) :
    profitOf? c settle pos =
      if MarkedAtZero c pos then none else some (profitOf c settle pos) := by
  by_cases hz : MarkedAtZero c pos
  · rw [if_pos hz]
    obtain ⟨hside, inst, hinst, mark, hmark, hexit⟩ := hz
    rw [Option.mem_def] at hinst hmark
    simp only [profitOf?, hinst, hmark, Position.unrealizedPnl?_eq, if_pos (And.intro hside hexit)]
    rfl
  · rw [if_neg hz]
    unfold profitOf? profitOf
    cases hinst : c.instrument pos.instrumentId with
    | none => rfl
    | some inst =>
      cases hmark : c.mark pos.instrumentId with
      | none => rfl
      | some mark =>
        have hgood : ¬(pos.side ≠ .flat ∧ Position.ZeroExit inst pos mark) :=
          fun h ↦ hz ⟨h.1, inst, hinst, mark, hmark, h.2⟩
        simp only [Position.unrealizedPnl?_eq, if_neg hgood]
        rfl

/-- **Equity.** It stops the program exactly when some cached position is marked at zero. -/
theorem equity?_eq :
    equity? c settle =
      if ∃ pos ∈ positions c, MarkedAtZero c pos then none else some (equity c settle) := by
  rw [equity?, mapM_eq_ite (profitOf?_eq c settle)]
  split_ifs <;> rfl

end PortfolioState

/-! ## Runs of calls -/

/-- A call on a position, or for the fee of one of its fills. -/
inductive ValuationCall where
  | applyFill (f : Fill) (inst : Instrument)
  | applyFunding (rate : Decimal) (mark : Price) (inst : Instrument)
  | unrealizedPnl (mark : Price) (inst : Instrument)
  | notional (mark : Price) (inst : Instrument)
  | fee (order : Order) (fillPx : Price) (fillQty : Quantity) (liquidity : LiquiditySide)
    (inst : Instrument)

namespace ValuationCall

/-- The price the call is given. -/
def price : ValuationCall → Price
  | applyFill f _ => f.lastPx
  | applyFunding _ mark _ => mark
  | unrealizedPnl mark _ => mark
  | notional mark _ => mark
  | fee _ fillPx _ _ _ => fillPx

/-- The call does not take the profit per unit of an inverse position against a zero price. -/
def Guarded (pos : Position) : ValuationCall → Prop
  | applyFill f inst => ¬(pos.meeting f = .opposes ∧ Position.ZeroExit inst pos f.lastPx)
  | unrealizedPnl mark inst => ¬(pos.side ≠ .flat ∧ Position.ZeroExit inst pos mark)
  | applyFunding _ _ _ => True
  | notional _ _ => True
  | fee _ _ _ _ _ => True

instance (pos : Position) : DecidablePred (Guarded pos)
  | applyFill _ _ => inferInstanceAs (Decidable (¬_))
  | unrealizedPnl _ _ => inferInstanceAs (Decidable (¬_))
  | applyFunding _ _ _ => inferInstanceAs (Decidable True)
  | notional _ _ => inferInstanceAs (Decidable True)
  | fee _ _ _ _ _ => inferInstanceAs (Decidable True)

variable [DecimalWidth]

/-- The position as the call leaves it. -/
def after (pos : Position) : ValuationCall → Position
  | applyFill f inst => pos.applied inst f
  | applyFunding rate mark inst => ((Position.applyFunding rate mark inst).exec pos).2
  | unrealizedPnl _ _ => pos
  | notional _ _ => pos
  | fee _ _ _ _ _ => pos

/-- The same, `none` when the call stops the program. -/
def after? (pos : Position) : ValuationCall → Option Position
  | applyFill f inst => (Position.applyFill? f inst pos).map Prod.snd
  | applyFunding rate mark inst => (Position.applyFunding? rate mark inst pos).map Prod.snd
  | unrealizedPnl mark inst => (pos.unrealizedPnl? mark inst).map fun _ ↦ pos
  | notional mark inst => (pos.notional? mark inst).map fun _ ↦ pos
  | fee order fillPx fillQty liquidity inst =>
    (DefaultBrokerageModel.fee? order fillPx fillQty liquidity inst).map fun _ ↦ pos

theorem after?_eq (pos : Position) (call : ValuationCall) :
    call.after? pos = if call.Guarded pos then some (call.after pos) else none := by
  by_cases hguard : call.Guarded pos
  · rw [if_pos hguard]
    cases call with
    | applyFill f inst =>
      rw [after?, Position.applyFill?_eq, if_neg hguard]
      rfl
    | applyFunding rate mark inst =>
      rw [after?, Position.applyFunding?_eq]
      rfl
    | unrealizedPnl mark inst =>
      rw [after?, Position.unrealizedPnl?_eq, if_neg hguard]
      rfl
    | notional mark inst =>
      rw [after?, Position.notional?_eq]
      rfl
    | fee order fillPx fillQty liquidity inst =>
      rw [after?, DefaultBrokerageModel.fee?_eq]
      rfl
  · rw [if_neg hguard]
    cases call with
    | applyFill f inst =>
      rw [after?, Position.applyFill?_eq, if_pos (not_not.mp hguard)]
      rfl
    | unrealizedPnl mark inst =>
      rw [after?, Position.unrealizedPnl?_eq, if_pos (not_not.mp hguard)]
      rfl
    | applyFunding rate mark inst => exact absurd trivial hguard
    | notional mark inst => exact absurd trivial hguard
    | fee order fillPx fillQty liquidity inst => exact absurd trivial hguard

/-- The position after a sequence of calls, `none` when one of them stops the program. -/
def run? (pos : Position) (calls : List ValuationCall) : Option Position :=
  calls.foldlM after? pos

theorem isSome_run?_iff (pos : Position) (calls : List ValuationCall) :
    (run? pos calls).isSome ↔ Along after Guarded pos calls := by
  induction calls generalizing pos with
  | nil => exact iff_of_true rfl trivial
  | cons call calls ih =>
    rw [run?, List.foldlM_cons, after?_eq, along_cons]
    by_cases hguard : call.Guarded pos
    · rw [if_pos hguard, and_iff_right hguard, ← ih]
      rfl
    · rw [if_neg hguard]
      exact iff_of_false (by simp) fun h ↦ hguard h.1

end ValuationCall

/-- Valuation completes: every call of a run on a position, and the two figures of a portfolio. -/
def ValuationCompletes [DecimalWidth] (start : Position) (calls : List ValuationCall) (c : Cache)
    (settle : Currency) : Prop :=
  (ValuationCall.run? start calls).isSome ∧ (PortfolioState.equity? c settle).isSome ∧
    (PortfolioState.grossExposure? c settle).isSome

/-- **Exactly when valuation completes.** No call of the run takes the profit per unit of an inverse
position against a zero price, and no cached position is marked at one. -/
theorem valuationCompletes_iff [DecimalWidth] (positionId : PositionId)
    (instrumentId : InstrumentId) (pricePrecision sizePrecision : ℕ) (settlement : Currency)
    (calls : List ValuationCall) (c : Cache) (settle : Currency) :
    ValuationCompletes (Position.flat positionId instrumentId pricePrecision sizePrecision
        settlement) calls c settle ↔
      Along ValuationCall.after ValuationCall.Guarded
        (Position.flat positionId instrumentId pricePrecision sizePrecision settlement) calls ∧
      ¬∃ pos ∈ PortfolioState.positions c, PortfolioState.MarkedAtZero c pos := by
  have hgross : (PortfolioState.grossExposure? c settle).isSome := by
    rw [PortfolioState.grossExposure?_eq]
    rfl
  have hequity : (PortfolioState.equity? c settle).isSome ↔
      ¬∃ pos ∈ PortfolioState.positions c, PortfolioState.MarkedAtZero c pos := by
    rw [PortfolioState.equity?_eq]
    split_ifs with h <;> simp [h]
  rw [ValuationCompletes, ValuationCall.isSome_run?_iff, hequity, and_iff_left hgross]

section Instances

open scoped RustDecimal

/-- An inverse position is bought at 100 and sold at zero. -/
def soldAtZero : List ValuationCall :=
  [.applyFill (Position.perpFill true .buy 1000 1 0) (Position.perp true),
    .applyFill (Position.perpFill true .sell 0 1 0) (Position.perp true)]

theorem not_valuationCompletes_soldAtZero :
    ¬∀ (calls : List ValuationCall) (c : Cache) (settle : Currency),
      (∀ call ∈ calls, 0 ≤ call.price.raw) →
      ValuationCompletes (Position.flat ⟨"P"⟩ (Position.perp true).id 1 0
        (Position.perp true).settlementCurrency) calls c settle := by
  intro h
  have hrun := (h soldAtZero Cache.new (Position.perp true).settlementCurrency (by decide)).1
  exact absurd hrun (by decide +kernel)

end Instances

end Coinext
