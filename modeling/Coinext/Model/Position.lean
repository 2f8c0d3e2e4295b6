import Coinext.Model.Types

/-!
# Positions

A position folds fills into a signed size, an average entry price and a realized profit.
`Position.applyFill` is written in the order of the source's assignments: the realized profit is
booked first, then the side, the size and the average are assigned, and a conversion that fails
leaves behind what was assigned before it. In particular a failing average price comes after the
size, so `signed_exec` needs nothing of it.

Division by a zero price, which stops the program, gives zero here; the results about inverse
contracts are for positive prices.
-/

namespace Coinext

/-- Net position of one instrument. -/
structure Position where
  positionId : PositionId
  instrumentId : InstrumentId
  side : PositionSide
  /-- Absolute size. -/
  quantity : Quantity
  avgPxOpen : Price
  realizedPnl : Money
  sizePrecision : ℕ
  pricePrecision : ℕ
deriving DecidableEq

namespace Position

def flat (positionId : PositionId) (instrumentId : InstrumentId)
    (pricePrecision sizePrecision : ℕ) (settlement : Currency) : Position where
  positionId := positionId
  instrumentId := instrumentId
  side := .flat
  quantity := Quantity.zero sizePrecision
  avgPxOpen := Price.zero pricePrecision
  realizedPnl := Money.zero settlement
  sizePrecision := sizePrecision
  pricePrecision := pricePrecision

/-- Signed size, positive when long. -/
def signed (pos : Position) : Decimal :=
  match pos.side with
  | .long => pos.quantity.asDecimal
  | .short => -pos.quantity.asDecimal
  | .flat => 0

/-- Profit per unit between two prices. -/
def pnlPerQty (isInverse : Bool) (entry exit mult : Decimal) : Decimal :=
  if entry = 0 then 0
  else if isInverse then mult * (1 / entry - 1 / exit)
  else mult * (exit - entry)

/-! ## Folding a fill -/

/-- How a fill meets the position: it opens one, adds to it, or trades against it. -/
inductive Meeting where
  | opens | adds | opposes
deriving DecidableEq

def meeting (pos : Position) (f : Fill) : Meeting :=
  if pos.signed = 0 then .opens
  else if decide (pos.signed > 0) == decide (f.signedQty > 0) then .adds
  else .opposes

/-- The average entry after the fill, before it is quantized. -/
def newAvg (pos : Position) (f : Fill) : Decimal :=
  let fillPx := f.lastPx.asDecimal
  let fillQty := f.lastQty.asDecimal
  let avgOpen := pos.avgPxOpen.asDecimal
  match pos.meeting f with
  | .opens => fillPx
  | .adds =>
    let curAbs := |pos.signed|
    let denom := curAbs + fillQty
    if denom = 0 then fillPx else (avgOpen * curAbs + fillPx * fillQty) / denom
  | .opposes => if fillQty > |pos.signed| then fillPx else avgOpen

/-- The profit the fill realizes, before its fee. -/
def tradePnl (pos : Position) (f : Fill) (inst : Instrument) : Decimal :=
  match pos.meeting f with
  | .opens | .adds => 0
  | .opposes =>
    let reduce := min |pos.signed| f.lastQty.asDecimal
    let dir : Decimal := if pos.signed > 0 then 1 else -1
    dir * reduce * pnlPerQty inst.isInverse pos.avgPxOpen.asDecimal f.lastPx.asDecimal
      inst.multiplier.asDecimal

/-- The realized profit of the fill, its fee deducted when it is in the settlement currency. -/
def realized (pos : Position) (f : Fill) (inst : Instrument) : Decimal :=
  if f.fee.currency = inst.settlementCurrency then pos.tradePnl f inst - f.fee.amount
  else pos.tradePnl f inst

/-- The side of a signed size. -/
def sideOf (signed : Decimal) : PositionSide :=
  if signed = 0 then .flat else if signed > 0 then .long else .short

/-- The realized profit once `realized` has been added to it. -/
def bookRealized [DecimalWidth] (pnl : Money) (realized : Decimal) (settle : Currency) :
    Except ModelError Money := do
  if realized = 0 then .ok pnl
  else
    let add ← Money.fromDecimal realized settle
    pnl.checkedAdd add

/-- The average entry of a position of the given side. -/
def quantizeAvg [DecimalWidth] (side : PositionSide) (newAvg : Decimal) (pricePrecision : ℕ) :
    Except ModelError Price :=
  if side = .flat then .ok (Price.zero pricePrecision)
  else Price.fromDecimal newAvg pricePrecision

/-- Fold a fill into the position, realizing profit on any reduced or closed portion. -/
def applyFill [DecimalWidth] (f : Fill) (inst : Instrument) :
    Mutation ModelError Position Unit := do
  let pos ← get
  let newSigned := pos.signed + f.signedQty
  let realizedPnl ← bookRealized pos.realizedPnl (pos.realized f inst) inst.settlementCurrency
  modify fun p ↦ { p with realizedPnl := realizedPnl }
  modify fun p ↦ { p with side := sideOf newSigned }
  let quantity ← Quantity.fromDecimal |newSigned| pos.sizePrecision
  modify fun p ↦ { p with quantity := quantity }
  let avgPxOpen ← quantizeAvg (sideOf newSigned) (pos.newAvg f) pos.pricePrecision
  modify fun p ↦ { p with avgPxOpen := avgPxOpen }

/-- The notional that funding is charged on, in the settlement currency, negative when short. -/
def fundingNotional (pos : Position) (mark : Price) (inst : Instrument) : Decimal :=
  let mult := inst.multiplier.asDecimal
  let markD := mark.asDecimal
  if inst.isInverse then
    if markD = 0 then 0 else pos.signed * mult / markD
  else pos.signed * markD * mult

/-- Apply a funding charge. A positive `rate` charges longs and credits shorts. -/
def applyFunding [DecimalWidth] (rate : Decimal) (mark : Price) (inst : Instrument) :
    Mutation ModelError Position Unit := do
  let pos ← get
  if pos.side = .flat then pure ()
  else
    let m ← Money.fromDecimal (-(pos.fundingNotional mark inst * rate)) inst.settlementCurrency
    let realizedPnl ← pos.realizedPnl.checkedAdd m
    modify fun p ↦ { p with realizedPnl := realizedPnl }

/-- Unrealized profit at `mark`, in the settlement currency; zero when it cannot be converted. -/
def unrealizedPnl [DecimalWidth] (pos : Position) (mark : Price) (inst : Instrument) : Money :=
  let settle := inst.settlementCurrency
  if pos.side = .flat then Money.zero settle
  else
    let dir : Decimal := if pos.side = .long then 1 else -1
    let per := pnlPerQty inst.isInverse pos.avgPxOpen.asDecimal mark.asDecimal
      inst.multiplier.asDecimal
    match Money.fromDecimal (dir * pos.quantity.asDecimal * per) settle with
    | .ok m => m
    | .error _ => Money.zero settle

/-- Position notional at `mark`, in the settlement currency; zero when it cannot be converted. -/
def notional [DecimalWidth] (pos : Position) (mark : Price) (inst : Instrument) : Money :=
  let settle := inst.settlementCurrency
  let mult := inst.multiplier.asDecimal
  let qty := pos.quantity.asDecimal
  let value :=
    if inst.isInverse then
      if mark.asDecimal = 0 then 0 else qty * mult / mark.asDecimal
    else qty * mark.asDecimal * mult
  match Money.fromDecimal value settle with
  | .ok m => m
  | .error _ => Money.zero settle

/-- The position as a call of `applyFill` leaves it, whether it succeeds or not. -/
def applied [DecimalWidth] (inst : Instrument) (pos : Position) (f : Fill) : Position :=
  ((applyFill f inst).exec pos).2

/-! ## What a call does -/

@[simp] theorem signed_flat (positionId : PositionId) (instrumentId : InstrumentId)
    (pricePrecision sizePrecision : ℕ) (settlement : Currency) :
    (flat positionId instrumentId pricePrecision sizePrecision settlement).signed = 0 := rfl

section Spec

variable [DecimalWidth] {pos pos' : Position} {f : Fill} {inst : Instrument}

/-- The outcome of folding a fill, conversion by conversion. -/
theorem exec_applyFill (pos : Position) (f : Fill) (inst : Instrument) :
    (applyFill f inst).exec pos =
      match bookRealized pos.realizedPnl (pos.realized f inst) inst.settlementCurrency with
      | .error e => (.error e, pos)
      | .ok pnl =>
        let booked := { pos with realizedPnl := pnl, side := sideOf (pos.signed + f.signedQty) }
        match Quantity.fromDecimal |pos.signed + f.signedQty| pos.sizePrecision with
        | .error e => (.error e, booked)
        | .ok q =>
          let sized := { booked with quantity := q }
          match quantizeAvg (sideOf (pos.signed + f.signedQty)) (pos.newAvg f)
            pos.pricePrecision with
          | .error e => (.error e, sized)
          | .ok px => (.ok (), { sized with avgPxOpen := px }) := by
  unfold applyFill
  simp only [Mutation.exec_bind, Mutation.exec_get, Mutation.exec_liftM, Mutation.exec_modify]
  cases bookRealized pos.realizedPnl (pos.realized f inst) inst.settlementCurrency with
  | error e => rfl
  | ok pnl =>
    cases Quantity.fromDecimal |pos.signed + f.signedQty| pos.sizePrecision with
    | error e => rfl
    | ok q =>
      cases quantizeAvg (sideOf (pos.signed + f.signedQty)) (pos.newAvg f) pos.pricePrecision <;>
        rfl

theorem applyFill_eq_ok_iff :
    (applyFill f inst).exec pos = (.ok (), pos') ↔ ∃ pnl q px,
      bookRealized pos.realizedPnl (pos.realized f inst) inst.settlementCurrency = .ok pnl ∧
      Quantity.fromDecimal |pos.signed + f.signedQty| pos.sizePrecision = .ok q ∧
      quantizeAvg (sideOf (pos.signed + f.signedQty)) (pos.newAvg f) pos.pricePrecision = .ok px ∧
      pos' = { pos with
        realizedPnl := pnl, side := sideOf (pos.signed + f.signedQty), quantity := q,
        avgPxOpen := px } := by
  rw [exec_applyFill]
  cases bookRealized pos.realizedPnl (pos.realized f inst) inst.settlementCurrency with
  | error e => simp
  | ok pnl =>
    cases Quantity.fromDecimal |pos.signed + f.signedQty| pos.sizePrecision with
    | error e => simp
    | ok q =>
      cases quantizeAvg (sideOf (pos.signed + f.signedQty)) (pos.newAvg f) pos.pricePrecision with
      | error e => simp
      | ok px => simp [eq_comm]

end Spec

theorem signed_of_sideOf {pos : Position} {s : Decimal} (hside : pos.side = sideOf s)
    (hqty : pos.quantity.asDecimal = |s|) : pos.signed = s := by
  rw [signed, hside, hqty, sideOf]
  split_ifs with h0 hpos
  · exact h0.symm
  · exact abs_of_pos hpos
  · rw [abs_of_nonpos (not_lt.mp hpos), neg_neg]

/-- What the code relies on in a position of `inst`. -/
structure WellFormed (inst : Instrument) (pos : Position) : Prop where
  sizePrecision : pos.sizePrecision = inst.sizePrecision
  pricePrecision : pos.pricePrecision = inst.pricePrecision
  quantity : pos.quantity.precision = inst.sizePrecision
  avgPxOpen : pos.avgPxOpen.precision = inst.pricePrecision
  settlement : pos.realizedPnl.currency = inst.settlementCurrency

theorem wellFormed_flat (positionId : PositionId) (instrumentId : InstrumentId)
    (inst : Instrument) : WellFormed inst (flat positionId instrumentId inst.pricePrecision
      inst.sizePrecision inst.settlementCurrency) := ⟨rfl, rfl, rfl, rfl, rfl⟩

theorem onGrid_signed (pos : Position) : OnGrid pos.signed pos.quantity.precision := by
  unfold signed
  split
  · exact pos.quantity.onGrid_asDecimal
  · exact pos.quantity.onGrid_asDecimal.neg
  · exact OnGrid.zero _

theorem WellFormed.onGrid_signed {inst : Instrument} {pos : Position} (h : WellFormed inst pos) :
    OnGrid pos.signed inst.sizePrecision :=
  h.quantity ▸ pos.onGrid_signed

section Fold

variable [DecimalWidth] {pos pos' : Position} {f : Fill} {inst : Instrument}

theorem bookRealized_spec {pnl pnl' : Money} {realized : Decimal} {settle : Currency}
    (h : bookRealized pnl realized settle = .ok pnl') (hcur : pnl.currency = settle) :
    pnl'.currency = settle ∧ pnl'.amount = pnl.amount + mantissa realized settle.precision *
      ulp settle.precision := by
  unfold bookRealized at h
  split_ifs at h with h0
  · cases h
    simp [hcur, h0]
  · obtain ⟨add, hadd, hsum⟩ := Except.bind_eq_ok_iff.mp h
    obtain ⟨-, rfl⟩ := Money.fromDecimal_eq_ok_iff.mp hadd
    obtain ⟨-, -, -, rfl⟩ := Money.checkedAdd_eq_ok_iff.mp hsum
    refine ⟨hcur, ?_⟩
    simp only [Money.amount, hcur]
    push_cast
    ring

theorem precision_of_quantizeAvg {side : PositionSide} {avg : Decimal} {precision : ℕ} {px : Price}
    (h : quantizeAvg side avg precision = .ok px) : px.precision = precision := by
  unfold quantizeAvg at h
  split_ifs at h
  · cases h
    rfl
  · obtain ⟨-, -, -, -, rfl⟩ := Price.fromDecimal_eq_ok_iff.mp h
    rfl

theorem WellFormed.applied (h : WellFormed inst pos) (f : Fill) :
    WellFormed inst (pos.applied inst f) := by
  rw [Position.applied, exec_applyFill]
  cases hbook : bookRealized pos.realizedPnl (pos.realized f inst) inst.settlementCurrency with
  | error e => exact h
  | ok pnl =>
    have hcur := (bookRealized_spec hbook h.settlement).1
    cases hqty : Quantity.fromDecimal |pos.signed + f.signedQty| pos.sizePrecision with
    | error e => exact ⟨h.sizePrecision, h.pricePrecision, h.quantity, h.avgPxOpen, hcur⟩
    | ok q =>
      have hq : q.precision = inst.sizePrecision := by
        obtain ⟨-, -, -, -, rfl⟩ := Quantity.fromDecimal_eq_ok_iff.mp hqty
        exact h.sizePrecision
      cases havg : quantizeAvg (sideOf (pos.signed + f.signedQty)) (pos.newAvg f)
        pos.pricePrecision with
      | error e => exact ⟨h.sizePrecision, h.pricePrecision, hq, h.avgPxOpen, hcur⟩
      | ok px =>
        exact ⟨h.sizePrecision, h.pricePrecision, hq,
          (precision_of_quantizeAvg havg).trans h.pricePrecision, hcur⟩

@[simp] theorem instrumentId_applied (inst : Instrument) (pos : Position) (f : Fill) :
    (pos.applied inst f).instrumentId = pos.instrumentId := by
  rw [Position.applied, exec_applyFill]
  cases bookRealized pos.realizedPnl (pos.realized f inst) inst.settlementCurrency with
  | error e => rfl
  | ok pnl =>
    cases Quantity.fromDecimal |pos.signed + f.signedQty| pos.sizePrecision with
    | error e => rfl
    | ok q =>
      cases quantizeAvg (sideOf (pos.signed + f.signedQty)) (pos.newAvg f) pos.pricePrecision <;>
        rfl

/-- The two conversions the signed size depends on succeed: booking the realized profit, and the
new size. -/
def Books (inst : Instrument) (pos : Position) (f : Fill) : Prop :=
  (∃ pnl, bookRealized pos.realizedPnl (pos.realized f inst) inst.settlementCurrency = .ok pnl) ∧
    ∃ q, Quantity.fromDecimal |pos.signed + f.signedQty| pos.sizePrecision = .ok q

instance (inst : Instrument) (pos : Position) (f : Fill) : Decidable (Books inst pos f) :=
  inferInstanceAs (Decidable (_ ∧ _))

/-- **The signed size adds up.** A fill of the instrument's precision moves the signed size by its
signed quantity, even when the average entry cannot be represented afterwards. -/
theorem WellFormed.signed_applied (h : WellFormed inst pos) (hbooks : Books inst pos f)
    (hgrid : OnGrid f.signedQty inst.sizePrecision) :
    (pos.applied inst f).signed = pos.signed + f.signedQty := by
  obtain ⟨⟨pnl, hbook⟩, q, hqty⟩ := hbooks
  have hmagnitude : q.asDecimal = |pos.signed + f.signedQty| := by
    refine Quantity.asDecimal_fromDecimal hqty ?_
    rw [h.sizePrecision]
    exact (h.onGrid_signed.add hgrid).abs
  have hside : (pos.applied inst f).side = sideOf (pos.signed + f.signedQty) := by
    rw [Position.applied, exec_applyFill, hbook, hqty]
    cases quantizeAvg (sideOf (pos.signed + f.signedQty)) (pos.newAvg f) pos.pricePrecision <;> rfl
  have hquantity : (pos.applied inst f).quantity = q := by
    rw [Position.applied, exec_applyFill, hbook, hqty]
    cases quantizeAvg (sideOf (pos.signed + f.signedQty)) (pos.newAvg f) pos.pricePrecision <;> rfl
  exact signed_of_sideOf hside (by rw [hquantity, hmagnitude])

theorem made_applied (h : pos.quantity.Made) (inst : Instrument) (f : Fill) :
    (pos.applied inst f).quantity.Made := by
  rw [Position.applied, exec_applyFill]
  cases bookRealized pos.realizedPnl (pos.realized f inst) inst.settlementCurrency with
  | error e => exact h
  | ok pnl =>
    cases hqty : Quantity.fromDecimal |pos.signed + f.signedQty| pos.sizePrecision with
    | error e => exact h
    | ok q =>
      cases quantizeAvg (sideOf (pos.signed + f.signedQty)) (pos.newAvg f) pos.pricePrecision <;>
        exact Quantity.made_of_fromDecimal hqty

/-- **Exactly when the signed size adds up.** A fill that trades something moves the signed size by
its signed quantity only if the two conversions succeed. -/
theorem WellFormed.signed_applied_iff (h : WellFormed inst pos) (hmade : pos.quantity.Made)
    (hgrid : OnGrid f.signedQty inst.sizePrecision) (hne : f.signedQty ≠ 0)
    (hp : inst.sizePrecision ≤ maxPrecision) {m : ℤ} (hm : DecimalWidth.fits m = true) :
    (pos.applied inst f).signed = pos.signed + f.signedQty ↔ Books inst pos f := by
  refine ⟨fun hsigned ↦ ?_, fun hbooks ↦ h.signed_applied hbooks hgrid⟩
  rw [Position.applied, exec_applyFill] at hsigned
  cases hbook : bookRealized pos.realizedPnl (pos.realized f inst) inst.settlementCurrency with
  | error e =>
    rw [hbook] at hsigned
    exact absurd (left_eq_add.mp hsigned) hne
  | ok pnl =>
    refine ⟨⟨pnl, hbook⟩, ?_⟩
    rw [hbook] at hsigned
    cases hqty : Quantity.fromDecimal |pos.signed + f.signedQty| pos.sizePrecision with
    | ok q => exact ⟨q, rfl⟩
    | error e =>
      -- the side is the new one and the size the old one: then the size has not changed
      rw [hqty] at hsigned
      have hsize : |pos.signed + f.signedQty| = pos.quantity.asDecimal ∨
          |pos.signed + f.signedQty| = (Quantity.zero inst.sizePrecision).asDecimal := by
        rw [← hsigned, signed, sideOf]
        split_ifs
        · exact .inr (by simp)
        · exact .inl (abs_of_nonneg pos.quantity.asDecimal_nonneg)
        · exact .inl ((abs_neg _).trans (abs_of_nonneg pos.quantity.asDecimal_nonneg))
      rw [h.sizePrecision] at hqty
      rcases hsize with hsize | hsize
      · rw [hsize, ← h.quantity, hmade.fromDecimal_asDecimal (h.quantity ▸ hp) hm] at hqty
        cases hqty
      · have hzero := (Quantity.made_zero inst.sizePrecision).fromDecimal_asDecimal hp hm
        rw [hsize, show Quantity.fromDecimal _ inst.sizePrecision = _ from hzero] at hqty
        cases hqty

/-- What the fold adds to the realized profit, at the precision of the settlement currency. -/
theorem WellFormed.realizedPnl_applied (h : WellFormed inst pos) (hbooks : Books inst pos f) :
    (pos.applied inst f).realizedPnl.amount = pos.realizedPnl.amount +
      mantissa (pos.realized f inst) inst.settlementCurrency.precision *
        ulp inst.settlementCurrency.precision := by
  obtain ⟨⟨pnl, hbook⟩, q, hqty⟩ := hbooks
  have hpnl : (pos.applied inst f).realizedPnl = pnl := by
    rw [Position.applied, exec_applyFill, hbook, hqty]
    cases quantizeAvg (sideOf (pos.signed + f.signedQty)) (pos.newAvg f) pos.pricePrecision <;> rfl
  rw [hpnl]
  exact (bookRealized_spec hbook h.settlement).2

end Fold

end Position

end Coinext
