import Coinext.Engine.Holdings

/-!
# What a failing fold leaves behind

Folding a fill into a position converts three decimals: the realized profit, the size and the
average entry. Each conversion can fail, and what was assigned before it stays: the profit is booked
and the side is set before the size is converted, and the size is set before the average is. A call
that fails leaves the position as it was exactly when the profit is what fails, or nothing that was
assigned is new (`restores_applyFill_iff`). A funding charge is assigned last, and the engine stores
whatever a fold has left.
-/

namespace Coinext

namespace Position

variable [DecimalWidth] {pos : Position} {f : Fill} {inst : Instrument}

/-- What a fold assigns before a failing conversion is what was there: no profit at the precision of
the currency, the same side and, if it can be converted, the same size. -/
structure AssignsNothingNew (inst : Instrument) (pos : Position) (f : Fill) : Prop where
  realized : mantissa (pos.realized f inst) inst.settlementCurrency.precision = 0
  side : sideOf (pos.signed + f.signedQty) = pos.side
  size : ∀ q, Quantity.fromDecimal |pos.signed + f.signedQty| pos.sizePrecision = .ok q →
    q = pos.quantity

/-- If the realized profit can be booked, size and average can be converted, or nothing new has been
assigned. -/
def FailsCleanly (inst : Instrument) (pos : Position) (f : Fill) : Prop :=
  (∃ pnl, bookRealized pos.realizedPnl (pos.realized f inst) inst.settlementCurrency = .ok pnl) →
    (∃ q, Quantity.fromDecimal |pos.signed + f.signedQty| pos.sizePrecision = .ok q) ∧
      (∃ px, quantizeAvg (sideOf (pos.signed + f.signedQty)) (pos.newAvg f) pos.pricePrecision
        = .ok px) ∨
    AssignsNothingNew inst pos f

theorem bookRealized_eq_self_iff {pnl pnl' : Money} {realized : Decimal} {settle : Currency}
    (h : bookRealized pnl realized settle = .ok pnl') :
    pnl' = pnl ↔ mantissa realized settle.precision = 0 := by
  unfold bookRealized at h
  split_ifs at h with h0
  · cases h
    simp [h0]
  · obtain ⟨add, hadd, hsum⟩ := Except.bind_eq_ok_iff.mp h
    obtain ⟨-, rfl⟩ := Money.fromDecimal_eq_ok_iff.mp hadd
    obtain ⟨-, -, -, rfl⟩ := Money.checkedAdd_eq_ok_iff.mp hsum
    obtain ⟨raw, currency⟩ := pnl
    simp

/-- **When a fold is all or nothing.** -/
theorem restores_applyFill_iff : (applyFill f inst).Restores pos ↔ FailsCleanly inst pos f := by
  unfold Mutation.Restores FailsCleanly
  rw [exec_applyFill]
  cases hbook : bookRealized pos.realizedPnl (pos.realized f inst) inst.settlementCurrency with
  | error e => simp
  | ok pnl =>
    have hpnl := bookRealized_eq_self_iff hbook
    cases hqty : Quantity.fromDecimal |pos.signed + f.signedQty| pos.sizePrecision with
    | error e =>
      have hbooked : ({ pos with
          realizedPnl := pnl, side := sideOf (pos.signed + f.signedQty) } : Position) = pos ↔
            AssignsNothingNew inst pos f := by
        constructor
        · intro heq
          exact ⟨hpnl.mp (congrArg realizedPnl heq), congrArg side heq,
            fun q hq ↦ nomatch hqty.symm.trans hq⟩
        · rintro ⟨hrealized, hside, -⟩
          rw [hpnl.mpr hrealized, hside]
      simp [hbooked]
    | ok q =>
      cases havg : quantizeAvg (sideOf (pos.signed + f.signedQty)) (pos.newAvg f)
        pos.pricePrecision with
      | error e =>
        have hsized : ({ pos with
            realizedPnl := pnl, side := sideOf (pos.signed + f.signedQty),
            quantity := q } : Position) = pos ↔ AssignsNothingNew inst pos f := by
          constructor
          · intro heq
            refine ⟨hpnl.mp (congrArg realizedPnl heq), congrArg side heq, fun q' hq' ↦ ?_⟩
            cases hqty.symm.trans hq'
            exact congrArg quantity heq
          · rintro ⟨hrealized, hside, hsize⟩
            rw [hpnl.mpr hrealized, hside, hsize q hqty]
        simp [hsized]
      | ok px => simp

/-- **A funding charge is all or nothing.** -/
theorem restores_applyFunding (pos : Position) (rate : Decimal) (mark : Price)
    (inst : Instrument) : (applyFunding rate mark inst).Restores pos := by
  intro e he
  unfold applyFunding at he ⊢
  simp only [Mutation.exec_bind, Mutation.exec_get] at he ⊢
  split_ifs at he ⊢ with hflat
  · rfl
  · simp only [Mutation.exec_bind, Mutation.exec_liftM, Mutation.exec_modify] at he ⊢
    cases hmoney : Money.fromDecimal (-(pos.fundingNotional mark inst * rate))
      inst.settlementCurrency with
    | error e' => rfl
    | ok m =>
      rw [hmoney] at he
      simp only at he ⊢
      cases hsum : pos.realizedPnl.checkedAdd m with
      | error e' => rfl
      | ok pnl =>
        rw [hsum] at he
        cases he

end Position

namespace ExecutionEngine

variable [DecimalWidth] {s : Oms}

open Position

/-- A report leaves each position as it was, or opens one that it leaves flat, or it is a fill whose
fold succeeds. -/
def StoresWhole (s : Oms) (report : ExecutionReport) (now : UnixNanos) : Prop :=
  ∀ iid pos', (applyReport report now s).2.cache.position iid = some pos' →
    s.cache.position iid = some pos' ∨
      ∃ f inst, report = .fill f ∧ s.cache.instrument f.instrumentId = some inst ∧
        (pos' = s.positionOrFlat f.instrumentId inst ∨
          (applyFill f inst).exec (s.positionOrFlat f.instrumentId inst) = (.ok (), pos'))

/-- If a report is a fill that is folded, its fold fails cleanly. -/
def FoldsCleanly (s : Oms) (report : ExecutionReport) : Prop :=
  ∀ f inst, report = .fill f → f.tradeId ∉ s.ledger.seenTradeIds → s.Takes f →
    s.cache.instrument f.instrumentId = some inst →
    FailsCleanly inst (s.positionOrFlat f.instrumentId inst) f

theorem position_applyToOrder (id : ClientOrderId) (ev : OrderEvent) (s : Oms) :
    (applyToOrder id ev s).2.cache.position = s.cache.position := by
  rcases applyToOrder_cases id ev s with ⟨-, heq⟩ | ⟨o, o', -, -, heq⟩ | ⟨o, -, -, heq⟩ <;>
    rw [heq] <;> rfl

theorem applied_of_failsCleanly {pos : Position} {f : Fill} {inst : Instrument}
    (h : FailsCleanly inst pos f) :
    pos.applied inst f = pos ∨ (applyFill f inst).exec pos = (.ok (), pos.applied inst f) := by
  cases hexec : (applyFill f inst).exec pos with
  | mk result pos' =>
    cases result with
    | error e =>
      left
      exact restores_applyFill_iff.mpr h e (congrArg Prod.fst hexec)
    | ok _ =>
      right
      rw [applied, hexec]

/-- **The engine stores whole positions** exactly when the folds fail cleanly. -/
theorem storesWhole_iff (h : s.Keyed) (report : ExecutionReport) (now : UnixNanos) :
    StoresWhole s report now ↔ FoldsCleanly s report := by
  constructor
  · rintro hstores f inst rfl hunseen ⟨o, ho, htakes⟩ hinst
    obtain ⟨o', -, heq⟩ := applyFillReport_of_unseen ho hunseen htakes
    have hkeyed : ((markSeen f s).setOrder f.clientOrderId o').Keyed := h.congr rfl rfl
    have hstored : (applyReport (.fill f) now s).2.cache.position f.instrumentId
        = some ((s.positionOrFlat f.instrumentId inst).applied inst f) := by
      change (applyFillReport f s).2.cache.position f.instrumentId = _
      rw [heq, folded, position_foldPosition hkeyed hinst, if_pos rfl]
      rfl
    rw [← restores_applyFill_iff]
    intro e he
    rcases hstores _ _ hstored with hsame | ⟨f', inst', hf', hinst', hcases⟩
    · have hpos : s.positionOrFlat f.instrumentId inst
          = (s.positionOrFlat f.instrumentId inst).applied inst f := by
        conv_lhs => rw [Oms.positionOrFlat, hsame]
        rfl
      exact hpos.symm
    · cases hf'
      cases hinst.symm.trans hinst'
      rcases hcases with hsame | hok
      · exact hsame
      · rw [hok] at he
        cases he
  · intro hclean iid pos' hstored
    cases report with
    | fill f =>
      change (applyFillReport f s).2.cache.position iid = some pos' at hstored
      rcases applyFillReport_cases f s with
        ⟨-, heq⟩ | ⟨hunseen, ⟨-, heq⟩ | ⟨o, -, -, heq⟩ | ⟨o, o', ho, hacc, heq⟩⟩
      · rw [heq] at hstored
        exact .inl hstored
      · rw [heq] at hstored
        exact .inl hstored
      · rw [heq] at hstored
        exact .inl hstored
      · rw [heq] at hstored
        have hkeyed : ((markSeen f s).setOrder f.clientOrderId o').Keyed := h.congr rfl rfl
        cases hinst : s.cache.instrument f.instrumentId with
        | none =>
          have hnone : foldPosition f ((markSeen f s).setOrder f.clientOrderId o')
              = (markSeen f s).setOrder f.clientOrderId o' := by
            have hnone' : ((markSeen f s).setOrder f.clientOrderId o').cache.instrument
                f.instrumentId = none := hinst
            simp only [foldPosition, hnone']
          simp only [hnone] at hstored
          exact .inl hstored
        | some inst =>
          have hposition := position_foldPosition hkeyed hinst iid
          simp only [hposition] at hstored
          split_ifs at hstored with hid
          · right
            refine ⟨f, inst, rfl, hinst, ?_⟩
            cases hstored
            exact applied_of_failsCleanly
              (hclean f inst rfl hunseen ⟨o, ho, o', hacc⟩ hinst)
          · exact .inl hstored
    | _ =>
      have hsame := position_applyToOrder (s := s)
      simp only [applyReport, hsame] at hstored
      exact .inl hstored

end ExecutionEngine

/-- **Position updates are all or nothing** exactly when the folds fail cleanly: for one fold, for a
funding charge, and for every report to every engine. -/
theorem allOrNothing_iff [DecimalWidth] {s : Oms} (hfresh : s.Fresh) (model : BrokerageModel)
    (calls : List EngineCall) (report : ExecutionReport) (now : UnixNanos) (pos : Position)
    (f : Fill) (inst : Instrument) (rate : Decimal) (mark : Price) :
    ((Position.applyFill f inst).Restores pos ↔ Position.FailsCleanly inst pos f) ∧
      (Position.applyFunding rate mark inst).Restores pos ∧
      (ExecutionEngine.StoresWhole (calls.foldl (EngineCall.step model) s) report now ↔
        ExecutionEngine.FoldsCleanly (calls.foldl (EngineCall.step model) s) report) :=
  ⟨Position.restores_applyFill_iff, Position.restores_applyFunding pos rate mark inst,
    ExecutionEngine.storesWhole_iff (hfresh.sound_run model calls).keyed report now⟩

/-! ## Instances -/

section Instances

open scoped RustDecimal

/-- The perpetual, traded at eighteen decimal places. -/
def finePerp : Instrument := { Position.perp false with sizePrecision := 18 }

def fineOms : Oms := ⟨Cache.new.addInstrument finePerp, .new, .new⟩

/-- An order for five contracts. -/
def fineSubmit (id : String) : EngineCall :=
  .submit ⟨fun _ _ _ ↦ .approved⟩ ⟨fun _ ↦ none, Money.zero ⟨"USDT", 2, two_le_maxPrecision⟩,
    Money.zero ⟨"USDT", 2, two_le_maxPrecision⟩⟩ 0
    (Order.new ⟨"S"⟩ ⟨id⟩ finePerp.id .buy .limit ⟨5 * 10 ^ 18, 18⟩ (some ⟨100, 1⟩) none .gtc
      {} 0) 0

/-- It fills at ten, for a fee of a cent. -/
def fineFill (id tradeId : String) : Fill :=
  { Position.perpFill false .buy 100 (5 * 10 ^ 18) 1 with
    lastQty := ⟨5 * 10 ^ 18, 18⟩, tradeId := ⟨tradeId⟩, clientOrderId := ⟨id⟩ }

/-- One order has filled, and another one waits. -/
def fineCalls : List EngineCall :=
  [fineSubmit "S-1", .report (.accepted ⟨"S-1"⟩ ⟨"V-1"⟩) 1,
    .report (.fill (fineFill "S-1" "T-1")) 2, fineSubmit "S-2",
    .report (.accepted ⟨"S-2"⟩ ⟨"V-2"⟩) 3]

/-- The fill that opens the position is folded in full. -/
theorem allOrNothing_desk :
    ExecutionEngine.StoresWhole ((deskCalls.take 2).foldl (EngineCall.step deskModel) deskOms)
      (.fill (deskFill "T-1" 1)) 2 := by
  refine (allOrNothing_iff (s := deskOms) ⟨rfl, rfl⟩ deskModel (deskCalls.take 2)
    (.fill (deskFill "T-1" 1)) 2 (Position.flat ⟨"P"⟩ finePerp.id 1 0 finePerp.settlementCurrency)
    (deskFill "T-1" 1) (Position.perp false) 0 ⟨100, 1⟩).2.2.mpr ?_
  rintro f inst hf - - hinst -
  cases hf
  have hperp : ((deskCalls.take 2).foldl (EngineCall.step deskModel) deskOms).cache.instrument
      (deskFill "T-1" 1).instrumentId = some (Position.perp false) := by decide +kernel
  cases hperp.symm.trans hinst
  exact .inl (by decide +kernel)

/-- The position that the second fill leaves: still five contracts, but both fees. -/
def halfFolded : Position where
  positionId := ⟨finePerp.id.display ++ "-POS"⟩
  instrumentId := finePerp.id
  side := .long
  quantity := ⟨5 * 10 ^ 18, 18⟩
  avgPxOpen := ⟨100, 1⟩
  realizedPnl := ⟨-2, finePerp.settlementCurrency⟩
  sizePrecision := 18
  pricePrecision := 1

/-- **A fold that fails is stored by halves**: ten contracts do not fit eighteen decimal places. -/
theorem not_storesWhole_fine : ¬ ∀ (model : BrokerageModel) (s : Oms) (calls : List EngineCall)
    (report : ExecutionReport) (now : UnixNanos), s.Fresh →
      ExecutionEngine.StoresWhole (calls.foldl (EngineCall.step model) s) report now := by
  intro h
  have hstored := h deskModel fineOms fineCalls (.fill (fineFill "S-2" "T-2")) 4 ⟨rfl, rfl⟩
    finePerp.id halfFolded (by decide +kernel)
  rcases hstored with hsame | ⟨f, inst, hf, hinst, hcases⟩
  · exact absurd hsame (by decide +kernel)
  · cases hf
    have hperp : (fineCalls.foldl (EngineCall.step deskModel) fineOms).cache.instrument
        (fineFill "S-2" "T-2").instrumentId = some finePerp := by decide +kernel
    cases hperp.symm.trans hinst
    rcases hcases with hsame | hok
    · exact absurd hsame (by decide +kernel)
    · exact absurd (congrArg (fun out ↦ out.1.isOk) hok) (by decide +kernel)

end Instances

end Coinext
