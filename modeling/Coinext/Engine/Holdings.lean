import Coinext.Engine.Ledger

/-!
# What an engine holds

Whatever calls an engine gets, in whatever order, each of its positions is stored under a known
instrument, has that instrument's precisions, and has a size that is zero or the result of a
conversion. This is `Oms.Sound`, and nothing is assumed of the calls.

In a sound engine the effect of a folded fill on the position can be said exactly: the signed size
moves by the fill's signed quantity if and only if the conversions succeed, and then the realized
profit of the fill is booked at the settlement currency's precision.
-/

namespace Coinext

open ExecutionEngine

namespace Oms

/-- The realized profit booked in an instrument, zero without a position. -/
def realizedPnl (s : Oms) (iid : InstrumentId) : Decimal :=
  match s.cache.position iid with
  | some pos => pos.realizedPnl.amount
  | none => 0

theorem realizedPnl_positionOrFlat (s : Oms) (iid : InstrumentId) (inst : Instrument) :
    (s.positionOrFlat iid inst).realizedPnl.amount = s.realizedPnl iid := by
  unfold positionOrFlat realizedPnl
  cases s.cache.position iid with
  | none => exact Money.amount_zero _
  | some pos => rfl

variable [DecimalWidth]

/-- What holds of the positions of every engine. -/
structure Sound (s : Oms) : Prop where
  keyed : s.Keyed
  made : ∀ iid pos, s.cache.position iid = some pos → pos.quantity.Made

theorem Sound.made_positionOrFlat {s : Oms} (h : s.Sound) (iid : InstrumentId)
    (inst : Instrument) : (s.positionOrFlat iid inst).quantity.Made := by
  unfold positionOrFlat
  cases hpos : s.cache.position iid with
  | none => exact Quantity.made_zero _
  | some pos => exact h.made iid pos hpos

omit [DecimalWidth] in
theorem Keyed.congr {s s' : Oms} (h : s.Keyed) (hinsts : s'.cache.instruments = s.cache.instruments)
    (hpositions : s'.cache.positions = s.cache.positions) : s'.Keyed := by
  intro iid pos hpos
  rw [Cache.position, hpositions] at hpos
  rw [Cache.instrument, hinsts]
  exact h iid pos hpos

theorem Sound.congr {s s' : Oms} (h : s.Sound)
    (hinsts : s'.cache.instruments = s.cache.instruments)
    (hpositions : s'.cache.positions = s.cache.positions) : s'.Sound := by
  refine ⟨h.keyed.congr hinsts hpositions, fun iid pos hpos ↦ ?_⟩
  rw [Cache.position, hpositions] at hpos
  exact h.made iid pos hpos

theorem Fresh.sound {s : Oms} (h : s.Fresh) : s.Sound := by
  refine ⟨h.ledgerInv.keyed, fun iid pos hpos ↦ ?_⟩
  rw [Cache.position, h.2, AList.lookup_empty] at hpos
  cases hpos

end Oms

variable [DecimalWidth] {s : Oms} {f : Fill} {inst : Instrument}

/-! ## Folding a fill into the position -/

/-- The fold writes the position of the fill's instrument, and no other. -/
theorem position_foldPosition (h : s.Keyed)
    (hinst : s.cache.instrument f.instrumentId = some inst) (iid : InstrumentId) :
    (foldPosition f s).cache.position iid =
      if iid = f.instrumentId then some ((s.positionOrFlat f.instrumentId inst).applied inst f)
      else s.cache.position iid := by
  have hid : ((s.positionOrFlat f.instrumentId inst).applied inst f).instrumentId
      = f.instrumentId := by
    rw [Position.instrumentId_applied]
    exact (h.positionOrFlat hinst).1
  rw [foldPosition_of_instrument hinst, Cache.position, Cache.upsertPosition, hid]
  split_ifs with hiid
  · rw [hiid, AList.lookup_insert]
  · rw [AList.lookup_insert_ne hiid]
    rfl

theorem Oms.Sound.foldPosition (h : s.Sound) (f : Fill) : (foldPosition f s).Sound := by
  cases hinst : s.cache.instrument f.instrumentId with
  | none =>
    have hsame : ExecutionEngine.foldPosition f s = s := by
      simp only [ExecutionEngine.foldPosition, hinst]
    rwa [hsame]
  | some inst =>
    obtain ⟨hid, hwf, -⟩ := h.keyed.positionOrFlat hinst
    have hposition := position_foldPosition h.keyed hinst
    refine ⟨fun iid pos hpos ↦ ?_, fun iid pos hpos ↦ ?_⟩
    · have hinsts : (ExecutionEngine.foldPosition f s).cache.instrument iid
          = s.cache.instrument iid := by
        rw [foldPosition_of_instrument hinst]
        rfl
      rw [hposition] at hpos
      rw [hinsts]
      split_ifs at hpos with hiid
      · cases hpos
        exact ⟨by rw [Position.instrumentId_applied, hid, hiid], inst, hiid ▸ hinst, hwf.applied f⟩
      · exact h.keyed iid pos hpos
    · rw [hposition] at hpos
      split_ifs at hpos
      · cases hpos
        exact Position.made_applied (h.made_positionOrFlat _ inst) inst f
      · exact h.made iid pos hpos

/-! ## Every engine is sound -/

theorem Oms.Sound.setOrder (h : s.Sound) (id : ClientOrderId) (o : Order) :
    (s.setOrder id o).Sound := h.congr rfl rfl

theorem Oms.Sound.applyToOrder (h : s.Sound) (id : ClientOrderId) (ev : OrderEvent) :
    (applyToOrder id ev s).2.Sound := by
  rcases applyToOrder_cases id ev s with ⟨-, heq⟩ | ⟨o, o', -, -, heq⟩ | ⟨o, -, -, heq⟩
  · rwa [heq]
  · rw [heq]
    exact h.setOrder id o'
  · rw [heq]
    exact h.setOrder id o

theorem Oms.Sound.applyFillReport (h : s.Sound) (f : Fill) : (applyFillReport f s).2.Sound := by
  have hseen : (markSeen f s).Sound := h.congr rfl rfl
  rcases applyFillReport_cases f s with
    ⟨-, heq⟩ | ⟨-, ⟨-, heq⟩ | ⟨o, -, -, heq⟩ | ⟨o, o', -, -, heq⟩⟩
  · rwa [heq]
  · rwa [heq]
  · rw [heq]
    exact hseen.setOrder _ o
  · rw [heq]
    exact (hseen.setOrder _ o').foldPosition f

theorem Oms.Sound.step (model : BrokerageModel) (call : EngineCall) (h : s.Sound) :
    (call.step model s).Sound := by
  cases call with
  | submit risk portfolio clockNow order now =>
    rw [EngineCall.step]
    rcases submit_cases risk portfolio model clockNow order now s with
      heq | ⟨ev, s', heq, -, -, hcache, -⟩
    · rwa [heq]
    · rw [heq]
      exact h.congr (by rw [hcache]; rfl) (by rw [hcache]; rfl)
  | cancel clockNow id now => exact (h.applyToOrder id (.pendingCancel now)).congr rfl rfl
  | market ev =>
    obtain ⟨hinsts, -, hpositions, -⟩ := s.cache.process_frame ev
    exact h.congr hinsts hpositions
  | report r now =>
    cases r with
    | fill f => exact h.applyFillReport f
    | _ => exact h.applyToOrder _ _

/-- **Every engine is sound**, whatever calls it has had. -/
theorem Oms.Fresh.sound_run (model : BrokerageModel) (calls : List EngineCall) (h : s.Fresh) :
    (calls.foldl (EngineCall.step model) s).Sound :=
  foldl_induction (fun _ call hs ↦ hs.step model call) h.sound calls

end Coinext
