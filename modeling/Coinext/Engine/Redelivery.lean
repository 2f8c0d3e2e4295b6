import Coinext.Engine.Ledger

/-!
# Redelivered fills

Reports arrive at least once. `applyFillReport` marks a trade as seen before it asks the order, so
the first delivery of a trade decides its fate: if the order cannot take the fill yet, because it is
unknown or still unacknowledged, every later delivery is dropped as a repeat. Hence a fill that some
delivery finds its order ready for is folded exactly once if and only if the *first* delivery finds
it ready.
-/

namespace Coinext

open ExecutionEngine

section Redelivery

variable [DecimalWidth] {model : BrokerageModel} {s s₀ : Oms} {f : Fill} {calls : List EngineCall}

/-! ## What is asked of a fill -/

/-- Some delivery of the fill arrives while its order takes it. -/
def TakenSometime (model : BrokerageModel) (s₀ : Oms) (calls : List EngineCall) (f : Fill) : Prop :=
  ∃ pre call post, calls = pre ++ call :: post ∧ call.fill? = some f ∧
    (pre.foldl (EngineCall.step model) s₀).Takes f

/-- The first delivery of the fill arrives while its order takes it. -/
def TakenAtFirst (model : BrokerageModel) (s₀ : Oms) (calls : List EngineCall) (f : Fill) : Prop :=
  ∃ pre call post, calls = pre ++ call :: post ∧ (∀ c ∈ pre, c.fill? ≠ some f) ∧
    call.fill? = some f ∧ (pre.foldl (EngineCall.step model) s₀).Takes f

/-- The fill is in the log of its order. -/
def Logged (s : Oms) (f : Fill) : Prop :=
  ∃ o ∈ s.cache.order f.clientOrderId, o.instrumentId = f.instrumentId ∧ f ∈ o.fills

/-- How often a trade is recorded, over all logs. -/
def Oms.timesRecorded (s : Oms) (id : TradeId) : ℕ := (s.recordedAll.map Fill.tradeId).count id

/-- The fill is in the log of its order, its trade is recorded there and nowhere else, and the
positions are the sums of what is recorded. -/
structure FoldedOnce (s : Oms) (f : Fill) : Prop where
  logged : Logged s f
  once : s.timesRecorded f.tradeId = 1
  positions : ∀ iid, s.signed iid = ((s.recorded iid).map Fill.signedQty).sum

/-! ## One call -/

omit [DecimalWidth] in
theorem LedgerInv.timesRecorded_of_notMem (h : LedgerInv 0 s) {id : TradeId}
    (hid : id ∉ s.ledger.seenTradeIds) : s.timesRecorded id = 0 := by
  refine List.count_eq_zero.mpr fun hmem ↦ ?_
  obtain ⟨g, hg, rfl⟩ := List.mem_map.mp hmem
  exact hid (h.seen g hg)

omit [DecimalWidth] in
theorem Oms.Quiet.timesRecorded {s' : Oms} (h : s.Quiet s') (id : TradeId) :
    s'.timesRecorded id = s.timesRecorded id :=
  (h.recordedAll.map Fill.tradeId).count_eq id

/-- A seen trade is not recorded again. -/
theorem timesRecorded_step_of_mem (model : BrokerageModel) (call : EngineCall)
    (hnew : ∀ o ∈ call.order?, o.fills = []) {id : TradeId}
    (hseen : id ∈ s.ledger.seenTradeIds) :
    (call.step model s).timesRecorded id = s.timesRecorded id := by
  rcases call.step_cases model (s := s) hnew with ⟨hq, -, -⟩ | ⟨g, hg, hunseen, htaken⟩
  · exact hq.timesRecorded id
  · have hne : g.tradeId ≠ id := fun heq ↦ hunseen (heq ▸ hseen)
    rcases htaken with ⟨-, hq, -⟩ | ⟨o, o', ho, hacc, heq⟩
    · exact hq.timesRecorded id
    · rw [heq, Oms.timesRecorded, ((recordedAll_folded ho hacc).map Fill.tradeId).count_eq,
        List.map_append, List.count_append, List.map_singleton, List.count_singleton,
        if_neg (by simpa using hne)]
      rfl

theorem Logged.step (model : BrokerageModel) (call : EngineCall) (hlog : Logged s f) :
    Logged (call.step model s) f := by
  obtain ⟨o, ho, hinst, hmem⟩ := hlog
  obtain ⟨o', ho', hterms, hfills⟩ := call.order_step model ho
  exact ⟨o', ho', hterms.instrumentId.trans hinst, hfills.subset hmem⟩

/-! ## Before, at and after the first delivery -/

/-- Until its first delivery a trade is not seen. -/
theorem unseen_of_not_delivered (model : BrokerageModel)
    (hunseen : f.tradeId ∉ s₀.ledger.seenTradeIds)
    (hsame : ∀ call ∈ calls, ∀ g ∈ call.fill?, g.tradeId = f.tradeId → g = f)
    (hnone : ∀ call ∈ calls, call.fill? ≠ some f) :
    f.tradeId ∉ (calls.foldl (EngineCall.step model) s₀).ledger.seenTradeIds := by
  have hother : ∀ call ∈ calls, ∀ g ∈ call.fill?, g.tradeId ≠ f.tradeId := by
    intro call hcall g hg htrade
    exact hnone call hcall (hsame call hcall g hg htrade ▸ hg)
  have hrun : Along (EngineCall.step model) _ s₀ calls := along_of_forall_mem hother
  refine hrun.induction (I := fun s ↦ f.tradeId ∉ s.ledger.seenTradeIds) ?_ hunseen
  intro s call hs hne
  rw [call.mem_seenTradeIds_step model, not_or]
  exact ⟨hs, fun ⟨g, hg, heq⟩ ↦ hne g hg heq⟩

theorem timesRecorded_foldl_of_mem {id : TradeId} (hseen : id ∈ s₀.ledger.seenTradeIds)
    (hrun : Along (EngineCall.step model) EngineCall.Ok s₀ calls) :
    (calls.foldl (EngineCall.step model) s₀).timesRecorded id = s₀.timesRecorded id := by
  refine (hrun.induction (I := fun s ↦ id ∈ s.ledger.seenTradeIds ∧
    s.timesRecorded id = s₀.timesRecorded id) ?_ ⟨hseen, rfl⟩).2
  rintro s call ⟨hs, hcount⟩ hok
  exact ⟨(call.mem_seenTradeIds_step model).mpr (.inl hs),
    (timesRecorded_step_of_mem model call hok.1 hs).trans hcount⟩

theorem Logged.foldl (model : BrokerageModel) (hlog : Logged s₀ f) (calls : List EngineCall) :
    Logged (calls.foldl (EngineCall.step model) s₀) f :=
  foldl_induction (I := fun s ↦ Logged s f) (fun _ call h ↦ h.step model call) hlog calls

/-- The first delivery of a trade, when the order takes it. -/
theorem folded_of_takes (model : BrokerageModel) (call : EngineCall) (h : LedgerInv 0 s)
    (hok : call.Ok s) (hf : call.fill? = some f) (hunseen : f.tradeId ∉ s.ledger.seenTradeIds)
    (htakes : s.Takes f) :
    f.tradeId ∈ (call.step model s).ledger.seenTradeIds ∧
      (call.step model s).timesRecorded f.tradeId = 1 ∧ Logged (call.step model s) f := by
  rcases call.step_cases model (s := s) hok.1 with ⟨-, -, hold⟩ | ⟨g, hg, -, htaken⟩
  · exact absurd (hold f hf) hunseen
  · obtain rfl : f = g := Option.some.inj (hf.symm.trans hg)
    rcases htaken with ⟨hnot, -, -⟩ | ⟨o, o', ho, hacc, heq⟩
    · exact absurd htakes hnot
    · have hiid : f.instrumentId = o.instrumentId := (hok.2 f hf o ho ⟨o', hacc⟩).1
      rw [heq, seenTradeIds_folded]
      refine ⟨Finset.mem_insert_self _ _, ?_, o', ?_, ?_, ?_⟩
      · rw [Oms.timesRecorded, ((recordedAll_folded ho hacc).map Fill.tradeId).count_eq,
          List.map_append, List.count_append, List.map_singleton, List.count_singleton_self,
          Nat.add_eq_right]
        exact h.timesRecorded_of_notMem hunseen
      · rw [Cache.order, orders_folded]
        exact AList.lookup_insert _
      · exact hacc.sameTerms.instrumentId.trans hiid.symm
      · rw [hacc.fills, fill?_fillEvent]
        simp

/-- The first delivery of a trade, when the order does not take it. -/
theorem unrecorded_of_not_takes (model : BrokerageModel) (call : EngineCall) (h : LedgerInv 0 s)
    (hok : call.Ok s) (hf : call.fill? = some f) (hunseen : f.tradeId ∉ s.ledger.seenTradeIds)
    (htakes : ¬ s.Takes f) :
    f.tradeId ∈ (call.step model s).ledger.seenTradeIds ∧
      (call.step model s).timesRecorded f.tradeId = 0 := by
  rcases call.step_cases model (s := s) hok.1 with ⟨-, -, hold⟩ | ⟨g, hg, -, htaken⟩
  · exact absurd (hold f hf) hunseen
  · obtain rfl : f = g := Option.some.inj (hf.symm.trans hg)
    rcases htaken with ⟨-, hq, heq⟩ | ⟨o, o', ho, hacc, -⟩
    · rw [heq, hq.timesRecorded]
      exact ⟨Finset.mem_insert_self _ _, h.timesRecorded_of_notMem hunseen⟩
    · exact absurd ⟨o, ho, o', hacc⟩ htakes

/-! ## Whole runs -/

/-- **Redelivery.** A fill that some delivery finds its order ready for is folded exactly once if
and only if its first delivery finds the order ready. -/
theorem foldedOnce_iff_takenAtFirst (model : BrokerageModel) (s₀ : Oms) (calls : List EngineCall)
    (f : Fill) (hfresh : s₀.Fresh) (hunseen : f.tradeId ∉ s₀.ledger.seenTradeIds)
    (hrun : Along (EngineCall.step model) EngineCall.Ok s₀ calls)
    (hsame : ∀ call ∈ calls, ∀ g ∈ call.fill?, g.tradeId = f.tradeId → g = f) :
    (TakenSometime model s₀ calls f → FoldedOnce (calls.foldl (EngineCall.step model) s₀) f) ↔
      TakenAtFirst model s₀ calls f ∨ ¬ TakenSometime model s₀ calls f := by
  have hinv₀ := hfresh.ledgerInv
  -- the state at the first delivery, whichever way it goes
  have hfirst {pre post : List EngineCall} {call : EngineCall}
      (hcalls : calls = pre ++ call :: post) (hnone : ∀ c ∈ pre, c.fill? ≠ some f) :
      let s := pre.foldl (EngineCall.step model) s₀
      LedgerInv 0 s ∧ call.Ok s ∧ f.tradeId ∉ s.ledger.seenTradeIds ∧
        Along (EngineCall.step model) EngineCall.Ok (call.step model s) post := by
    subst hcalls
    obtain ⟨hpre, hok, hpost⟩ := along_append.mp hrun
    refine ⟨hpre.induction (fun s c h hok ↦ h.step model c hok) hinv₀, hok, ?_, hpost⟩
    exact unseen_of_not_delivered model hunseen
      (fun c hc ↦ hsame c (List.mem_append_left _ hc)) hnone
  constructor
  · intro h
    by_cases htaken : TakenSometime model s₀ calls f
    · left
      obtain ⟨pre, call, post, hcalls, hnone, hdeliver⟩ : ∃ pre call post,
          calls = pre ++ call :: post ∧ (∀ c ∈ pre, c.fill? ≠ some f) ∧ call.fill? = some f := by
        obtain ⟨pre, call, post, hcalls, hcall, -⟩ := htaken
        obtain ⟨c, hc⟩ : ∃ c, calls.find? (fun c ↦ decide (c.fill? = some f)) = some c := by
          rw [← Option.isSome_iff_exists, List.find?_isSome]
          exact ⟨call, hcalls ▸ List.mem_append_right _ List.mem_cons_self, decide_eq_true hcall⟩
        obtain ⟨hp, as, bs, heq, has⟩ := List.find?_eq_some_iff_append.mp hc
        exact ⟨as, c, bs, heq, fun a ha ↦ by simpa using has a ha, of_decide_eq_true hp⟩
      obtain ⟨hinv, hok, hun, hpost⟩ := hfirst hcalls hnone
      refine ⟨pre, call, post, hcalls, hnone, hdeliver, ?_⟩
      by_contra hnot
      obtain ⟨hseen, hzero⟩ := unrecorded_of_not_takes model call hinv hok hdeliver hun
        hnot
      have hend := timesRecorded_foldl_of_mem hseen hpost
      have honce := (h htaken).once
      rw [hcalls, List.foldl_append, List.foldl_cons, hend, hzero] at honce
      exact absurd honce (by decide)
    · exact .inr htaken
  · rintro (⟨pre, call, post, hcalls, hnone, hdeliver, htakes⟩ | hnever) htaken
    · obtain ⟨hinv, hok, hun, hpost⟩ := hfirst hcalls hnone
      obtain ⟨hseen, hone, hlog⟩ := folded_of_takes model call hinv hok hdeliver hun
        htakes
      have hend := hrun.induction (fun s c h hok ↦ h.step model c hok) hinv₀
      refine ⟨?_, ?_, fun iid ↦ (hend.sum iid).trans (zero_add _)⟩
      · rw [hcalls, List.foldl_append, List.foldl_cons]
        exact hlog.foldl model post
      · rw [hcalls, List.foldl_append, List.foldl_cons,
          timesRecorded_foldl_of_mem hseen hpost, hone]
    · exact absurd htaken hnever

end Redelivery

section Instances

open scoped RustDecimal

/-- A fill that is delivered twice, the first time to an order that takes it. -/
theorem foldedOnce_desk :
    TakenSometime deskModel deskOms deskCalls (deskFill "T-1" 1) ∧
      FoldedOnce (deskCalls.foldl (EngineCall.step deskModel) deskOms) (deskFill "T-1" 1) := by
  have htakes : ((deskCalls.take 2).foldl (EngineCall.step deskModel) deskOms).Takes
      (deskFill "T-1" 1) := by decide +kernel
  have htaken : TakenSometime deskModel deskOms deskCalls (deskFill "T-1" 1) :=
    ⟨deskCalls.take 2, .report (.fill (deskFill "T-1" 1)) 2, deskCalls.drop 3, rfl, rfl, htakes⟩
  refine ⟨htaken, (foldedOnce_iff_takenAtFirst deskModel deskOms deskCalls (deskFill "T-1" 1)
    ⟨rfl, rfl⟩ (by decide) (by decide +kernel) (by decide)).mpr (.inl ?_) htaken⟩
  exact ⟨deskCalls.take 2, .report (.fill (deskFill "T-1" 1)) 2, deskCalls.drop 3, rfl,
    by decide, rfl, htakes⟩

/-- The fill overtakes the acknowledgement of its order, and is delivered again after it. -/
def overtakingCalls : List EngineCall :=
  [deskSubmit, .report (.fill (deskFill "T-1" 1)) 1, .report (.accepted ⟨"S-1"⟩ ⟨"V-1"⟩) 2,
    .report (.fill (deskFill "T-1" 1)) 3]

theorem not_foldedOnce_of_overtaking :
    ¬ ∀ (model : BrokerageModel) (s₀ : Oms) (calls : List EngineCall) (f : Fill), s₀.Fresh →
      f.tradeId ∉ s₀.ledger.seenTradeIds →
      Along (EngineCall.step model) EngineCall.Ok s₀ calls →
      (∀ call ∈ calls, ∀ g ∈ call.fill?, g.tradeId = f.tradeId → g = f) →
      TakenSometime model s₀ calls f →
      FoldedOnce (calls.foldl (EngineCall.step model) s₀) f := by
  intro h
  have hfolded := h deskModel deskOms overtakingCalls (deskFill "T-1" 1) ⟨rfl, rfl⟩ (by decide)
    (by decide +kernel) (by decide)
    ⟨overtakingCalls.take 3, .report (.fill (deskFill "T-1" 1)) 3, [], rfl, rfl, by decide +kernel⟩
  exact absurd hfolded.once (by decide +kernel)

end Instances

end Coinext
