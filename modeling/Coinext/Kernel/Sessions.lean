import Coinext.Kernel.Logged
import Coinext.Kernel.PyStrategy

/-!
# Ids across sessions

A live kernel is built with a new order factory, whose sequence starts at zero; nothing restores it,
and no cursor is among the things a kernel is built from. So the ids that a session submits are the
first ones of its strategy, however many sessions were there before, and two sessions of one
strategy that both submit an order submit an order under the same id (`Session.ids_nodup_iff`).

`Program.Direct` are the handlers that submit each order they make, once, and leave the sequence
alone. The methods of the context that submit are direct, and so is every Python strategy.
-/

namespace Coinext

namespace Program

variable {α : Type}

/-- Every order that is made is submitted, as it was made, before the next one is; and the sequence
is left alone. `pending` is an order that has been made and not submitted yet. -/
def Direct (pending : Option Order) : Program α → Prop
  | .done _ => pending = none
  | .nowNs k => ∀ ts, (k ts).Direct pending
  | .setTimer _ _ k => ∀ id, (k id).Direct pending
  | .cancelTimer _ next => next.Direct pending
  | .position _ k => ∀ p, (k p).Direct pending
  | .quote _ k => ∀ q, (k q).Direct pending
  | .mark _ k => ∀ m, (k m).Direct pending
  | .orderBook _ k => ∀ b, (k b).Direct pending
  | .instrument _ k => ∀ i, (k i).Direct pending
  | .order _ k => pending = none ∧ ∀ o, (k o).Direct (some o)
  | .seq k => ∀ n, (k n).Direct pending
  | .restoreSeq _ _ => False
  | .emit (.submit o) next => pending = some o ∧ next.Direct none
  | .emit (.cancel _) next => next.Direct pending
  | .emit (.modify ..) next => next.Direct pending

namespace Direct

theorem submitSpec {spec : UnixNanos → OrderSpec} {k : ClientOrderId → Program α}
    (hk : ∀ id, (k id).Direct none) : (Program.submitSpec spec k).Direct none :=
  fun _ ↦ ⟨rfl, fun o ↦ ⟨rfl, hk o.clientOrderId⟩⟩

theorem submitTrailingStop {id : InstrumentId} {side : OrderSide} {qty : Quantity} {offset : Price}
    {k : ClientOrderId → Program α} (hk : ∀ id, (k id).Direct none) :
    (Program.submitTrailingStop id side qty offset k).Direct none :=
  fun _ _ ↦ ⟨rfl, fun o ↦ ⟨rfl, hk o.clientOrderId⟩⟩

end Direct

end Program

namespace PyStrategyAdapter

variable {σ α : Type} [DecimalWidth] {retain : ℚ → Option Decimal} {A : PyStrategyAdapter σ}

theorem direct_replaySubmit {inst : InstrumentMeta} {side : OrderSide} {q : Quantity}
    {limitPx trigger trailOffset : Option F64} {next : Program α} (hnext : next.Direct none) :
    (replaySubmit retain inst side q limitPx trigger trailOffset next).Direct none := by
  unfold replaySubmit
  split
  · split
    · exact .submitTrailingStop fun _ ↦ hnext
    · exact hnext
  · split
    · split
      · exact .submitSpec fun _ ↦ hnext
      · exact hnext
    · split
      · exact .submitSpec fun _ ↦ hnext
      · exact hnext
    · split
      · exact .submitSpec fun _ ↦ hnext
      · exact hnext
    · exact .submitSpec fun _ ↦ hnext

theorem direct_replay (intents : List PyIntent) {next : Program α} (hnext : next.Direct none) :
    (A.replay retain intents next).Direct none := by
  induction intents with
  | nil => exact hnext
  | cons intent intents ih =>
    cases intent with
    | submit side qty limitPx trigger trailOffset symbol =>
      rw [replay]
      split
      · exact ih
      · split
        · exact ih
        · exact direct_replaySubmit ih
    | cancel clientOrderId => exact ih
    | setTimer name at_ => exact fun _ ↦ ih

omit [DecimalWidth] in
theorem direct_snapshot (entries : List (Sigma fun _ : String ↦ InstrumentMeta))
    (positions : List (String × ℚ)) {k : List (String × ℚ) → Program α}
    (hk : ∀ positions, (k positions).Direct none) : (snapshot entries positions k).Direct none := by
  induction entries generalizing positions with
  | nil => exact hk positions
  | cons entry entries ih => exact fun _ ↦ ih _

theorem direct_strategy (s : σ) (cb : Callback) :
    ((A.strategy retain).handle s cb).Direct none :=
  fun _ _ ↦ direct_snapshot _ _ fun _ ↦ direct_replay _ rfl

end PyStrategyAdapter

/-! ## The ids of a session -/

/-- The first ids of a strategy. -/
def firstIds (sid : StrategyId) (n : ℕ) : List ClientOrderId :=
  (List.range n).map fun i ↦ (OrderFactory.mk sid i).nextId

theorem firstIds_succ (sid : StrategyId) (n : ℕ) :
    firstIds sid (n + 1) = firstIds sid n ++ [(OrderFactory.mk sid n).nextId] := by
  rw [firstIds, List.range_succ, List.map_append]
  rfl

theorem nodup_firstIds (sid : StrategyId) (n : ℕ) : (firstIds sid n).Nodup := by
  refine List.nodup_range.map fun i j hij ↦ ?_
  have htext : sid.text ++ "-" ++ pad20 (i + 1) = sid.text ++ "-" ++ pad20 (j + 1) :=
    congrArg ClientOrderId.text hij
  have hlist := congrArg String.toList htext
  simp only [String.toList_append] at hlist
  exact Nat.succ_injective (pad20_injective (String.toList_inj.mp (List.append_cancel_left hlist)))

namespace Program

/-- **Direct programs submit what they mint.** Where the orders submitted before, and the pending
one, are the first ones of the factory, so are those submitted in the end. -/
theorem Direct.submitted {α : Type} {p : Program α} {pending : Option Order} {f f' : OrderFactory}
    {cmds : List StrategyCommand} {a : α} (hdirect : p.Direct pending) (h : p.Runs f cmds a f')
    (earlier : List ClientOrderId)
    (hearlier : earlier ++ pending.toList.map Order.clientOrderId = firstIds f.strategyId f.seq) :
    earlier ++ (submittedOrders cmds).map Order.clientOrderId = firstIds f'.strategyId f'.seq := by
  induction h generalizing pending earlier with
  | done a f =>
    rw [show pending = none from hdirect] at hearlier
    exact hearlier
  | nowNs ts _ ih | setTimer ts _ ih | position ts _ ih | quote ts _ ih | mark ts _ ih
  | orderBook ts _ ih | instrument ts _ ih => exact ih (hdirect ts) earlier hearlier
  | cancelTimer _ ih => exact ih hdirect earlier hearlier
  | seq _ ih => exact ih (hdirect _) earlier hearlier
  | restoreSeq => exact hdirect.elim
  | @order spec k f f' cmds a _ ih =>
    obtain ⟨rfl, hnext⟩ := hdirect
    refine ih (hnext _) earlier ?_
    change earlier ++ [f.nextId] = firstIds f.strategyId (f.seq + 1)
    rw [firstIds_succ, ← hearlier, Option.toList_none, List.map_nil, List.append_nil]
  | @emit cmd next f f' cmds a _ ih =>
    cases cmd with
    | submit o =>
      obtain ⟨rfl, hnext⟩ := hdirect
      have hrest := ih hnext (earlier ++ [o.clientOrderId]) (by
        rw [← hearlier]
        exact List.append_nil _)
      rw [← hrest, List.append_assoc]
      rfl
    | cancel id => exact ih hdirect earlier hearlier
    | modify id quantity price => exact ih hdirect earlier hearlier

end Program

/-- A session of a strategy: a run of a live kernel up to one of its states, the end for example,
with the record of the orders it has submitted. -/
structure Session [DecimalWidth] (strategyId : StrategyId) : Type 1 where
  State : Type
  Client : Type
  setup : LiveSetup State Client
  strategyId_eq : setup.strategyId = strategyId
  /-- The strategy submits each order it makes, once. -/
  direct : ∀ s cb, (setup.strategy.handle s cb).Direct none
  events : List MarketEvent
  last : LiveKernel (State × List Order) Client
  reached : LiveKernel.Reached setup.logged events last

namespace Session

variable [DecimalWidth] {sid : StrategyId}

/-- The orders that the session's strategy has submitted. -/
def submitted (s : Session sid) : List Order := s.last.strategy.2

/-- The ids of a session count up from one, whatever was there before. -/
theorem ids_submitted (s : Session sid) :
    ∃ n, s.submitted.map Order.clientOrderId = firstIds sid n := by
  have hids : s.last.factory.strategyId = sid
      ∧ s.submitted.map Order.clientOrderId = firstIds sid s.last.factory.seq := by
    refine LiveKernel.Reached.handlers
      (I := fun (st : s.State × List Order) (f : OrderFactory) ↦ f.strategyId = sid
        ∧ st.2.map Order.clientOrderId = firstIds sid f.seq)
      ?_ ⟨?_, ?_⟩ s.reached
    · rintro st f cb cmds ⟨s', log'⟩ f' ⟨rfl, hlog⟩ hlogged
      obtain ⟨hruns, rfl⟩ := Program.Runs.of_logged hlogged
      have hsubmitted := (s.direct st.1 cb).submitted hruns (st.2.map Order.clientOrderId)
        ((List.append_nil _).trans hlog)
      rw [hruns.strategyId] at hsubmitted
      exact ⟨hruns.strategyId, List.map_append.trans hsubmitted⟩
    · exact s.strategyId_eq
    · rfl
  exact ⟨_, hids.2⟩

end Session

/-! ## Many sessions -/

/-- Lists that share an element unless they are empty are disjoint when at most one is not empty. -/
theorem nodup_flatMap_iff_of_common {α β : Type*} {f : α → List β} {l : List α} (x : β)
    (hnodup : ∀ a ∈ l, (f a).Nodup) (hcommon : ∀ a ∈ l, f a ≠ [] → x ∈ f a) :
    (l.flatMap f).Nodup ↔ (l.filter fun a ↦ f a ≠ []).length ≤ 1 := by
  induction l with
  | nil => exact iff_of_true List.nodup_nil (Nat.zero_le 1)
  | cons a l ih =>
    obtain ⟨hnodupA, hnodup⟩ := List.forall_mem_cons.mp hnodup
    obtain ⟨hcommonA, hcommon⟩ := List.forall_mem_cons.mp hcommon
    rw [List.flatMap_cons]
    by_cases ha : f a = []
    · rw [ha, List.nil_append, List.filter_cons_of_neg (by simp [ha])]
      exact ih hnodup hcommon
    rw [List.filter_cons_of_pos (by simp [ha]), List.length_cons, List.nodup_append]
    have hnone : (l.filter fun a ↦ f a ≠ []).length + 1 ≤ 1 ↔ ∀ b ∈ l, f b = [] := by
      rw [Nat.succ_le_succ_iff, Nat.le_zero, List.length_eq_zero_iff, List.filter_eq_nil_iff]
      simp
    rw [hnone]
    constructor
    · rintro ⟨-, -, hdisjoint⟩ b hb
      by_contra hne
      exact hdisjoint x (hcommonA ha) x (List.mem_flatMap.mpr ⟨b, hb, hcommon b hb hne⟩) rfl
    · intro hempty
      rw [List.flatMap_eq_nil_iff.mpr hempty]
      exact ⟨hnodupA, List.nodup_nil, fun _ _ _ h ↦ absurd h List.not_mem_nil⟩

/-- **Ids across sessions.** The sessions of a strategy submit orders under pairwise different ids
if and only if at most one of them submits any. -/
theorem Session.ids_nodup_iff [DecimalWidth] {sid : StrategyId} (history : List (Session sid)) :
    (history.flatMap fun s ↦ s.submitted.map Order.clientOrderId).Nodup
      ↔ (history.filter fun s ↦ s.submitted ≠ []).length ≤ 1 := by
  rw [nodup_flatMap_iff_of_common (OrderFactory.new sid).nextId]
  · simp only [ne_eq, List.map_eq_nil_iff]
  · intro s _
    obtain ⟨n, hn⟩ := s.ids_submitted
    rw [hn]
    exact nodup_firstIds sid n
  · intro s _ hne
    obtain ⟨n, hn⟩ := s.ids_submitted
    rw [hn] at hne ⊢
    cases n with
    | zero => exact absurd rfl hne
    | succ n => exact List.mem_map.mpr ⟨0, List.mem_range.mpr n.succ_pos, rfl⟩

section Instances

open scoped RustDecimal

/-- A paper setup whose strategy buys when it is started. -/
def buyOnStart : LiveSetup Bool PaperFillExec :=
  { buyOnce.setup ⟨100000 * 10 ^ 8, paperSettle⟩ ⟨10000, 2⟩ with
    strategy := ⟨fun sent cb ↦ match cb with
      | .start => .submitMarket buyOnce.instrument.id .buy ⟨100, 3⟩ fun _ ↦ .done true
      | _ => .done sent⟩ }

/-- A session that has just been started. -/
def buyOnStartSession : Session buyOnStart.strategyId where
  State := Bool
  Client := PaperFillExec
  setup := buyOnStart
  strategyId_eq := rfl
  direct s cb := by
    cases cb with
    | start => exact Program.Direct.submitSpec (k := fun _ ↦ .done true) fun _ ↦ rfl
    | _ => rfl
  events := []
  last := LiveKernel.start buyOnStart.logged
  reached := .loop .start

/-- Run twice, it submits two orders under one id. -/
theorem not_ids_nodup : ¬ ∀ (sid : StrategyId) (history : List (Session sid)),
    (history.flatMap fun s ↦ s.submitted.map Order.clientOrderId).Nodup := by
  intro h
  have hids : buyOnStartSession.submitted.map Order.clientOrderId
      = [⟨buyOnStart.strategyId.text ++ "-00000000000000000001"⟩] := by
    decide
  have htwice := h buyOnStart.strategyId [buyOnStartSession, buyOnStartSession]
  rw [List.flatMap_cons, List.flatMap_singleton, hids] at htwice
  exact List.not_nodup_pair _ htwice

end Instances

end Coinext
