import Coinext.Engine.Ledger
import Coinext.Kernel.Replay
import Coinext.Kernel.Snapshot

/-!
# The portfolio facade

The Python `Portfolio` is built from the rows of a native snapshot. It files its positions under
their symbols alone, and values its net exposure as quantity times mark, where the snapshot has the
notional of the instrument: with its multiplier, and inverted where the instrument is.

So the facade says what the snapshot says exactly when no symbol is held on two venues, no notional
is negative, and the two valuations have the same total (`preserves_iff`). For a linear instrument
whose multiplier is one they are the same (`valuationGap_eq_zero`).
-/

namespace Coinext

/-! ## The facade -/

/-- A flattened position. -/
structure PositionView where
  symbol : String
  venue : String
  netQty : Decimal
  avgPrice : Decimal
  markPrice : Decimal
  realizedPnl : Decimal
  unrealizedPnlOverride : Option Decimal
  notionalOverride : Option Decimal
deriving DecidableEq

namespace PositionView

variable (v : PositionView)

def unrealizedPnl : Decimal :=
  match v.unrealizedPnlOverride with
  | some override => override
  | none => (v.markPrice - v.avgPrice) * v.netQty

def notional : Decimal :=
  match v.notionalOverride with
  | some override => override
  | none => |v.netQty| * v.markPrice

/-- The view of a row of a snapshot. -/
def ofRow (row : PositionSnapshot) : PositionView where
  symbol := row.symbol
  venue := row.venue
  netQty := row.netQty
  avgPrice := row.avgPrice
  markPrice := row.markPrice
  realizedPnl := row.realizedPnl
  unrealizedPnlOverride := some row.unrealizedPnl
  notionalOverride := some row.notional

end PositionView

structure AccountView where
  cashBalance : Decimal
  realizedPnl : Decimal
deriving DecidableEq

/-- The facade. Its positions are filed under their symbols. -/
structure PyPortfolio where
  account : AccountView
  positions : Map String PositionView

namespace PyPortfolio

variable (p : PyPortfolio)

def position (symbol : String) : Option PositionView := p.positions.lookup symbol

/-- The views of all positions. -/
def views : List PositionView := p.positions.entries.map Sigma.snd

def unrealizedPnl : Decimal := (p.views.map PositionView.unrealizedPnl).sum

def totalEquity : Decimal := p.account.cashBalance + p.account.realizedPnl + p.unrealizedPnl

def grossExposure : Decimal := (p.views.map PositionView.notional).sum

/-- The signed exposure of one position. -/
def signedExposure (v : PositionView) : Decimal := v.netQty * v.markPrice

def netExposure : Decimal := (p.views.map signedExposure).sum

/-- The facade of a snapshot. The cash is what makes the equity come out. -/
def fromNative (snapshot : PortfolioSnapshot) : PyPortfolio where
  account := ⟨snapshot.equity - snapshot.realizedPnl - snapshot.unrealizedPnl, snapshot.realizedPnl⟩
  positions := snapshot.positions.foldl (fun m row ↦ m.insert row.symbol (.ofRow row)) ∅

end PyPortfolio

/-! ## What the facade keeps -/

/-- Positions are filed under their own instruments. -/
def Cache.PositionsKeyed (c : Cache) : Prop := ∀ e ∈ c.positions.entries, e.2.instrumentId = e.1

/-- The facade says what the snapshot says. -/
structure PyPortfolio.Preserves (snapshot : PortfolioSnapshot) : Prop where
  equity : (fromNative snapshot).totalEquity = snapshot.equity
  gross : (fromNative snapshot).grossExposure = snapshot.grossExposure
  /-- The exposures of the positions add up to the gross exposure. -/
  net : ((fromNative snapshot).views.map fun v ↦ |signedExposure v|).sum = snapshot.grossExposure
  /-- No position is overwritten. -/
  kept : ∀ row ∈ snapshot.positions,
    (fromNative snapshot).position row.symbol = some (.ofRow row)

section Facade

variable [DecimalWidth] (c : Cache) (settle : Currency)

/-- What quantity times mark says of a position over what its notional says. -/
def valuationGap (pos : Position) : Decimal :=
  |(snapshotPosition c pos).netQty * (snapshotPosition c pos).markPrice|
    - |(snapshotPosition c pos).notional|

/-- What the facade can say. -/
structure Facadable : Prop where
  /-- No symbol is held on two venues. -/
  symbols : ((PortfolioState.positions c).map fun pos ↦ pos.instrumentId.symbol).Nodup
  notionals : ∀ pos ∈ PortfolioState.positions c, 0 ≤ (snapshotPosition c pos).notional
  /-- The two valuations have the same total. -/
  valuations : ((PortfolioState.positions c).map (valuationGap c)).sum = 0

variable {c settle}

theorem positions_snapshotPortfolio : (snapshotPortfolio c settle).positions
    = (PortfolioState.positions c).map (snapshotPosition c) := by
  simp only [snapshotPortfolio, List.map_map]
  rfl

theorem grossExposure_snapshotPortfolio : (snapshotPortfolio c settle).grossExposure
    = ((PortfolioState.positions c).map fun pos ↦ |(snapshotPosition c pos).notional|).sum := by
  simp only [snapshotPortfolio, List.map_map]
  rfl

theorem unrealizedPnl_snapshotPortfolio : (snapshotPortfolio c settle).unrealizedPnl
    = ((PortfolioState.positions c).map fun pos ↦ (snapshotPosition c pos).unrealizedPnl).sum := by
  simp only [snapshotPortfolio, List.map_map]
  rfl

theorem symbol_snapshotPosition (pos : Position) :
    (snapshotPosition c pos).symbol = pos.instrumentId.symbol.text
      ∧ (snapshotPosition c pos).venue = pos.instrumentId.venue.text := ⟨rfl, rfl⟩

theorem nodup_symbol
    (h : ((PortfolioState.positions c).map fun pos ↦ pos.instrumentId.symbol).Nodup) :
    ((snapshotPortfolio c settle).positions.map PositionSnapshot.symbol).Nodup := by
  rw [positions_snapshotPortfolio, List.map_map]
  have htext : (PortfolioState.positions c).map (PositionSnapshot.symbol ∘ snapshotPosition c)
      = ((PortfolioState.positions c).map fun pos ↦ pos.instrumentId.symbol).map Symbol.text := by
    rw [List.map_map]
    exact List.map_congr_left fun pos _ ↦ (symbol_snapshotPosition pos).1
  rw [htext]
  refine h.map fun a b hab ↦ ?_
  cases a
  cases b
  exact congrArg Symbol.mk hab

/-- Without two positions of one symbol, the facade has the view of every position. -/
theorem views_perm
    (h : ((PortfolioState.positions c).map fun pos ↦ pos.instrumentId.symbol).Nodup) :
    (PyPortfolio.fromNative (snapshotPortfolio c settle)).views.Perm
      ((PortfolioState.positions c).map fun pos ↦ .ofRow (snapshotPosition c pos)) := by
  have hrows : ((snapshotPortfolio c settle).positions.map PositionSnapshot.symbol).Nodup :=
    nodup_symbol h
  have hperm := (AList.entries_foldl_insert_perm PositionSnapshot.symbol PositionView.ofRow
    (m := ∅) hrows
    fun row _ ↦ AList.notMem_empty _).map Sigma.snd
  rw [List.map_append, List.map_map, positions_snapshotPortfolio, List.map_map] at hperm
  have hempty : (∅ : Map String PositionView).entries.map Sigma.snd = [] := rfl
  rw [hempty, List.append_nil] at hperm
  rw [PyPortfolio.views, PyPortfolio.fromNative, positions_snapshotPortfolio]
  exact hperm

/-- The total of the views is that of the positions. -/
theorem sum_views (h : ((PortfolioState.positions c).map fun pos ↦ pos.instrumentId.symbol).Nodup)
    (g : PositionView → Decimal) :
    ((PyPortfolio.fromNative (snapshotPortfolio c settle)).views.map g).sum
      = ((PortfolioState.positions c).map fun pos ↦ g (.ofRow (snapshotPosition c pos))).sum := by
  rw [((views_perm h).map g).sum_eq, List.map_map]
  rfl

omit [DecimalWidth] in
theorem nodup_instrumentId (hkeyed : c.PositionsKeyed) :
    ((PortfolioState.positions c).map Position.instrumentId).Nodup := by
  have hkeys : (PortfolioState.positions c).map Position.instrumentId = c.positions.keys := by
    rw [PortfolioState.positions, List.map_map]
    exact List.map_congr_left hkeyed
  rw [hkeys]
  exact c.positions.nodupKeys

omit [DecimalWidth] in
theorem sum_eq_sum_abs_iff {α : Type} (g : α → Decimal) (l : List α) :
    (l.map g).sum = (l.map fun a ↦ |g a|).sum ↔ ∀ a ∈ l, 0 ≤ g a := by
  induction l with
  | nil => simp
  | cons a l ih =>
    have hle : (l.map g).sum ≤ (l.map fun a ↦ |g a|).sum :=
      List.sum_le_sum fun b _ ↦ le_abs_self (g b)
    have hhead := le_abs_self (g a)
    rw [List.forall_mem_cons, ← ih, List.map_cons, List.map_cons, List.sum_cons, List.sum_cons]
    constructor
    · intro h
      exact ⟨abs_eq_self.mp (by linarith), by linarith⟩
    · rintro ⟨ha, hl⟩
      rw [abs_of_nonneg ha, hl]

omit [DecimalWidth] in
theorem sum_sub_eq_zero_iff {α : Type} (f g : α → Decimal) (l : List α) :
    (l.map fun a ↦ f a - g a).sum = 0 ↔ (l.map f).sum = (l.map g).sum := by
  have hsum : (l.map fun a ↦ f a - g a).sum = (l.map f).sum - (l.map g).sum := by
    induction l with
    | nil => simp
    | cons a l ih =>
      rw [List.map_cons, List.map_cons, List.map_cons, List.sum_cons, List.sum_cons,
        List.sum_cons, ih]
      ring
  rw [hsum, sub_eq_zero]

/-- **The facade of a snapshot.** It reports the snapshot's equity and gross exposure, a net
exposure whose parts add up to the latter, and every position, if and only if no symbol is held on
two venues, no notional is negative, and quantity times mark has the same total as the notionals. -/
theorem preserves_iff (hkeyed : c.PositionsKeyed) :
    PyPortfolio.Preserves (snapshotPortfolio c settle) ↔ Facadable c := by
  have hvalued : ((PortfolioState.positions c).map (valuationGap c)).sum = 0
      ↔ ((PortfolioState.positions c).map fun pos ↦
          |(snapshotPosition c pos).netQty * (snapshotPosition c pos).markPrice|).sum
        = (snapshotPortfolio c settle).grossExposure := by
    rw [grossExposure_snapshotPortfolio, ← sum_sub_eq_zero_iff]
    rfl
  have hgross : ((PortfolioState.positions c).map fun pos ↦ (snapshotPosition c pos).notional).sum
        = (snapshotPortfolio c settle).grossExposure
      ↔ ∀ pos ∈ PortfolioState.positions c, 0 ≤ (snapshotPosition c pos).notional := by
    rw [grossExposure_snapshotPortfolio]
    exact sum_eq_sum_abs_iff _ _
  have hrow : ∀ pos ∈ PortfolioState.positions c,
      snapshotPosition c pos ∈ (snapshotPortfolio c settle).positions := by
    intro pos hpos
    rw [positions_snapshotPortfolio]
    exact List.mem_map_of_mem hpos
  constructor
  · intro h
    have hsymbols : ((PortfolioState.positions c).map fun pos ↦ pos.instrumentId.symbol).Nodup := by
      refine (nodup_instrumentId hkeyed).of_map.map_on fun a ha b hb hab ↦ ?_
      -- both positions are found under their symbol
      have hview := (h.kept _ (hrow a ha)).symm.trans
        ((congrArg _ (congrArg Symbol.text hab)).trans (h.kept _ (hrow b hb)))
      have htext : a.instrumentId.venue.text = b.instrumentId.venue.text :=
        congrArg PositionView.venue (Option.some.inj hview)
      have hvenue : a.instrumentId.venue = b.instrumentId.venue := congrArg Venue.mk htext
      exact List.inj_on_of_nodup_map (nodup_instrumentId hkeyed) ha hb
        (congrArg₂ InstrumentId.mk hab hvenue)
    refine ⟨hsymbols, hgross.mp ?_, hvalued.mpr ?_⟩
    · rw [← h.gross]
      exact (sum_views hsymbols PositionView.notional).symm
    · rw [← h.net]
      exact (sum_views hsymbols fun v ↦ |PyPortfolio.signedExposure v|).symm
  · intro h
    refine ⟨?_, ?_, ?_, fun row hrow ↦ ?_⟩
    · have hunrealized : (PyPortfolio.fromNative (snapshotPortfolio c settle)).unrealizedPnl
          = (snapshotPortfolio c settle).unrealizedPnl := by
        rw [unrealizedPnl_snapshotPortfolio]
        exact sum_views h.symbols PositionView.unrealizedPnl
      rw [PyPortfolio.totalEquity, hunrealized]
      change (snapshotPortfolio c settle).equity - (snapshotPortfolio c settle).realizedPnl
        - (snapshotPortfolio c settle).unrealizedPnl + (snapshotPortfolio c settle).realizedPnl
        + (snapshotPortfolio c settle).unrealizedPnl = _
      ring
    · exact (sum_views h.symbols PositionView.notional).trans (hgross.mpr h.notionals)
    · exact (sum_views h.symbols fun v ↦ |PyPortfolio.signedExposure v|).trans
        (hvalued.mp h.valuations)
    · exact AList.lookup_foldl_insert _ _ (nodup_symbol h.symbols) hrow

/-- A linear position with a multiplier of one is valued alike, as long as the settlement currency
can hold its value. -/
theorem valuationGap_eq_zero {pos : Position} {inst : Instrument} {mark : Price}
    (hinst : c.instrument pos.instrumentId = some inst)
    (hmark : c.mark pos.instrumentId = some mark) (hflat : pos.side ≠ .flat)
    (hlinear : inst.isInverse = false) (hmultiplier : inst.multiplier.asDecimal = 1)
    (hgrid : OnGrid (pos.quantity.asDecimal * mark.asDecimal) inst.settlementCurrency.precision)
    (hfits : DecimalWidth.fits (mantissa (pos.quantity.asDecimal * mark.asDecimal)
      inst.settlementCurrency.precision) = true) :
    valuationGap c pos = 0 := by
  have hnotional : (pos.notional mark inst).amount = pos.quantity.asDecimal * mark.asDecimal := by
    have hmoney : Money.fromDecimal (pos.quantity.asDecimal * mark.asDecimal)
        inst.settlementCurrency = .ok ⟨_, inst.settlementCurrency⟩ :=
      Money.fromDecimal_eq_ok_iff.mpr ⟨hfits, rfl⟩
    simp only [Position.notional, hlinear, Bool.false_eq_true, if_false, hmultiplier, mul_one,
      hmoney]
    exact hgrid
  have hsign : |pos.side.sign| = 1 := by
    cases hside : pos.side with
    | long => exact abs_one
    | short => exact (abs_neg 1).trans abs_one
    | flat => exact absurd hside hflat
  simp only [valuationGap, snapshotPosition, hinst, hmark, hnotional]
  rw [mul_assoc, abs_mul, hsign, one_mul, sub_self]

end Facade

/-! ## The caches of a run -/

section Runs

variable [DecimalWidth] {σ : Type} {setup : Setup σ} {events : List MarketEvent}
  {k : BacktestKernel σ}

omit [DecimalWidth] in
theorem Cache.PositionsKeyed.upsertPosition {c : Cache} (h : c.PositionsKeyed) (pos : Position) :
    (c.upsertPosition pos).PositionsKeyed := by
  intro e he
  rw [Cache.upsertPosition, AList.entries_insert, List.mem_cons] at he
  rcases he with rfl | he
  · rfl
  · exact h e ((List.kerase_sublist _ _).subset he)

theorem Core.positionsKeyed_step (model : BrokerageModel) (c : Core) (op : CoreOp)
    (h : c.oms.cache.PositionsKeyed) : (c.step model op).oms.cache.PositionsKeyed := by
  cases op with
  | applyNext =>
    rcases c.applyNext_cases model with ⟨-, heq⟩ | ⟨r, rest, -, heq⟩
    · rw [heq]
      exact h
    · rw [heq]
      refine ExecutionEngine.applyReport_induction (I := fun s ↦ s.cache.PositionsKeyed)
        (fun _ _ _ hs ↦ hs) (fun _ _ hs ↦ hs) (fun s f hs ↦ ?_) h r c.clock.now
      unfold ExecutionEngine.foldPosition
      split
      · exact hs
      · exact hs.upsertPosition _
  | submit risk portfolio order now =>
    change (ExecutionEngine.submit ..).2.cache.PositionsKeyed
    obtain heq | ⟨ev, s', heq, -, -, hcache, -⟩ :=
      ExecutionEngine.submit_cases risk portfolio model c.clock.now order now c.oms
    · rw [heq]
      exact h
    · rw [heq, hcache]
      exact h
  | cancel id now =>
    exact ExecutionEngine.applyToOrder_induction (I := fun s ↦ s.cache.PositionsKeyed)
      (fun _ _ _ hs ↦ hs) h id (.pendingCancel now)
  | process ev =>
    change (c.oms.cache.process ev).PositionsKeyed
    rw [Cache.PositionsKeyed, (c.oms.cache.process_frame ev).2.2.1]
    exact h
  | closeAt iid px now tagSuffix =>
    rcases c.closeAt_cases model iid px now tagSuffix with ⟨-, heq⟩ | ⟨inst, pos, f, -, heq⟩
    · rw [heq]
      exact h
    · rw [heq]
      exact h.upsertPosition _
  | _ => exact h

theorem BacktestKernel.Reached.positionsKeyed (h : Reached setup events k) :
    k.core.oms.cache.PositionsKeyed := by
  rw [h.replays]
  have hfold : ∀ (ops : List CoreOp) (c : Core), c.oms.cache.PositionsKeyed →
      (ops.foldl (Core.step setup.config.brokerage) c).oms.cache.PositionsKeyed := by
    intro ops
    induction ops with
    | nil => exact fun _ hc ↦ hc
    | cons op ops ih => exact fun c hc ↦ ih _ (c.positionsKeyed_step _ op hc)
  refine hfold _ _ ?_
  have hnone : ∀ (instruments : List Instrument) (c : Cache), c.positions = ∅ →
      (instruments.foldl Cache.addInstrument c).positions = ∅ := by
    intro instruments
    induction instruments with
    | nil => exact fun _ hc ↦ hc
    | cons i instruments ih => exact fun c hc ↦ ih _ hc
  intro e he
  have hempty : (initialCore setup.config).oms.cache.positions = ∅ :=
    hnone setup.config.instruments Cache.new rfl
  rw [hempty] at he
  exact absurd he List.not_mem_nil

end Runs

section Instances

open scoped RustDecimal

/-- The linear perpetual at a venue. -/
def perpAt (venue : String) : Instrument :=
  { Position.perp false with id := ⟨(Position.perp false).id.symbol, ⟨venue⟩⟩ }

/-- Two contracts, bought at ten at each of some venues, with a mark of eleven. -/
def longAt (venues : List String) : Cache :=
  venues.foldl (fun c venue ↦
    let inst := perpAt venue
    let pos := (Position.flat ⟨"P"⟩ inst.id 1 0 inst.settlementCurrency).applied inst
      { Position.perpFill false .buy 100 2 0 with instrumentId := inst.id }
    ((c.addInstrument inst).upsertPosition pos).setMark inst.id ⟨110, 1⟩) Cache.new

theorem preserves_longAt :
    (longAt ["SIM"]).PositionsKeyed
      ∧ PyPortfolio.Preserves (snapshotPortfolio (longAt ["SIM"]) ⟨"USDT", 2, by decide⟩) := by
  have hkeyed : (longAt ["SIM"]).PositionsKeyed := by
    unfold Cache.PositionsKeyed
    decide +kernel
  exact ⟨hkeyed, (preserves_iff hkeyed).mpr ⟨by decide, by decide +kernel,
    by decide +kernel⟩⟩

/-- Held on two venues, the symbol is reported for one of them, with half of the exposure. -/
theorem not_preserves_longAt :
    ¬ PyPortfolio.Preserves
        (snapshotPortfolio (longAt ["SIM", "OKX"]) ⟨"USDT", 2, by decide⟩)
      ∧ (snapshotPortfolio (longAt ["SIM", "OKX"]) ⟨"USDT", 2, by decide⟩).grossExposure = 44
      ∧ (PyPortfolio.fromNative (snapshotPortfolio (longAt ["SIM", "OKX"])
        ⟨"USDT", 2, by decide⟩)).grossExposure = 22 := by
  have hgross : (snapshotPortfolio (longAt ["SIM", "OKX"])
        ⟨"USDT", 2, by decide⟩).grossExposure = 44
      ∧ (PyPortfolio.fromNative (snapshotPortfolio (longAt ["SIM", "OKX"])
        ⟨"USDT", 2, by decide⟩)).grossExposure = 22 := by
    decide +kernel
  refine ⟨fun h ↦ ?_, hgross⟩
  have hsame := h.gross
  rw [hgross.1, hgross.2] at hsame
  norm_num at hsame

end Instances

end Coinext
