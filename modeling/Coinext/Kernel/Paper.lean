import Mathlib.Data.List.Forall2
import Coinext.Kernel.Live

/-!
# Paper trading

`buildPaperKernel` sets up a live kernel over a list of bars: the data client replays the bars, and
`PaperFillExec` acknowledges and fills every order at once, a market order at a price that is fixed
when the kernel is built. That price is the close of the last bar of the whole list, so an order
that is submitted while an earlier bar is handled is filled at a price from the future.
-/

namespace Coinext

/-! ## The paper execution client -/

/-- Room in the report channel. The loop that takes the reports is also the one that waits for room,
so a send into a full channel never returns. -/
def reportCapacity : ℕ := 1024

structure PaperFillExec where
  defaultPrice : Price
  settle : Currency
  /-- The report channel. -/
  reports : List ExecutionReport
  tradeSeq : ℕ
  /-- Number of submits observed. -/
  submits : ℕ
  /-- Every fill that was sent; nothing reads it. -/
  issued : List Fill

namespace PaperFillExec

def new (defaultPrice : Price) (settle : Currency) : PaperFillExec :=
  ⟨defaultPrice, settle, [], 0, 0, []⟩

/-- Send a report, if there is room. -/
def send (report : ExecutionReport) (s : PaperFillExec) : PortOutcome PaperFillExec :=
  if s.reports.length < reportCapacity then .ok { s with reports := s.reports ++ [report] }
  else .waits

/-- The fill of an order: in full, at its price if it has one. -/
def makeFill (o : Order) (seq : ℕ) (s : PaperFillExec) : Fill where
  tradeId := ⟨"PT-" ++ toString seq⟩
  clientOrderId := o.clientOrderId
  venueOrderId := ⟨"PAPER-" ++ o.clientOrderId.text⟩
  instrumentId := o.instrumentId
  side := o.side
  lastPx := o.price.getD s.defaultPrice
  lastQty := o.quantity
  fee := Money.zero s.settle
  liquidity := .taker
  tsEvent := 0
  tsInit := 0

def submitOrder (o : Order) (s : PaperFillExec) : PortOutcome PaperFillExec :=
  let s := { s with submits := s.submits + 1 }
  match send (.accepted o.clientOrderId ⟨"PAPER-" ++ o.clientOrderId.text⟩) s with
  | .ok s =>
    let fill := makeFill o (s.tradeSeq + 1) s
    match send (.fill fill) { s with tradeSeq := s.tradeSeq + 1 } with
    | .ok s => .ok { s with issued := s.issued ++ [fill] }
    | .failed => .failed
    | .waits => .waits
  | .failed => .failed
  | .waits => .waits

def cancelOrder (id : ClientOrderId) (_instrumentId : InstrumentId) (s : PaperFillExec) :
    PortOutcome PaperFillExec :=
  send (.canceled id) s

/-- The client keeps its end of the channel, so the stream does not close. -/
def recv (s : PaperFillExec) : Received PaperFillExec :=
  match s.reports with
  | [] => .empty
  | r :: rest => .report r { s with reports := rest }

def client : ExecutionClient PaperFillExec where
  submitOrder := submitOrder
  cancelOrder := cancelOrder
  reconcile s := .ok ([], s)
  recv := recv

/-! ## What has been filled -/

theorem send_eq_ok {report : ExecutionReport} {s s' : PaperFillExec} (h : send report s = .ok s') :
    s' = { s with reports := s.reports ++ [report] } := by
  unfold send at h
  split_ifs at h
  cases h
  rfl

/-- A submit that returns has filled the order, and has reported that. -/
theorem submitOrder_eq_ok {o : Order} {s s' : PaperFillExec} (h : submitOrder o s = .ok s') :
    s'.defaultPrice = s.defaultPrice ∧ ∃ seq, s'.issued = s.issued ++ [makeFill o seq s]
      ∧ s'.reports = s.reports ++
        [.accepted o.clientOrderId ⟨"PAPER-" ++ o.clientOrderId.text⟩,
          .fill (makeFill o seq s)] := by
  unfold submitOrder at h
  simp only at h
  split at h
  · rename_i s₁ hack
    obtain rfl := send_eq_ok hack
    simp only at h
    split at h
    · rename_i s₂ hfill
      obtain rfl := send_eq_ok hfill
      cases h
      exact ⟨rfl, _, rfl, List.append_assoc ..⟩
    · cases h
    · cases h
  · cases h
  · cases h

/-- Every order that was taken has been filled, at its price if it has one and else at one and the
same price. -/
structure Filled (px : Price) (sent : List (ℕ × Order)) (s : PaperFillExec) : Prop where
  defaultPrice : s.defaultPrice = px
  issued : s.issued.map (fun f ↦ (f.clientOrderId, f.lastPx))
    = sent.map fun o ↦ (o.2.clientOrderId, o.2.price.getD px)

theorem respects_filled (px : Price) : LiveKernel.Respects client (Filled px) where
  submit sent s n o s' h hsubmit := by
    obtain ⟨hprice, seq, hissued, -⟩ := submitOrder_eq_ok hsubmit
    refine ⟨hprice.trans h.defaultPrice, ?_⟩
    rw [hissued, List.map_append, List.map_append, h.issued]
    simp only [List.map_cons, List.map_nil, makeFill, h.defaultPrice]
  cancel sent s id iid s' h hcancel := by
    obtain rfl := send_eq_ok hcancel
    exact ⟨h.defaultPrice, h.issued⟩
  reconcile sent s reports s' h hreconcile := by
    cases hreconcile
    exact h
  recv sent s r s' h hrecv := by
    unfold client recv at hrecv
    simp only at hrecv
    split at hrecv
    · cases hrecv
    · cases hrecv
      exact ⟨h.defaultPrice, h.issued⟩

theorem Filled.forall₂ {px : Price} {sent : List (ℕ × Order)} {s : PaperFillExec}
    (h : Filled px sent s) : List.Forall₂ (fun o f ↦
      f.clientOrderId = o.2.clientOrderId ∧ f.lastPx = o.2.price.getD px) sent s.issued := by
  have heq : List.Forall₂ (· = ·) (sent.map fun o ↦ (o.2.clientOrderId, o.2.price.getD px))
      (s.issued.map fun f ↦ (f.clientOrderId, f.lastPx)) := by
    rw [List.forall₂_eq_eq_eq]
    exact h.issued.symm
  rw [List.forall₂_map_left_iff, List.forall₂_map_right_iff] at heq
  refine heq.imp fun o f hof ↦ ?_
  obtain ⟨hid, hpx⟩ := Prod.mk.inj hof
  exact ⟨hid.symm, hpx.symm⟩

theorem Filled.price_eq {px px' : Price} {sent : List (ℕ × Order)} {s s' : PaperFillExec}
    (h : Filled px sent s) (h' : Filled px' sent s') (hissued : s.issued = s'.issued)
    {o : ℕ × Order} (ho : o ∈ sent) (hprice : o.2.price = none) : px = px' := by
  have hmap := h.issued.symm.trans ((congrArg _ hissued).trans h'.issued)
  have hpair := List.map_inj_left.mp hmap o ho
  rw [hprice] at hpair
  exact (Prod.mk.inj hpair).2

end PaperFillExec

/-! ## Building -/

inductive Environment where
  | backtest | sandbox | live
deriving DecidableEq

def Environment.isLive : Environment → Bool
  | .backtest => false
  | .sandbox | .live => true

/-- One row of the input. -/
structure BarRow where
  ts : UnixNanos
  open_ : F64
  high : F64
  low : F64
  close : F64
  volume : F64
deriving DecidableEq

/-- Why a paper kernel is not built. -/
inductive BuildError where
  | environment
  | notFinite (v : F64)
  | outOfRange (v : F64)
  | model (e : ModelError)
deriving DecidableEq

section Build

variable [DecimalWidth] (retain : ℚ → Option Decimal)

/-- A price from a double. The decimal library's conversion of a finite one is given. -/
def priceFromF64 (v : F64) (precision : ℕ) : Except BuildError Price :=
  match v with
  | .finite q => match retain q with
    | some d => (Price.fromDecimal d precision).mapError .model
    | none => .error (.outOfRange v)
  | v => .error (.notFinite v)

/-- A quantity from a double; zero for one that is none. -/
def volumeFromF64 (v : F64) (precision : ℕ) : Quantity :=
  match v with
  | .finite q => match retain q with
    | some d => match Quantity.fromDecimal d precision with
      | .ok quantity => quantity
      | .error _ => Quantity.zero precision
    | none => Quantity.zero precision
  | _ => Quantity.zero precision

/-- The market event of a row. -/
def barEvent (iid : InstrumentId) (row : BarRow) : Except BuildError MarketEvent := do
  let open_ ← priceFromF64 retain row.open_ 2
  let high ← priceFromF64 retain row.high 2
  let low ← priceFromF64 retain row.low 2
  let close ← priceFromF64 retain row.close 2
  .ok (.bar {
    barType := ⟨iid, ⟨1, .minute, .last⟩, .external⟩
    open_ := open_
    high := high
    low := low
    close := close
    volume := volumeFromF64 retain row.volume 3
    tsEvent := row.ts
    tsInit := row.ts })

/-- The close of the last row, zero without one. -/
def lastClose (bars : List BarRow) : F64 := (bars.getLast?.map BarRow.close).getD (.finite 0)

/-- The price of market orders: the last close, or fifty thousand when that is not positive. -/
def paperPrice (bars : List BarRow) : Except BuildError Price :=
  if (lastClose bars).isPositive then priceFromF64 retain (lastClose bars) 2
  else priceFromF64 retain (.finite 50000) 2

/-- What a paper kernel is built from besides the bars. -/
structure PaperArgs (σ : Type) where
  strategy : Strategy σ
  initial : σ
  symbol : String
  venue : String
  /-- The decimal that the caller's double converts to. -/
  startingBalance : Decimal
  env : Environment
  /-- Whether the kill switch is engaged. -/
  killed : Bool
  clock : ℕ → UnixNanos
  stop : ℕ → Bool
  callbackFails : ℕ → Cache → Bool

variable {σ : Type}

/-- The settlement currency of paper kernels. -/
def paperSettle : Currency := ⟨"USDT", 8, eight_le_maxPrecision⟩

/-- The pair that is traded. -/
def PaperArgs.instrument (args : PaperArgs σ) : Instrument :=
  currencyPair ⟨⟨args.symbol⟩, ⟨args.venue⟩⟩
    ⟨"BASE", 8, eight_le_maxPrecision⟩ paperSettle 2 3 ⟨1, 2⟩ ⟨1, 3⟩ none (2 / 10000) (4 / 10000)

/-- The kernel over a paper price. -/
def PaperArgs.setup (args : PaperArgs σ) (starting : Money) (defaultPrice : Price) :
    LiveSetup σ PaperFillExec where
  config := ⟨[args.instrument], paperSettle, starting, .unlimited,
    ({} : DefaultBrokerageModel).brokerage, 0⟩
  strategyId := ⟨"py-paper"⟩
  strategy := args.strategy
  initial := args.initial
  killed := args.killed
  client := PaperFillExec.client
  exec := PaperFillExec.new defaultPrice paperSettle
  clock := args.clock
  stop := args.stop
  callbackFails := args.callbackFails

/-- A live kernel over the paper client, and the events that its data client replays. -/
def buildPaperKernel (args : PaperArgs σ) (bars : List BarRow) :
    Except BuildError (LiveSetup σ PaperFillExec × List MarketEvent) :=
  if !args.env.isLive then .error .environment
  else do
    let starting ← (Money.fromDecimal args.startingBalance paperSettle).mapError .model
    let events ← bars.mapM (barEvent retain args.instrument.id)
    let defaultPx ← paperPrice retain bars
    .ok (args.setup starting defaultPx, events)

variable {retain} {args : PaperArgs σ} {bars bars' : List BarRow}
  {setup setup' : LiveSetup σ PaperFillExec} {events events' : List MarketEvent}

/-- What a kernel that is built consists of. -/
theorem buildPaperKernel_eq_ok (h : buildPaperKernel retain args bars = .ok (setup, events)) :
    ∃ starting px,
      (Money.fromDecimal args.startingBalance paperSettle).mapError BuildError.model = .ok starting
      ∧ bars.mapM (barEvent retain args.instrument.id) = .ok events
      ∧ paperPrice retain bars = .ok px ∧ setup = args.setup starting px := by
  unfold buildPaperKernel at h
  split_ifs at h
  obtain ⟨starting, hstarting, h⟩ := Except.bind_eq_ok_iff.mp h
  obtain ⟨events', hevents, h⟩ := Except.bind_eq_ok_iff.mp h
  obtain ⟨px, hpx, h⟩ := Except.bind_eq_ok_iff.mp h
  cases h
  exact ⟨starting, px, hstarting, hevents, hpx, rfl⟩

theorem take_events_eq {n : ℕ} (hbuild : buildPaperKernel retain args bars = .ok (setup, events))
    (hbuild' : buildPaperKernel retain args bars' = .ok (setup', events'))
    (h : bars.take n = bars'.take n) : events.take n = events'.take n := by
  obtain ⟨_, _, -, hevents, -, -⟩ := buildPaperKernel_eq_ok hbuild
  obtain ⟨_, _, -, hevents', -, -⟩ := buildPaperKernel_eq_ok hbuild'
  have htake := Except.mapM_take hevents n
  rw [h, Except.mapM_take hevents' n] at htake
  exact (Except.ok.inj htake).symm

theorem setup_eq (hbuild : buildPaperKernel retain args bars = .ok (setup, events))
    (hbuild' : buildPaperKernel retain args bars' = .ok (setup', events'))
    (hprice : paperPrice retain bars = paperPrice retain bars') : setup = setup' := by
  obtain ⟨starting, px, hstarting, -, hpx, rfl⟩ := buildPaperKernel_eq_ok hbuild
  obtain ⟨starting', px', hstarting', -, hpx', rfl⟩ := buildPaperKernel_eq_ok hbuild'
  obtain rfl := Except.ok.inj (hstarting.symm.trans hstarting')
  obtain rfl := Except.ok.inj (hpx.symm.trans (hprice.trans hpx'))
  rfl

theorem filled_of_reached (hbuild : buildPaperKernel retain args bars = .ok (setup, events))
    {px : Price} (hpx : paperPrice retain bars = .ok px) {k : LiveKernel σ PaperFillExec}
    (h : LiveKernel.Reached setup events k) : k.exec.Filled px k.sent := by
  obtain ⟨starting, px', -, -, hpx', rfl⟩ := buildPaperKernel_eq_ok hbuild
  obtain rfl := Except.ok.inj (hpx.symm.trans hpx')
  exact h.respects (PaperFillExec.respects_filled px) ⟨rfl, rfl⟩

/-- The orders that were taken and their fills, after each of the first `m` rounds that come before
more than `n` bars are delivered. -/
def fillsUpTo (setup : LiveSetup σ PaperFillExec) (n m : ℕ) (events : List MarketEvent) :
    List (List (ℕ × Order) × List Fill) :=
  (LiveKernel.upTo setup n m events).map fun k ↦ (k.sent, k.exec.issued)

/-- **Paper fills.** An order without a price of its own is filled at the close of the last bar that
was delivered exactly if the paper price, which comes from the last bar of all, is that close. Runs
on bars that agree at first have the same fills up to there if their paper prices agree, and only
then once an order came without a price. -/
theorem fill_at_close_iff (hbuild : buildPaperKernel retain args bars = .ok (setup, events)) :
    (∀ k, LiveKernel.Reached setup events k → List.Forall₂ (fun o f ↦
        f.clientOrderId = o.2.clientOrderId ∧ ∀ row, 0 < o.1 → bars[o.1 - 1]? = some row →
          (priceFromF64 retain row.close 2 = .ok f.lastPx
            ↔ priceFromF64 retain row.close 2 = (paperPrice retain bars).map o.2.price.getD))
        k.sent k.exec.issued)
      ∧ ∀ bars' setup' events' n, buildPaperKernel retain args bars' = .ok (setup', events') →
        bars.take n = bars'.take n →
        (paperPrice retain bars = paperPrice retain bars' →
          ∀ m, fillsUpTo setup n m events = fillsUpTo setup' n m events')
        ∧ ∀ m, (∃ k ∈ LiveKernel.upTo setup n m events, ∃ o ∈ k.sent, o.2.price = none) →
          fillsUpTo setup n m events = fillsUpTo setup' n m events' →
          paperPrice retain bars = paperPrice retain bars' := by
  obtain ⟨_, px, -, -, hpx, -⟩ := buildPaperKernel_eq_ok hbuild
  refine ⟨fun k hk ↦ ?_, fun bars' setup' events' n hbuild' htake ↦ ⟨fun hprice m ↦ ?_, ?_⟩⟩
  · refine (filled_of_reached hbuild hpx hk).forall₂.imp fun o f ⟨hid, hlast⟩ ↦ ⟨hid, ?_⟩
    intro row _ _
    rw [hpx, hlast]
    rfl
  · obtain rfl := setup_eq hbuild hbuild' hprice
    rw [fillsUpTo, fillsUpTo, LiveKernel.upTo_congr m (take_events_eq hbuild hbuild' htake)]
  · rintro m ⟨k, hk, o, ho, hprice⟩ hfills
    obtain ⟨_, px', -, -, hpx', -⟩ := buildPaperKernel_eq_ok hbuild'
    -- the other run has a state with the same orders and the same fills
    obtain ⟨k', hk', hsame⟩ : ∃ k' ∈ LiveKernel.upTo setup' n m events',
        (k'.sent, k'.exec.issued) = (k.sent, k.exec.issued) := by
      refine List.mem_map.mp ?_
      rw [← fillsUpTo, ← hfills]
      exact List.mem_map_of_mem hk
    obtain ⟨hsent, hissued⟩ := Prod.mk.inj hsame
    have hfilled := filled_of_reached hbuild hpx (.of_mem_upTo hk)
    have hfilled' := filled_of_reached hbuild' hpx' (.of_mem_upTo hk')
    rw [hsent] at hfilled'
    rw [hpx, hpx', hfilled.price_eq hfilled' hissued.symm ho hprice]

end Build

section Instances

open scoped RustDecimal

/-- The strategy buys one tenth at the market on the first bar. The decimal library keeps the
doubles of these runs. -/
def buyOnce : PaperArgs Bool where
  strategy := ⟨fun sent cb ↦ match sent, cb with
    | false, .bar b => .submitMarket b.barType.instrumentId .buy ⟨100, 3⟩ fun _ ↦ .done true
    | _, _ => .done sent⟩
  initial := false
  symbol := "BTCUSDT"
  venue := "BINANCE"
  startingBalance := 100000
  env := .sandbox
  killed := false
  clock n := n
  stop _ := false
  callbackFails _ _ := false

/-- Rows that each stay at one price. -/
def flatRows (pxs : List ℚ) : List BarRow :=
  pxs.mapIdx fun i px ↦ ⟨i, .finite px, .finite px, .finite px, .finite px, .finite 1⟩

/-- The kernel over such rows, and their events. -/
def buyKernel (pxs : List ℚ) : LiveSetup Bool PaperFillExec × List MarketEvent :=
  match buildPaperKernel some buyOnce (flatRows pxs) with
  | .ok kernel => kernel
  | .error _ => (buyOnce.setup (Money.zero paperSettle) ⟨0, 2⟩, [])

theorem buildPaperKernel_buyKernel {pxs : List ℚ}
    (h : (buildPaperKernel some buyOnce (flatRows pxs)).isOk = true) :
    buildPaperKernel some buyOnce (flatRows pxs) = .ok (buyKernel pxs) := by
  unfold buyKernel
  cases hbuild : buildPaperKernel some buyOnce (flatRows pxs) with
  | ok kernel => rfl
  | error e =>
    rw [hbuild] at h
    cases h

/-- The states of a run over the rows until one bar is delivered. -/
def buyRun (pxs : List ℚ) : List (LiveKernel Bool PaperFillExec) :=
  LiveKernel.upTo (buyKernel pxs).1 1 9 (buyKernel pxs).2

/-- The rows end at the close of the first, so the order is filled at that close, with or without a
row at another price between. -/
theorem fill_at_close_iff_buyOnce :
    (∀ k, LiveKernel.Reached (buyKernel [100, 100]).1 (buyKernel [100, 100]).2 k →
        List.Forall₂ (fun o f ↦ o.1 = 1 → o.2.price = none → f.lastPx = ⟨10000, 2⟩)
          k.sent k.exec.issued)
      ∧ (∃ k ∈ buyRun [100, 100], ∃ o ∈ k.sent, o.1 = 1 ∧ o.2.price = none)
      ∧ ∀ m, fillsUpTo (buyKernel [100, 100]).1 1 m (buyKernel [100, 100]).2
        = fillsUpTo (buyKernel [100, 300, 100]).1 1 m (buyKernel [100, 300, 100]).2 := by
  have hbuilt : buildPaperKernel some buyOnce (flatRows [100, 100]) = .ok (buyKernel [100, 100]) :=
    buildPaperKernel_buyKernel (by decide +kernel)
  obtain ⟨hfills, hruns⟩ := fill_at_close_iff hbuilt
  refine ⟨fun k hk ↦ (hfills k hk).imp fun o f hof hfirst hprice ↦ ?_, by decide +kernel, ?_⟩
  · obtain ⟨-, hclose⟩ := hof
    rw [hfirst, hprice] at hclose
    have hpx := (hclose _ Nat.one_pos rfl).mpr (by decide +kernel)
    have hrow : priceFromF64 some (.finite 100) 2 = .ok ⟨10000, 2⟩ := by decide +kernel
    exact Except.ok.inj (hpx.symm.trans hrow)
  · exact (hruns _ _ _ 1 (buildPaperKernel_buyKernel (by decide +kernel)) (by decide)).1
      (by decide +kernel)

/-- The first bar closes at one hundred and the last at two hundred. The order that is sent on the
first bar is filled at two hundred; it would have been filled at one hundred, had the last bar
closed there. -/
theorem not_fill_at_close_of_later_bar :
    (¬ ∀ (args : PaperArgs Bool) (bars : List BarRow) (setup : LiveSetup Bool PaperFillExec)
      (events : List MarketEvent), buildPaperKernel some args bars = .ok (setup, events) →
      ∀ k, LiveKernel.Reached setup events k → List.Forall₂ (fun o f ↦ o.2.orderType = .market →
        ∀ row, 0 < o.1 → bars[o.1 - 1]? = some row →
          priceFromF64 some row.close 2 = .ok f.lastPx) k.sent k.exec.issued)
    ∧ ¬ ∀ (args : PaperArgs Bool) (bars bars' : List BarRow)
      (setup setup' : LiveSetup Bool PaperFillExec) (events events' : List MarketEvent) (n m : ℕ),
      buildPaperKernel some args bars = .ok (setup, events) →
      buildPaperKernel some args bars' = .ok (setup', events') → bars.take n = bars'.take n →
      fillsUpTo setup n m events = fillsUpTo setup' n m events' := by
  have hbuilt : buildPaperKernel some buyOnce (flatRows [100, 200]) = .ok (buyKernel [100, 200]) :=
    buildPaperKernel_buyKernel (by decide +kernel)
  have hbuilt' : buildPaperKernel some buyOnce (flatRows [100, 100]) = .ok (buyKernel [100, 100]) :=
    buildPaperKernel_buyKernel (by decide +kernel)
  constructor
  · intro h
    obtain ⟨k, hk, p, hp, hfirst, htype, hpx⟩ : ∃ k ∈ buyRun [100, 200],
        ∃ p ∈ k.sent.zip k.exec.issued, p.1.1 = 1 ∧ p.1.2.orderType = .market
          ∧ p.2.lastPx = ⟨20000, 2⟩ := by
      decide +kernel
    have hclose := List.forall₂_zip (h _ _ _ _ hbuilt k (.of_mem_upTo hk)) hp htype
    rw [hfirst, hpx] at hclose
    exact absurd (hclose _ Nat.one_pos rfl) (by decide +kernel)
  · intro h
    have hfills := congrArg (List.map fun p ↦ p.2.map Fill.lastPx)
      (h _ _ _ _ _ _ _ 1 9 hbuilt hbuilt' (by decide))
    exact absurd hfills (by decide +kernel)

end Instances

end Coinext
