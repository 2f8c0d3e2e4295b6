import Coinext.Binance.Messages
import Coinext.Binance.Resync
import Coinext.Support.Run

/-!
# Does the depth pipeline rebuild the venue's book?

A consumer folds the deltas that the pipeline emits for a symbol. `Rebuilt` says that its book is
the venue's book at the id the resyncer is at. This holds whenever deltas are emitted, as long as
the messages meet the two conditions on snapshots.
-/

namespace Coinext.Binance

/-! ## The consumer -/

/-- The deltas of a symbol among the emitted events. -/
def deltasOf (symbol : String) (events : List MarketEvent) : List OrderBookDelta :=
  events.filterMap fun
    | .delta d => if d.instrumentId = instrumentId symbol then some d else none
    | _ => none

/-- The book a consumer has for a symbol. -/
def consumerBook (symbol : String) (events : List MarketEvent) : OrderBook :=
  (OrderBook.new (instrumentId symbol)).applyAll (deltasOf symbol events)

/-- The consumer's book is the venue's at the id the resyncer is at. -/
def Rebuilt (venues : String → VenueBook) (p : Pump) (symbol : String) : Prop :=
  (consumerBook symbol p.sent).level
    = (venues symbol).level (p.resyncer.books symbol).book.lastUpdateId

/-! ## The condition -/

section Conditions

variable [DecimalText] [DecimalWidth]

/-- The id of the snapshot that is fetched first, if it can be read. -/
def Incoming.firstSnapshot? (input : Incoming) : Option ℕ :=
  (input.responses.head?.bind id).bind (Json.getU64 "lastUpdateId")

/-- The condition under which a message keeps the books rebuilt. -/
def RebuildOk (r : DepthResyncer) : WsMessage → Prop
  | .reconnected => True
  | .text input => ∀ data ∈ input.depth?, ∀ symbol ∈ data.getStr "s",
      ∀ x ∈ (normalizeDepth data (msToNanos input.tsInitMs)).toOption,
        BridgeOk (r.books symbol) x.1 ∧
          ∀ id ∈ input.firstSnapshot?, ReplayOk (r.books symbol) x.1 id

end Conditions

/-! ## Runs of the pump -/

section Run

variable [DecimalText] [DecimalWidth] {venues : String → VenueBook} {p : Pump}

/-- The books of one symbol: a synced one follows the venue. -/
structure SymbolInv (v : VenueBook) (state : BookState) (book : OrderBook) : Prop where
  tidy : state.Tidy
  follows : state.book.synced = true → Follows v.level book state.book.lastUpdateId

section Frame

variable {v : VenueBook} {symbol : String} {update : DepthUpdate} {data : Json}
  {bids asks : List WireLevel} {state : BookState} {book : OrderBook}
  {responses : List (Option Json)} {deltas : List OrderBookDelta} {tsEvent tsInit : UnixNanos}

/-- What the caller of the resyncer emits. -/
def emittedBy (deltas : List OrderBookDelta) (out : Option (List OrderBookDelta) × BookState) :
    List OrderBookDelta :=
  match out.1 with
  | some snapshotDeltas => if out.2.book.synced then snapshotDeltas ++ deltas else []
  | none => []

omit [DecimalText] [DecimalWidth] in
theorem emittedBy_of_not_synced {out : Option (List OrderBookDelta) × BookState}
    (h : out.2.book.synced = false) : emittedBy deltas out = [] := by
  unfold emittedBy
  split
  · rw [h]
    rfl
  · rfl

omit [DecimalText] [DecimalWidth] in
/-- A book that is not synced promises nothing. -/
theorem SymbolInv.of_not_synced {out : Option (List OrderBookDelta) × BookState}
    (hsynced : out.2.book.synced = false) (htidy : out.2.Tidy) (book : OrderBook) :
    SymbolInv v out.2 (book.applyAll (emittedBy deltas out)) ∧
      (emittedBy deltas out ≠ [] → out.2.book.synced = true) := by
  rw [emittedBy_of_not_synced hsynced]
  exact ⟨⟨htidy, fun h ↦ absurd (hsynced.symm.trans h) Bool.false_ne_true⟩, fun h ↦ absurd rfl h⟩

/-- **One frame.** The consumer of its symbol follows the venue as long as the book is synced. -/
theorem SymbolInv.frame (h : SymbolInv v state book)
    (hcontiguous : ∃ pu, update.prevUpdateId = some pu ∧ update.firstUpdateId = pu + 1 ∧
      Patch v.level pu update.lastUpdateId (deltas.map OrderBookDelta.entry))
    (hdeltas : ∀ d ∈ deltas, d.action ≠ .clear ∧ d.sequence = update.lastUpdateId)
    (hsnapshots : ∀ body, some body ∈ responses → ∃ id bids asks, IsSnapshot v id body bids asks)
    (hbridge : BridgeOk state update)
    (hreplay : ∀ body rest id, responses = some body :: rest →
      body.getU64 "lastUpdateId" = some id → ReplayOk state update id) :
    let out := fetchWhileNeeded symbol tsEvent tsInit responses (state.onDiff update).1 []
      (state.onDiff update).2
    SymbolInv v out.2 (book.applyAll (emittedBy deltas out)) ∧
      (emittedBy deltas out ≠ [] → out.2.book.synced = true) := by
  obtain ⟨pu, hpu, hfirst, hpatch⟩ := hcontiguous
  rcases BookState.onDiff_cases h.tidy hbridge with ⟨book₁, waiting, heq, hsynced₁, hwaiting⟩ |
    ⟨heq, hold⟩ | ⟨heq, hsynced, hnew, hnext⟩
  · rw [heq]
    have hok : ∀ body rest id, responses = some body :: rest →
        body.getU64 "lastUpdateId" = some id → Bridges id (waiting ++ [update]) →
        ∀ w ∈ waiting, w.lastUpdateId ≤ id ∨ w = update := by
      intro body rest id hresponses hid hbridges w hw
      rcases hwaiting with rfl | ⟨hawait, rfl⟩
      · cases hw
      · exact hreplay body rest id hresponses hid hawait hbridges w hw
    rcases fetchWhileNeeded_cases symbol tsEvent tsInit responses hsynced₁ hok with
      ⟨body, id, sdeltas, hmem, hread, hcheck, hout⟩ | ⟨hsynced, htidy⟩
    · -- the snapshot puts the consumer at its id, and the frame spans the id after it
      obtain ⟨id', bids, asks, hgenuine⟩ := hsnapshots body hmem
      obtain ⟨clear, adds, hread', ⟨-, hclear⟩, hentries, hadds⟩ :=
        hgenuine.normalizeDepthSnapshot_eq tsEvent tsInit
      cases hread.symm.trans hread'
      have hat : Follows v.level (book.applyAll (clear :: adds)) id :=
        Follows.snapshot hclear (hentries ▸ hgenuine.current) (hentries ▸ hgenuine.complete)
          (fun d hd ↦ (hadds d hd).2) book
      simp only [checkFirst, decide_eq_true_eq] at hcheck
      refine ⟨⟨?_, fun _ ↦ ?_⟩, fun _ ↦ ?_⟩ <;> simp only [hout]
      · exact ⟨fun _ ↦ rfl, fun hawait ↦ (by cases hawait)⟩
      · change Follows v.level (book.applyAll (clear :: adds ++ deltas)) update.lastUpdateId
        rw [OrderBook.applyAll_append]
        exact hat.patch hpatch hdeltas (by omega) (by omega)
    · exact SymbolInv.of_not_synced hsynced htidy book
  · rw [heq, fetchWhileNeeded_continue]
    by_cases hsynced : state.book.synced = true
    · have hemitted : emittedBy deltas (some [], state) = deltas := if_pos hsynced
      simp only [hemitted]
      exact ⟨⟨h.tidy, fun _ ↦ (h.follows hsynced).stale hpatch.current hdeltas hold⟩,
        fun _ ↦ hsynced⟩
    · have hunsynced : state.book.synced = false := by simpa using hsynced
      exact SymbolInv.of_not_synced hunsynced h.tidy book
  · rw [heq, fetchWhileNeeded_continue]
    simp only [checkNext, hpu, decide_eq_true_eq] at hnext
    have htidy : state.awaitingSnapshot = false := by
      by_contra hawait
      exact absurd ((h.tidy.not_synced (by simpa using hawait)).symm.trans hsynced)
        Bool.false_ne_true
    refine ⟨⟨⟨h.tidy.buffer_eq, fun hawait ↦ ?_⟩, fun _ ↦ ?_⟩, fun _ ↦ rfl⟩
    · exact absurd (htidy.symm.trans hawait) Bool.false_ne_true
    · exact (h.follows hsynced).patch hpatch hdeltas hnext.le hnew.le

theorem instrumentId_of_normalizeDepthSnapshot {body : Json} {id : ℕ}
    (h : normalizeDepthSnapshot symbol body tsEvent tsInit = .ok (id, deltas)) :
    ∀ d ∈ deltas, d.instrumentId = instrumentId symbol := by
  simp only [normalizeDepthSnapshot, Except.bind_eq_ok_iff] at h
  obtain ⟨_, -, _, -, _, -, hout⟩ := h
  cases hout
  intro d hd
  simp only [List.mem_cons, List.mem_append, List.mem_map] at hd
  rcases hd with rfl | ⟨_, _, rfl⟩ | ⟨_, _, rfl⟩ <;> rfl

/-- The snapshot that is carried along is one of the symbol. -/
theorem instrumentId_of_fetchWhileNeeded {action : DepthAction} {sdeltas : List OrderBookDelta}
    {out : Option (List OrderBookDelta) × BookState}
    (h : fetchWhileNeeded symbol tsEvent tsInit responses action deltas state = out)
    (hout : out.1 = some sdeltas) (hdeltas : ∀ d ∈ deltas, d.instrumentId = instrumentId symbol) :
    ∀ d ∈ sdeltas, d.instrumentId = instrumentId symbol := by
  induction responses generalizing action deltas state with
  | nil =>
    cases action <;> subst h
    · cases hout
      exact hdeltas
    · cases hout
  | cons response rest ih =>
    cases action with
    | continue_ =>
      subst h
      cases hout
      exact hdeltas
    | needSnapshot =>
      rw [fetchWhileNeeded] at h
      split at h
      · subst h
        cases hout
      · rename_i id deltas' hfetch
        refine ih h fun d hd ↦ ?_
        obtain ⟨body, -, hbody⟩ := Option.bind_eq_some_iff.mp hfetch
        cases hn : normalizeDepthSnapshot symbol body tsEvent tsInit with
        | error e =>
          rw [hn] at hbody
          cases hbody
        | ok x =>
          rw [hn] at hbody
          cases hbody
          exact instrumentId_of_normalizeDepthSnapshot hn d hd

/-- A depth frame touches its own symbol only. -/
theorem processDepth_spec {r : DepthResyncer} (h : SymbolInv v (r.books symbol) book)
    (hdiff : IsDiff v symbol update data bids asks)
    (hsnapshots : ∀ body, some body ∈ responses → ∃ id bids asks, IsSnapshot v id body bids asks)
    (hbridge : BridgeOk (r.books symbol) update)
    (hreplay : ∀ body rest id, responses = some body :: rest →
      body.getU64 "lastUpdateId" = some id → ReplayOk (r.books symbol) update id) :
    ∃ emitted state', processDepth data tsInit responses r = (emitted, r.set symbol state') ∧
      (∀ d ∈ emitted, d.instrumentId = instrumentId symbol) ∧
      SymbolInv v state' (book.applyAll emitted) ∧ (emitted ≠ [] → state'.book.synced = true) := by
  obtain ⟨deltas, hread, hentries, hdeltas⟩ := hdiff.normalizeDepth_eq tsInit
  obtain ⟨ms, htime⟩ := hdiff.time
  set out := fetchWhileNeeded symbol (msToNanos ms) tsInit responses
    ((r.books symbol).onDiff update).1 [] ((r.books symbol).onDiff update).2 with hout
  refine ⟨emittedBy deltas out, out.2, ?_, fun d hd ↦ ?_, ?_⟩
  · simp only [processDepth, hread, strField, numField, hdiff.symbol_eq, htime, orError]
    rfl
  · unfold emittedBy at hd
    split at hd
    · rename_i sdeltas hsome
      split_ifs at hd
      · rcases List.mem_append.mp hd with hd | hd
        · exact instrumentId_of_fetchWhileNeeded hout.symm hsome
            (fun d hd ↦ absurd hd List.not_mem_nil) d hd
        · exact (hdeltas d hd).1
      · cases hd
    · cases hd
  · obtain ⟨pu, hpu, hfirst, hpatch⟩ := hdiff.contiguous
    exact h.frame ⟨pu, hpu, hfirst, hentries ▸ hpatch⟩ (fun d hd ↦ (hdeltas d hd).2) hsnapshots
      hbridge hreplay

end Frame

/-! ### Whole runs -/

/-- Every consumer follows the venue as long as its symbol is synced. -/
def PumpInv (venues : String → VenueBook) (p : Pump) : Prop :=
  ∀ symbol, SymbolInv (venues symbol) (p.resyncer.books symbol) (consumerBook symbol p.sent)

omit [DecimalText] [DecimalWidth] in
theorem pumpInv_new : PumpInv venues .new := fun _ ↦
  ⟨BookState.tidy_default, fun h ↦ (by cases h)⟩

omit [DecimalText] [DecimalWidth] in
theorem consumerBook_append (symbol : String) (sent events : List MarketEvent) :
    consumerBook symbol (sent ++ events)
      = (consumerBook symbol sent).applyAll (deltasOf symbol events) := by
  rw [consumerBook, deltasOf, List.filterMap_append, OrderBook.applyAll_append]
  rfl

omit [DecimalText] [DecimalWidth] in
theorem deltasOf_map_delta {symbol : String} {deltas : List OrderBookDelta}
    (h : ∀ d ∈ deltas, d.instrumentId = instrumentId symbol) (other : String) :
    deltasOf other (deltas.map .delta) = if other = symbol then deltas else [] := by
  rw [deltasOf, List.filterMap_map]
  split_ifs with hother
  · subst hother
    refine (List.filterMap_congr fun d hd ↦ ?_).trans List.filterMap_some
    exact if_pos (h d hd)
  · refine List.filterMap_eq_nil_iff.mpr fun d hd ↦ ?_
    refine if_neg fun heq ↦ hother ?_
    exact instrumentId_injective (heq.symm.trans (h d hd))

/-- Trades and quotes carry no deltas. -/
theorem deltasOf_normalizeCombinedFrame {frame : Json} {stream : String}
    (hstream : frame.getStr "stream" = some stream) (hdepth : containsText stream "@depth" = false)
    (tsInitMs : ℕ) (symbol : String) :
    deltasOf symbol ((normalizeCombinedFrame frame tsInitMs).getD []) = [] := by
  have hevents : ∀ events ∈ normalizeCombinedFrame frame tsInitMs, deltasOf symbol events = [] := by
    intro events hevents
    simp only [normalizeCombinedFrame, hstream, hdepth, bind, Option.bind_some,
      Bool.false_eq_true, if_false] at hevents
    obtain ⟨data, -, hevents⟩ := Option.bind_eq_some_iff.mp hevents
    split_ifs at hevents
    · obtain ⟨tick, -, htick⟩ := Option.bind_eq_some_iff.mp hevents
      cases htick
      rfl
    · obtain ⟨tick, -, htick⟩ := Option.bind_eq_some_iff.mp hevents
      cases htick
      rfl
  cases h : normalizeCombinedFrame frame tsInitMs with
  | none => rfl
  | some events => exact hevents events h

theorem processFrame_of_depth?_eq_none {input : Incoming} {r : DepthResyncer}
    (h : input.depth? = none) :
    (processFrame input r).2 = r ∧ ∀ symbol, deltasOf symbol (processFrame input r).1 = [] := by
  unfold processFrame
  cases hframe : input.frame with
  | none => exact ⟨rfl, fun _ ↦ rfl⟩
  | some frame =>
    cases hstream : frame.getStr "stream" with
    | none =>
      simp only [hstream]
      exact ⟨trivial, fun _ ↦ rfl⟩
    | some stream =>
      cases hdata : frame.get "data" with
      | none =>
        simp only [hstream, hdata]
        exact ⟨trivial, fun _ ↦ rfl⟩
      | some data =>
        have hdepth : containsText stream "@depth" = false := by
          by_contra hdepth
          simp [Incoming.depth?, hframe, hstream, hdata, hdepth] at h
        simp only [hstream, hdata, hdepth, Bool.false_eq_true, if_false, true_and]
        exact deltasOf_normalizeCombinedFrame hstream hdepth input.tsInitMs

theorem processFrame_of_depth? {input : Incoming} {data : Json} (h : input.depth? = some data)
    (r : DepthResyncer) :
    processFrame input r
      = ((processDepth data (msToNanos input.tsInitMs) input.responses r).1.map .delta,
        (processDepth data (msToNanos input.tsInitMs) input.responses r).2) := by
  simp only [Incoming.depth?, bind, Option.bind_eq_some_iff] at h
  obtain ⟨frame, hframe, stream, hstream, data', hdata, h⟩ := h
  split_ifs at h with hdepth
  cases h
  simp only [processFrame, hframe, hstream, hdata, hdepth, if_true]

/-- **Step lemma.** A message that meets the condition keeps every consumer in step, and deltas are
emitted for synced symbols only. -/
theorem PumpInv.text (h : PumpInv venues p) {input : Incoming}
    (hgenuine : Genuine venues (.text input)) (hok : RebuildOk p.resyncer (.text input)) :
    PumpInv venues (p.step (.text input)) ∧
      ∀ symbol, deltasOf symbol (processFrame input p.resyncer).1 ≠ [] →
        ((p.step (.text input)).resyncer.books symbol).book.synced = true := by
  cases hdepth : input.depth? with
  | none =>
    obtain ⟨hresyncer, hnone⟩ := processFrame_of_depth?_eq_none (r := p.resyncer) hdepth
    refine ⟨fun symbol ↦ ?_, fun symbol hne ↦ absurd (hnone symbol) hne⟩
    change SymbolInv _ ((processFrame input p.resyncer).2.books symbol)
      (consumerBook symbol (p.sent ++ (processFrame input p.resyncer).1))
    rw [consumerBook_append, hnone, hresyncer]
    exact h symbol
  | some data =>
    obtain ⟨symbol, update, bids, asks, hdiff, hsnapshots⟩ := hgenuine data hdepth
    obtain ⟨deltas, hread, -⟩ := hdiff.normalizeDepth_eq (msToNanos input.tsInitMs)
    have hmem : (update, deltas) ∈ (normalizeDepth data (msToNanos input.tsInitMs)).toOption := by
      rw [hread]
      rfl
    obtain ⟨hbridge, hreplay⟩ := hok data hdepth symbol hdiff.symbol_eq _ hmem
    obtain ⟨emitted, state', hprocess, hids, hinv, hsynced⟩ := processDepth_spec (h symbol) hdiff
      hsnapshots hbridge fun body rest id hresponses hid ↦ hreplay id (by
        simp [Incoming.firstSnapshot?, hresponses, hid])
    have hframe := processFrame_of_depth? hdepth p.resyncer
    rw [hprocess] at hframe
    have hstep : p.step (.text input)
        = ⟨p.resyncer.set symbol state', p.sent ++ emitted.map .delta⟩ := by
      simp only [Pump.step, hframe]
    rw [hstep, hframe]
    refine ⟨fun other ↦ ?_, fun other hne ↦ ?_⟩
    · change SymbolInv _ ((p.resyncer.set symbol state').books other)
        (consumerBook other (p.sent ++ emitted.map .delta))
      rw [consumerBook_append, deltasOf_map_delta hids]
      by_cases hother : other = symbol
      · subst hother
        rw [if_pos rfl, DepthResyncer.books_set_self]
        exact hinv
      · rw [if_neg hother, DepthResyncer.books_set_of_ne _ hother]
        exact h other
    · rw [deltasOf_map_delta hids] at hne
      split_ifs at hne with hother
      · subst hother
        change ((p.resyncer.set other state').books other).book.synced = true
        rw [DepthResyncer.books_set_self]
        exact hsynced hne
      · exact absurd rfl hne

omit [DecimalText] [DecimalWidth] in
theorem pumpInv_reconnected (p : Pump) :
    PumpInv venues { p with resyncer := p.resyncer.markAllForResync } := fun _ ↦
  ⟨BookState.tidy_default, fun hsynced ↦ (by cases hsynced)⟩

/-- **The consumer's book is the venue's.** In every run whose messages come from the venue and meet
the condition, whenever a frame emits deltas for a symbol, all deltas emitted for it so far fold to
the levels of the venue at the resyncer's last update id. -/
theorem book_rebuilt (venues : String → VenueBook) (messages : List WsMessage) (input : Incoming)
    (hrun : Along Pump.step (fun p m ↦ Genuine venues m ∧ RebuildOk p.resyncer m) .new
      (messages ++ [.text input])) (symbol : String)
    (hemits : deltasOf symbol
      (processFrame input (messages.foldl Pump.step .new).resyncer).1 ≠ []) :
    Rebuilt venues ((messages ++ [WsMessage.text input]).foldl Pump.step .new) symbol := by
  rw [along_append] at hrun
  have hstep (p : Pump) (m : WsMessage) (h : PumpInv venues p)
      (hok : Genuine venues m ∧ RebuildOk p.resyncer m) : PumpInv venues (p.step m) := by
    cases m with
    | text input => exact (h.text hok.1 hok.2).1
    | reconnected => exact pumpInv_reconnected p
  have hinv := hrun.1.induction hstep pumpInv_new
  obtain ⟨hnext, hsynced⟩ := hinv.text hrun.2.1.1 hrun.2.1.2
  rw [List.foldl_append]
  exact ((hnext symbol).follows (hsynced symbol hemits)).level_eq

end Run

section Instances

open scoped RustDecimal PlainDecimal

/-- A bid of one at ten, and from update 106 on an ask of three at eleven. -/
def quietVenue : VenueBook where
  size id key := if key = (.buy, 1000000000) then 100000000
    else if key = (.sell, 1100000000) ∧ 106 ≤ id then 300000000 else 0

def row (price size : String) : Json := .arr [.str price, .str size]

def depthData (first last prev : ℕ) (bids asks : List Json) : Json :=
  .obj [("e", .str "depthUpdate"), ("E", .uint 1), ("s", .str "BTCUSDT"), ("U", .uint first),
    ("u", .uint last), ("pu", .uint prev), ("b", .arr bids), ("a", .arr asks)]

def snapshotBody (id : ℕ) : Json :=
  .obj [("lastUpdateId", .uint id), ("bids", .arr [row "10" "1"]), ("asks", .arr [])]

def depthInput (data : Json) (responses : List (Option Json)) : Incoming :=
  ⟨some (.obj [("stream", .str "btcusdt@depth@100ms"), ("data", data)]), 1, responses⟩

/-- A frame in which nothing changes, and the snapshot fetched for it. -/
def firstInput (snapshotId : ℕ) : Incoming :=
  depthInput (depthData 100 102 99 [] []) [some (snapshotBody snapshotId)]

/-- The frame in which the ask appears. -/
def secondInput : Incoming := depthInput (depthData 103 106 102 [] [row "11" "3"]) []

theorem depth?_depthInput (data : Json) (responses : List (Option Json)) :
    (depthInput data responses).depth? = some data := by
  have hdepth : containsText "btcusdt@depth@100ms" "@depth" = true := by decide
  simp [Incoming.depth?, depthInput, Json.getStr, Json.get, Json.asStr, List.lookup_cons, hdepth]

theorem writesLevel_row {price size : String} {x : WireLevel} (hprice : IsWireText price x.1)
    (hsize : IsWireText size x.2) : WritesLevel (row price size) x :=
  ⟨price, size, [], rfl, hprice, hsize⟩

theorem isSnapshot_snapshotBody {id : ℕ} (hid : id < 106) :
    IsSnapshot quietVenue id (snapshotBody id) [(1000000000, 100000000)] [] := by
  refine ⟨?_, ⟨_, rfl, .cons (writesLevel_row ⟨?_, ?_, ?_⟩ ⟨?_, ?_, ?_⟩) .nil⟩,
    ⟨_, rfl, .nil⟩, ?_, fun key hkey ↦ ?_⟩
  · have hmax : id ≤ u64Max := hid.le.trans (by decide)
    simp [snapshotBody, Json.getU64, Json.get, Json.asU64, hmax]
  · decide +kernel
  · decide
  · decide
  · decide +kernel
  · decide
  · decide
  · simp [wireEntries, WireLevel.entry, VenueBook.level, quietVenue]
  · have hne : key ≠ (.buy, 1000000000) := fun h ↦ hkey _ List.mem_cons_self h.symm
    simp [VenueBook.level, quietVenue, levelOf, hne, show ¬ 106 ≤ id by omega]

theorem level_quietVenue {j : ℕ} (hj : j + 1 < 106) :
    quietVenue.level j = quietVenue.level (j + 1) := by
  funext key
  simp only [VenueBook.level, quietVenue, show ¬ 106 ≤ j by omega, show ¬ 106 ≤ j + 1 by omega]

theorem isDiff_first : IsDiff quietVenue "BTCUSDT" ⟨100, 102, some 99⟩
    (depthData 100 102 99 [] []) [] [] := by
  refine ⟨rfl, by decide, by decide, by decide, ⟨1, by decide⟩,
    ⟨_, rfl, .nil⟩, ⟨_, rfl, .nil⟩, 99, rfl, rfl, ?_, fun j _ hj key hne ↦ ?_⟩
  · exact fun e he ↦ absurd he List.not_mem_nil
  · have hearly : j + 1 < 106 := Nat.lt_of_le_of_lt (Nat.succ_le_of_lt hj) (by decide)
    exact absurd (congrFun (level_quietVenue hearly) key) hne

theorem isDiff_second : IsDiff quietVenue "BTCUSDT" ⟨103, 106, some 102⟩
    (depthData 103 106 102 [] [row "11" "3"]) [] [(1100000000, 300000000)] := by
  refine ⟨rfl, by decide, by decide, by decide, ⟨1, by decide⟩,
    ⟨_, rfl, .nil⟩, ⟨_, rfl, .cons (writesLevel_row ⟨?_, ?_, ?_⟩ ⟨?_, ?_, ?_⟩) .nil⟩, 102, rfl, rfl,
    ?_, fun j _ hj key hne ↦ ?_⟩
  · decide +kernel
  · decide
  · decide
  · decide +kernel
  · decide
  · decide
  · simp [wireEntries, WireLevel.entry, VenueBook.level, quietVenue]
  · refine ⟨_, List.mem_cons_self, ?_⟩
    by_contra hother
    refine hne ?_
    have hkey : key ≠ (.sell, 1100000000) := fun h ↦ hother h.symm
    simp only [VenueBook.level, quietVenue, hkey, false_and, if_false]

theorem genuine_first {snapshotId : ℕ} (hid : snapshotId < 106) :
    Genuine (fun _ ↦ quietVenue) (.text (firstInput snapshotId)) := by
  intro data hdata
  cases (depth?_depthInput _ _).symm.trans hdata
  refine ⟨"BTCUSDT", _, _, _, isDiff_first, fun body hbody ↦ ?_⟩
  cases List.mem_singleton.mp hbody
  exact ⟨snapshotId, _, _, isSnapshot_snapshotBody hid⟩

theorem genuine_second : Genuine (fun _ ↦ quietVenue) (.text secondInput) := by
  intro data hdata
  cases (depth?_depthInput _ _).symm.trans hdata
  exact ⟨"BTCUSDT", _, _, _, isDiff_second, fun body hbody ↦ absurd hbody List.not_mem_nil⟩

instance (r : DepthResyncer) : (m : WsMessage) → Decidable (RebuildOk r m)
  | .reconnected => isTrue trivial
  | .text input => inferInstanceAs (Decidable (∀ data ∈ input.depth?, ∀ symbol ∈ data.getStr "s",
      ∀ x ∈ (normalizeDepth data (msToNanos input.tsInitMs)).toOption,
        ¬ (_ ∧ _ ∧ _ ∧ _) ∧ ∀ id ∈ input.firstSnapshot?, (_ → _ → ∀ w ∈ _, _ ∨ _)))

/-- The snapshot is older than the first frame's last id, so the frame bridges it. -/
theorem book_rebuilt_bridged :
    Rebuilt (fun _ ↦ quietVenue)
      ([WsMessage.text (firstInput 101), .text secondInput].foldl Pump.step .new) "BTCUSDT" :=
  book_rebuilt (fun _ ↦ quietVenue) [.text (firstInput 101)] secondInput
    ⟨⟨genuine_first (by decide), by decide⟩, ⟨genuine_second, by decide +kernel⟩, trivial⟩
    "BTCUSDT" (by decide +kernel)

/-- **A snapshot is lost** when it is newer than the frame it was fetched for. -/
theorem not_rebuilt_of_newer_snapshot :
    ¬ ∀ (venues : String → VenueBook) (messages : List WsMessage) (input : Incoming)
      (symbol : String), (∀ m ∈ messages ++ [.text input], Genuine venues m) →
      deltasOf symbol (processFrame input (messages.foldl Pump.step .new).resyncer).1 ≠ [] →
      Rebuilt venues ((messages ++ [WsMessage.text input]).foldl Pump.step .new) symbol := by
  intro h
  have hrebuilt := h (fun _ ↦ quietVenue) [.text (firstInput 105)] secondInput "BTCUSDT"
    (fun m hm ↦ ?_) (by decide +kernel)
  · -- the bid of the snapshot is missing
    exact absurd (congrFun hrebuilt (.buy, 1000000000)) (by decide +kernel)
  · simp only [List.singleton_append, List.mem_cons, List.not_mem_nil, or_false] at hm
    rcases hm with rfl | rfl
    · exact genuine_first (by decide)
    · exact genuine_second

end Instances

end Coinext.Binance
