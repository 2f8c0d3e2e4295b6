import Coinext.Binance.Coverage
import Coinext.Binance.Rebuild
import Coinext.Network.Stream

/-!
# The depth pump behind a connection that breaks

The pump reads what the WebSocket client sends. A connection may end at any time, and the diffs of
the next one need not continue those of the last, so nothing that was learned on one connection may
be used on the next. It is not: a book that deltas are emitted for stands on a snapshot that was
fetched while frames of the same connection were processed, and each id from there to the last one
is in a diff of that connection.

`Trusted` is the invariant, for one book, over any set of diffs and of snapshots; a reconnect leaves
it true of the empty sets.
-/

namespace Coinext.Binance

/-! ## Books that stand on a snapshot -/

variable {D D' : DepthUpdate → Prop} {S S' : ℕ → Prop} {state : BookState} {update : DepthUpdate}
  {book : LocalOrderBook} {start last : ℕ}

/-- Every id after `start`, up to `last`, is in one of the diffs. -/
def Covers (D : DepthUpdate → Prop) (start last : ℕ) : Prop :=
  ∀ id, start < id → id ≤ last → ∃ update, D update ∧ update.firstUpdateId ≤ id ∧
    id ≤ update.lastUpdateId

/-- The id is that of a snapshot, or is reached from one through the diffs. -/
def Grounded (D : DepthUpdate → Prop) (S : ℕ → Prop) (last : ℕ) : Prop :=
  ∃ start, S start ∧ Covers D start last

/-- The diffs that wait are among `D`, and a book that has moved is grounded. -/
structure Trusted (D : DepthUpdate → Prop) (S : ℕ → Prop) (state : BookState) : Prop where
  buffered : ∀ update ∈ state.buffer, D update
  grounded : state.book ≠ .new → Grounded D S state.book.lastUpdateId

theorem Covers.refl (D : DepthUpdate → Prop) (start : ℕ) : Covers D start start :=
  fun _ hlt hle ↦ absurd hle (not_le.mpr hlt)

theorem Grounded.mono (hD : ∀ u, D u → D' u) (hS : ∀ id, S id → S' id) (h : Grounded D S last) :
    Grounded D' S' last := by
  obtain ⟨start, hstart, hcovers⟩ := h
  refine ⟨start, hS start hstart, fun id hlt hle ↦ ?_⟩
  obtain ⟨u, hu, hspan⟩ := hcovers id hlt hle
  exact ⟨u, hD u hu, hspan⟩

theorem Trusted.mono (hD : ∀ u, D u → D' u) (hS : ∀ id, S id → S' id) (h : Trusted D S state) :
    Trusted D' S' state :=
  ⟨fun u hu ↦ hD u (h.buffered u hu), fun hbook ↦ (h.grounded hbook).mono hD hS⟩

theorem trusted_default (D : DepthUpdate → Prop) (S : ℕ → Prop) : Trusted D S {} :=
  ⟨fun _ hu ↦ (by cases hu), fun hbook ↦ absurd rfl hbook⟩

theorem Covers.applyDiff (h : Covers D start book.lastUpdateId) (hu : D update)
    (hconsistent : update.Consistent) : Covers D start (book.applyDiff update).2.lastUpdateId := by
  rcases book.applyDiff_cases hconsistent with ⟨-, hfirst, -, hlast⟩ | ⟨-, hlast⟩
  · rw [hlast]
    intro id hlt hle
    by_cases hid : id ≤ book.lastUpdateId
    · exact h id hlt hid
    · exact ⟨update, hu, by omega, hle⟩
  · rwa [hlast]

namespace BookState

theorem trusted_onDiff (hconsistent : ∀ u, D u → u.Consistent) (h : Trusted D S state)
    (hu : D update) : Trusted D S (state.onDiff update).2 := by
  have hpush : ∀ w ∈ state.buffer ++ [update], D w := fun w hw ↦ by
    rcases List.mem_append.mp hw with hw | hw
    · exact h.buffered w hw
    · rwa [List.mem_singleton.mp hw]
  unfold onDiff
  split_ifs with hawaiting hnew
  · exact ⟨hpush, h.grounded⟩
  · exact ⟨hpush, h.grounded⟩
  · -- the book has moved, so it is grounded before the diff
    have hbook : state.book ≠ .new := fun heq ↦ hnew (by rw [heq]; exact ⟨rfl, rfl⟩)
    obtain ⟨start, hstart, hcovers⟩ := h.grounded hbook
    have happly := hcovers.applyDiff hu (hconsistent update hu)
    split
    · rename_i book hout
      rw [hout] at happly
      exact ⟨fun w hw ↦ by rwa [List.mem_singleton.mp hw], fun _ ↦ ⟨start, hstart, happly⟩⟩
    · rename_i book _ hout
      rw [hout] at happly
      exact ⟨h.buffered, fun _ ↦ ⟨start, hstart, happly⟩⟩

theorem covers_replay (hconsistent : ∀ u, D u → u.Consistent) (id : ℕ) {l : List DepthUpdate}
    (hl : ∀ w ∈ l, D w) (h : Covers D start book.lastUpdateId) :
    Covers D start (replay id l book).2.lastUpdateId := by
  induction l generalizing book with
  | nil => exact h
  | cons w l ih =>
    have htail : ∀ x ∈ l, D x := fun x hx ↦ hl x (List.mem_cons_of_mem w hx)
    have happly := h.applyDiff (hl w List.mem_cons_self) (hconsistent w (hl w List.mem_cons_self))
    unfold replay
    split_ifs
    · exact ih htail h
    · split
      · rename_i book' hout
        rwa [hout] at happly
      · rename_i book' _ hout
        rw [hout] at happly
        exact ih htail happly

theorem trusted_onSnapshot (hconsistent : ∀ u, D u → u.Consistent) (h : Trusted D S state) {id : ℕ}
    (hid : S id) : Trusted D S (state.onSnapshot id).2 := by
  have hinstalled : Covers D id (state.book.installSnapshot id).lastUpdateId := Covers.refl D id
  have hreplay := covers_replay hconsistent id h.buffered hinstalled
  unfold onSnapshot
  split
  all_goals
    rename_i book hout
    rw [hout] at hreplay
    exact ⟨fun _ hu ↦ (by cases hu), fun _ ↦ ⟨id, hid, hreplay⟩⟩

end BookState

/-! ## One message -/

section Process

variable [DecimalText] [DecimalWidth] {symbol : String} {input : Incoming} {r : DepthResyncer}

/-- The diff of a message, if it has one for the symbol. -/
def Incoming.diff? (input : Incoming) (symbol : String) : Option DepthUpdate := do
  let data ← input.depth?
  let x ← (normalizeDepth data (msToNanos input.tsInitMs)).toOption
  if data.getStr "s" = some symbol then some x.1 else none

/-- While the message is processed, the venue may answer with a snapshot of the symbol that has
the id. -/
def Incoming.Fetches (input : Incoming) (symbol : String) (id : ℕ) : Prop :=
  (∃ update, input.diff? symbol = some update) ∧
    ∃ body tsEvent tsInit deltas, some body ∈ input.responses ∧
      normalizeDepthSnapshot symbol body tsEvent tsInit = .ok (id, deltas)

/-- The diffs for the symbol among the messages. -/
def Diffs (inputs : List Incoming) (symbol : String) (update : DepthUpdate) : Prop :=
  ∃ input ∈ inputs, input.diff? symbol = some update

/-- The ids of the snapshots of the symbol that the messages bring. -/
def Snapshots (inputs : List Incoming) (symbol : String) (id : ℕ) : Prop :=
  ∃ input ∈ inputs, input.Fetches symbol id

/-- Every book is trusted on the messages alone. -/
def TrustedOn (inputs : List Incoming) (r : DepthResyncer) : Prop :=
  ∀ symbol, Trusted (Diffs inputs symbol) (Snapshots inputs symbol) (r.books symbol)

/-- The diffs of the messages are consistent. -/
def ConsistentDiffs (inputs : List Incoming) : Prop :=
  ∀ input ∈ inputs, ∀ symbol, ∀ update ∈ input.diff? symbol, update.Consistent

theorem trusted_fetchWhileNeeded (symbol : String) (tsEvent tsInit : UnixNanos)
    (hconsistent : ∀ u, D u → u.Consistent) {responses : List (Option Json)}
    (hS : ∀ body id deltas, some body ∈ responses →
      normalizeDepthSnapshot symbol body tsEvent tsInit = .ok (id, deltas) → S id)
    (action : DepthAction) (deltas : List OrderBookDelta) (h : Trusted D S state) :
    Trusted D S (fetchWhileNeeded symbol tsEvent tsInit responses action deltas state).2 := by
  induction responses generalizing action deltas state with
  | nil => cases action <;> exact h
  | cons response rest ih =>
    cases action with
    | continue_ => exact h
    | needSnapshot =>
      simp only [fetchWhileNeeded]
      split
      · exact h
      · rename_i id sdeltas hfetch
        obtain ⟨body, rfl, hbody⟩ := Option.bind_eq_some_iff.mp hfetch
        have hread : normalizeDepthSnapshot symbol body tsEvent tsInit = .ok (id, sdeltas) := by
          cases hn : normalizeDepthSnapshot symbol body tsEvent tsInit <;> rw [hn] at hbody
          · cases hbody
          · exact congrArg _ (Option.some.inj hbody)
        have hsnapshot := BookState.trusted_onSnapshot hconsistent h
          (hS body id sdeltas List.mem_cons_self hread)
        exact ih (fun body id deltas hmem ↦ hS body id deltas (List.mem_cons_of_mem _ hmem))
          _ sdeltas hsnapshot

theorem diff?_eq_some_iff {data : Json} (hdepth : input.depth? = some data) {update : DepthUpdate} :
    input.diff? symbol = some update ↔ strField data "s" = .ok symbol ∧
      ∃ deltas, normalizeDepth data (msToNanos input.tsInitMs) = .ok (update, deltas) := by
  rw [strField, orError_eq_ok_iff]
  simp only [Incoming.diff?, hdepth, bind, Option.bind_some]
  cases hread : normalizeDepth data (msToNanos input.tsInitMs) with
  | error e => simp [Except.toOption]
  | ok x =>
    obtain ⟨u, deltas⟩ := x
    simp only [Except.toOption, Option.bind_some, Option.ite_none_right_eq_some, Option.some.injEq,
      Except.ok.injEq, Prod.mk.injEq]
    exact and_congr_right fun _ ↦ ⟨fun h ↦ ⟨deltas, h, rfl⟩, fun ⟨_, h, _⟩ ↦ h⟩

theorem TrustedOn.append {inputs : List Incoming} (h : TrustedOn inputs r) (l : List Incoming) :
    TrustedOn (inputs ++ l) r := fun symbol ↦ (h symbol).mono
  (fun _ ⟨i, hi, hu⟩ ↦ ⟨i, List.mem_append_left l hi, hu⟩)
  (fun _ ⟨i, hi, hid⟩ ↦ ⟨i, List.mem_append_left l hi, hid⟩)

/-- What depth data does to a book that is trusted on the messages before. -/
theorem TrustedOn.processDepth {inputs : List Incoming} {data : Json}
    (h : TrustedOn inputs r) (hconsistent : ConsistentDiffs (inputs ++ [input]))
    (hdepth : input.depth? = some data) :
    let out := processDepth data (msToNanos input.tsInitMs) input.responses r
    TrustedOn (inputs ++ [input]) out.2 ∧
      ∀ symbol update, input.diff? symbol = some update → out.1 ≠ [] →
        Grounded (Diffs (inputs ++ [input]) symbol) (Snapshots (inputs ++ [input]) symbol)
          (out.2.books symbol).book.lastUpdateId := by
  have hold := h.append [input]
  have hlast : input ∈ inputs ++ [input] := List.mem_append_right _ (List.mem_singleton_self input)
  have hdiffs (symbol : String) (u : DepthUpdate) (hu : Diffs (inputs ++ [input]) symbol u) :
      u.Consistent := by
    obtain ⟨i, hi, hu⟩ := hu
    exact hconsistent i hi symbol u hu
  simp only [Binance.processDepth]
  split
  · rename_i update deltas symbol hread hsymbol
    have hdiff : input.diff? symbol = some update :=
      (diff?_eq_some_iff hdepth).mpr ⟨hsymbol, deltas, hread⟩
    have hfed := BookState.trusted_onDiff (hdiffs symbol) (hold symbol) ⟨input, hlast, hdiff⟩
    have hfetched (tsEvent : UnixNanos) := trusted_fetchWhileNeeded symbol tsEvent
      (msToNanos input.tsInitMs) (hdiffs symbol)
      (fun body id deltas hbody hsnapshot ↦
        ⟨input, hlast, ⟨update, hdiff⟩, body, _, _, deltas, hbody, hsnapshot⟩)
      ((r.books symbol).onDiff update).1 [] hfed
    generalize hout : fetchWhileNeeded symbol _ _ input.responses _ [] _ = out
    replace hfetched := hout ▸ hfetched _
    refine ⟨fun other ↦ ?_, fun other u hu hne ↦ ?_⟩
    · by_cases hother : other = symbol
      · rw [hother, DepthResyncer.books_set_self]
        exact hfetched
      · rw [DepthResyncer.books_set_of_ne _ hother]
        exact hold other
    · -- the data is of one symbol, and its book is synced if deltas are emitted
      obtain ⟨hother, -⟩ := (diff?_eq_some_iff hdepth).mp hu
      obtain rfl : symbol = other := Except.ok.inj (hsymbol.symm.trans hother)
      rw [DepthResyncer.books_set_self]
      refine hfetched.grounded fun hbook ↦ hne ?_
      rw [hbook]
      cases out.1 <;> rfl
  · exact ⟨hold, fun _ _ _ hne ↦ absurd rfl hne⟩

/-- **Step lemma.** A message leaves every book trusted, on this message and those before it, and
deltas are emitted only for a book that is grounded. -/
theorem TrustedOn.text {inputs : List Incoming} (h : TrustedOn inputs r)
    (hconsistent : ConsistentDiffs (inputs ++ [input])) :
    TrustedOn (inputs ++ [input]) (processFrame input r).2 ∧
      ∀ symbol update, input.diff? symbol = some update → (processFrame input r).1 ≠ [] →
        Grounded (Diffs (inputs ++ [input]) symbol) (Snapshots (inputs ++ [input]) symbol)
          ((processFrame input r).2.books symbol).book.lastUpdateId := by
  cases hdepth : input.depth? with
  | none =>
    obtain ⟨hr, -⟩ := processFrame_of_depth?_eq_none (r := r) hdepth
    rw [hr]
    refine ⟨h.append [input], fun symbol update hdiff ↦ ?_⟩
    simp [Incoming.diff?, hdepth] at hdiff
  | some data =>
    obtain ⟨htrusted, hemits⟩ := h.processDepth hconsistent hdepth
    rw [processFrame_of_depth? hdepth]
    refine ⟨htrusted, fun symbol update hdiff hne ↦ hemits symbol update hdiff fun hnil ↦ hne ?_⟩
    rw [hnil]
    rfl

end Process

/-! ## The pump behind the client -/

section Pump

variable [DecimalText] [DecimalWidth]

/-- What the pump makes of a message of the client. -/
def WsMessage.ofWs : Ws.WsMessage Incoming → WsMessage
  | .text input => .text input
  | .reconnected => .reconnected

/-- The pump after messages of the client. -/
def Pump.after (messages : List (Ws.WsMessage Incoming)) : Pump :=
  (messages.map WsMessage.ofWs).foldl Pump.step .new

theorem Pump.after_concat (messages : List (Ws.WsMessage Incoming)) (m : Ws.WsMessage Incoming) :
    Pump.after (messages ++ [m]) = (Pump.after messages).step (.ofWs m) := by
  rw [Pump.after, List.map_append, List.foldl_append]
  rfl

/-- The diffs of all text frames among the messages are consistent. -/
def ConsistentMessages (messages : List (Ws.WsMessage Incoming)) : Prop :=
  ∀ input, .text input ∈ messages → ∀ symbol, ∀ update ∈ input.diff? symbol, update.Consistent

/-- **Run lemma.** At any time every book is trusted on the frames since the last reconnect. -/
theorem trustedOn_after {messages : List (Ws.WsMessage Incoming)}
    (h : ConsistentMessages messages) :
    TrustedOn (Ws.textsSince messages) (Pump.after messages).resyncer := by
  induction messages using List.reverseRecOn with
  | nil => exact fun _ ↦ trusted_default _ _
  | append_singleton l m ih =>
    have hold := ih fun input hmem ↦ h input (List.mem_append_left _ hmem)
    rw [Ws.textsSince_concat, Pump.after_concat]
    cases m with
    | reconnected => exact fun _ ↦ trusted_default _ _
    | text t =>
      refine (hold.text fun input hmem ↦ h input ?_).1
      rcases List.mem_append.mp hmem with hmem | hmem
      · exact List.mem_append_left _ (Ws.mem_of_mem_textsSince hmem)
      · rw [List.mem_singleton.mp hmem]
        exact List.mem_append_right _ (List.mem_singleton_self _)

/-- **Nothing is carried over from one connection to the next.** In every run of the client, when a
depth frame that it has sent makes the pump emit deltas, the book of its symbol stands on a snapshot
that was fetched for a frame of the same connection, and every id from there to the book's last one
is in a diff that was read on that connection. -/
theorem emitted_grounded {cfg : Ws.WsConfig} {wakes : List (Ws.Wake Incoming)}
    {s : Ws.Task Incoming} (hrun : Ws.Task.runLoop cfg wakes = some s)
    {messages rest : List (Ws.WsMessage Incoming)} {input : Incoming}
    (hsent : s.sent = messages ++ .text input :: rest) (hconsistent : ConsistentMessages s.sent)
    {symbol : String} {update : DepthUpdate} (hdiff : input.diff? symbol = some update)
    (hemits : (processFrame input (Pump.after messages).resyncer).1 ≠ []) :
    ∃ before after, wakes = before ++ .item (.text input) :: after ∧
      Ws.messagesOf before = messages ∧
      Grounded (Diffs (Ws.heard before ++ [input]) symbol)
        (Snapshots (Ws.heard before ++ [input]) symbol)
        ((Pump.after (messages ++ [.text input])).resyncer.books symbol).book.lastUpdateId := by
  obtain ⟨before, after, hwakes, hmessages, hheard⟩ := Ws.exists_wake_of_sent hrun hsent
  refine ⟨before, after, hwakes, hmessages, ?_⟩
  have hmem (i : Incoming) (hi : .text i ∈ messages) : .text i ∈ s.sent := by
    rw [hsent]
    exact List.mem_append_left _ hi
  have hold := trustedOn_after fun i hi ↦ hconsistent i (hmem i hi)
  rw [hheard] at hold
  rw [Pump.after_concat]
  refine (hold.text fun i hi ↦ ?_).2 symbol update hdiff hemits
  rcases List.mem_append.mp hi with hi | hi
  · exact hconsistent i (hmem i (Ws.mem_of_mem_textsSince (hheard ▸ hi)))
  · rw [List.mem_singleton.mp hi]
    exact hconsistent input (by rw [hsent]; exact List.mem_append_right _ List.mem_cons_self)

end Pump

section Instances

open scoped RustDecimal PlainDecimal

/-- A connection that ends after one frame, and one that begins with the frame again. -/
def brokenWakes : List (Ws.Wake Incoming) :=
  [.connected, .item (.text (firstInput 101)), .accepted, .item .ended, .accepted, .elapsed,
    .connected, .item (.text (firstInput 101)), .accepted]

/-- The snapshot of the first connection is not used on the second. -/
theorem emitted_grounded_brokenWakes : ∃ before after,
    brokenWakes = before ++ .item (.text (firstInput 101)) :: after ∧
      Ws.messagesOf before = [.text (firstInput 101), .reconnected] ∧
      Grounded (Diffs (Ws.heard before ++ [firstInput 101]) "BTCUSDT")
        (Snapshots (Ws.heard before ++ [firstInput 101]) "BTCUSDT")
        ((Pump.after [.text (firstInput 101), .reconnected, .text (firstInput 101)]).resyncer.books
          "BTCUSDT").book.lastUpdateId := by
  have hdiff : (firstInput 101).diff? "BTCUSDT" = some ⟨100, 102, some 99⟩ := by decide
  have hdepth : (firstInput 101).depth? = some (depthData 100 102 99 [] []) :=
    depth?_depthInput _ _
  have hconsistent : ConsistentMessages
      [.text (firstInput 101), .reconnected, .text (firstInput 101)] := by
    intro input hinput symbol update hupdate
    obtain rfl : input = firstInput 101 := by simpa using hinput
    -- the frame has one diff
    obtain ⟨-, deltas, hread⟩ := (diff?_eq_some_iff hdepth).mp hdiff
    obtain ⟨-, deltas', hread'⟩ := (diff?_eq_some_iff hdepth).mp hupdate
    obtain ⟨rfl, -⟩ := Prod.mk.inj (Except.ok.inj (hread.symm.trans hread'))
    decide
  have hrun : Ws.Task.runLoop {} brokenWakes = some ⟨.next, 500,
      [.text (firstInput 101), .reconnected, .text (firstInput 101)], [500]⟩ := rfl
  exact emitted_grounded hrun rfl hconsistent hdiff (by decide +kernel)

end Instances

end Coinext.Binance
