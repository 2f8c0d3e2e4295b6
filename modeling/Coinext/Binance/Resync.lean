import Coinext.Binance.Depth

/-!
# What the resyncer can do

A diff makes the book of its symbol wait for a snapshot, is old, or continues the book. A snapshot
that is fetched meanwhile is bridged by the diffs that wait, or is not.

Two cases lose levels. A snapshot that no waiting diff bridges is installed, but its deltas are
dropped, and the next frame that bridges it is emitted alone; `BridgeOk` excludes this. And when a
request fails, the frame waits in the buffer, from where a later snapshot replays its ids, but not
its deltas; `ReplayOk` excludes that.
-/

namespace Coinext.Binance

/-! ## The conditions -/

/-- The diff does not bridge a snapshot that was installed for an earlier frame. -/
def BridgeOk (state : BookState) (update : DepthUpdate) : Prop :=
  ¬ (state.awaitingSnapshot = false ∧ state.book.synced = false ∧ state.book.lastUpdateId ≠ 0 ∧
    checkFirst update state.book.lastUpdateId = true)

/-- Each diff is old or continues the one before it. -/
def Contiguous : ℕ → List DepthUpdate → Prop
  | _, [] => True
  | last, w :: l => if w.lastUpdateId ≤ last then Contiguous last l
    else checkNext w last = true ∧ Contiguous w.lastUpdateId l

/-- The diffs that are newer than the snapshot bridge it without a gap. -/
def Bridges (id : ℕ) (l : List DepthUpdate) : Prop :=
  match l.filter fun w ↦ id < w.lastUpdateId with
  | [] => False
  | w :: rest => checkFirst w id = true ∧ Contiguous w.lastUpdateId rest

instance : ∀ last l, Decidable (Contiguous last l)
  | _, [] => isTrue trivial
  | last, w :: l =>
    have := instDecidableContiguous last l
    have := instDecidableContiguous w.lastUpdateId l
    inferInstanceAs (Decidable (if w.lastUpdateId ≤ last then Contiguous last l
      else checkNext w last = true ∧ Contiguous w.lastUpdateId l))

instance (id : ℕ) (l : List DepthUpdate) : Decidable (Bridges id l) :=
  match h : l.filter fun w ↦ id < w.lastUpdateId with
  | [] => isFalse fun hb ↦ by simp [Bridges, h] at hb
  | w :: rest => decidable_of_iff (checkFirst w id = true ∧ Contiguous w.lastUpdateId rest)
      (by simp [Bridges, h])

/-- If the diffs that waited for the snapshot bridge it together with this one, none of them but
this one is newer than the snapshot. -/
def ReplayOk (state : BookState) (update : DepthUpdate) (id : ℕ) : Prop :=
  state.awaitingSnapshot = true → Bridges id (state.buffer ++ [update]) →
    ∀ w ∈ state.buffer, w.lastUpdateId ≤ id ∨ w = update

/-! ## What the resyncer can do -/

namespace BookState

variable {state : BookState} {update : DepthUpdate}

/-- Diffs are kept only while a snapshot is awaited, and then the book is not synced. -/
structure Tidy (state : BookState) : Prop where
  buffer_eq : state.awaitingSnapshot = false → state.buffer = []
  not_synced : state.awaitingSnapshot = true → state.book.synced = false

theorem tidy_default : Tidy {} := ⟨fun _ ↦ rfl, fun h ↦ (by cases h)⟩

/-- A diff makes the book wait for a snapshot, is old, or continues a synced book. -/
theorem onDiff_cases (h : state.Tidy) (hok : BridgeOk state update) :
    (∃ book waiting, state.onDiff update = (.needSnapshot, ⟨book, waiting ++ [update], true⟩) ∧
        book.synced = false ∧
        (waiting = [] ∨ state.awaitingSnapshot = true ∧ waiting = state.buffer)) ∨
      (state.onDiff update = (.continue_, state) ∧
        update.lastUpdateId ≤ state.book.lastUpdateId) ∨
      (state.onDiff update = (.continue_, { state with book := ⟨update.lastUpdateId, true⟩ }) ∧
        state.book.synced = true ∧ state.book.lastUpdateId < update.lastUpdateId ∧
        checkNext update state.book.lastUpdateId = true) := by
  unfold onDiff
  by_cases hawait : state.awaitingSnapshot = true
  · rw [if_pos hawait]
    exact .inl ⟨state.book, state.buffer, by rw [← hawait], h.not_synced hawait,
      .inr ⟨hawait, rfl⟩⟩
  have hidle : state.awaitingSnapshot = false := by simpa using hawait
  rw [if_neg hawait]
  by_cases hfresh : state.book.synced = false ∧ state.book.lastUpdateId = 0
  · rw [if_pos hfresh]
    refine .inl ⟨state.book, [], ?_, hfresh.1, .inl rfl⟩
    rw [h.buffer_eq hidle]
  rw [if_neg hfresh]
  unfold LocalOrderBook.applyDiff
  by_cases hold : update.lastUpdateId ≤ state.book.lastUpdateId
  · rw [if_pos hold]
    exact .inr (.inl ⟨rfl, hold⟩)
  rw [if_neg hold]
  by_cases hsynced : state.book.synced = true
  · rw [if_pos hsynced]
    by_cases hnext : checkNext update state.book.lastUpdateId = true
    · rw [if_pos hnext]
      refine .inr (.inr ⟨?_, hsynced, not_le.mp hold, hnext⟩)
      simp only [hsynced]
    · rw [if_neg hnext]
      exact .inl ⟨_, [], rfl, rfl, .inl rfl⟩
  · have hunsynced : state.book.synced = false := by simpa using hsynced
    rw [if_neg hsynced, if_neg fun hfirst ↦
      hok ⟨hidle, hunsynced, fun hzero ↦ hfresh ⟨hunsynced, hzero⟩, hfirst⟩]
    exact .inl ⟨_, [], rfl, hunsynced, .inl rfl⟩

/-! ### Replaying the buffer -/

variable {l : List DepthUpdate} {id last : ℕ} {book book' : LocalOrderBook}

theorem replay_cons_of_stale (h : update.lastUpdateId ≤ id) :
    replay id (update :: l) book = replay id l book := if_pos h

theorem replay_cons_of_newer (h : ¬ update.lastUpdateId ≤ id) :
    replay id (update :: l) book = match book.applyDiff update with
      | (.resync, book') => (.needSnapshot, book')
      | (_, book') => replay id l book' := if_neg h

theorem synced_of_replay_needSnapshot (h : replay id l book = (.needSnapshot, book')) :
    book'.synced = false := by
  induction l generalizing book with
  | nil => cases h
  | cons w l ih =>
    by_cases hstale : w.lastUpdateId ≤ id
    · rw [replay_cons_of_stale hstale] at h
      exact ih h
    · rw [replay_cons_of_newer hstale, LocalOrderBook.applyDiff] at h
      split_ifs at h with hold hsynced hnext hfirst
      · exact ih h
      · exact ih h
      · cases h
        rfl
      · exact ih h
      · cases h
        simpa using hsynced

theorem contiguous_of_replay (hid : id ≤ last)
    (h : replay id l ⟨last, true⟩ = (.continue_, book')) :
    Contiguous last (l.filter fun w ↦ id < w.lastUpdateId) := by
  induction l generalizing last with
  | nil => exact trivial
  | cons w l ih =>
    by_cases hstale : w.lastUpdateId ≤ id
    · rw [replay_cons_of_stale hstale] at h
      rw [List.filter_cons_of_neg (by simpa using hstale)]
      exact ih hid h
    · rw [replay_cons_of_newer hstale, LocalOrderBook.applyDiff_of_synced] at h
      rw [List.filter_cons_of_pos (by simpa using hstale), Contiguous]
      split_ifs at h ⊢ with hold hnext
      · exact ih hid h
      · exact ⟨hnext, ih (hid.trans (not_le.mp hold).le) h⟩
      · cases h

theorem bridges_of_replay (h : replay id l ⟨id, false⟩ = (.continue_, book'))
    (hsynced : book'.synced = true) : Bridges id l := by
  induction l with
  | nil =>
    cases h
    cases hsynced
  | cons w l ih =>
    by_cases hstale : w.lastUpdateId ≤ id
    · rw [replay_cons_of_stale hstale] at h
      rw [Bridges, List.filter_cons_of_neg (by simpa using hstale)]
      exact ih h
    · rw [replay_cons_of_newer hstale, LocalOrderBook.applyDiff_of_not_synced, if_neg hstale] at h
      rw [Bridges, List.filter_cons_of_pos (by simpa using hstale)]
      split_ifs at h with hfirst
      · exact ⟨hfirst, contiguous_of_replay (not_le.mp hstale).le h⟩
      · cases h

theorem replay_of_only (hl : ∀ w ∈ l, w.lastUpdateId ≤ id ∨ w = update)
    (h : replay id l ⟨id, false⟩ = (.continue_, book')) (hsynced : book'.synced = true) :
    book' = ⟨update.lastUpdateId, true⟩ ∧ checkFirst update id = true := by
  -- once it is applied, the rest is old
  have hrest : ∀ l : List DepthUpdate, (∀ w ∈ l, w.lastUpdateId ≤ id ∨ w = update) →
      replay id l ⟨update.lastUpdateId, true⟩ = (.continue_, ⟨update.lastUpdateId, true⟩) := by
    intro l hl
    induction l with
    | nil => rfl
    | cons w l ih =>
      have ih' := ih fun x hx ↦ hl x (List.mem_cons_of_mem w hx)
      by_cases hstale : w.lastUpdateId ≤ id
      · rw [replay_cons_of_stale hstale]
        exact ih'
      · obtain rfl := (hl w List.mem_cons_self).resolve_left hstale
        rw [replay_cons_of_newer hstale, LocalOrderBook.applyDiff_of_synced, if_pos le_rfl]
        exact ih'
  induction l with
  | nil =>
    cases h
    cases hsynced
  | cons w l ih =>
    have htail : ∀ x ∈ l, x.lastUpdateId ≤ id ∨ x = update :=
      fun x hx ↦ hl x (List.mem_cons_of_mem w hx)
    by_cases hstale : w.lastUpdateId ≤ id
    · rw [replay_cons_of_stale hstale] at h
      exact ih htail h
    · obtain rfl := (hl w List.mem_cons_self).resolve_left hstale
      rw [replay_cons_of_newer hstale, LocalOrderBook.applyDiff_of_not_synced, if_neg hstale] at h
      split_ifs at h with hfirst
      · have hdone := (hrest l htail).symm.trans h
        cases hdone
        exact ⟨rfl, hfirst⟩
      · cases h

end BookState

/-! ### Fetching snapshots -/

section Fetch

variable [DecimalText] [DecimalWidth] {symbol : String} {tsEvent tsInit : UnixNanos}
  {update : DepthUpdate} {waiting : List DepthUpdate} {book : LocalOrderBook}

theorem fetchWhileNeeded_continue (responses : List (Option Json)) (deltas : List OrderBookDelta)
    (state : BookState) : fetchWhileNeeded symbol tsEvent tsInit responses .continue_ deltas state
      = (some deltas, state) := by
  cases responses <;> rfl

theorem fetchWhileNeeded_of_no_buffer (responses : List (Option Json))
    (deltas : List OrderBookDelta) (hbook : book.synced = false) :
    let out :=
      fetchWhileNeeded symbol tsEvent tsInit responses .needSnapshot deltas ⟨book, [], true⟩
    out.2.book.synced = false ∧ out.2.Tidy := by
  cases responses with
  | nil => exact ⟨hbook, fun _ ↦ rfl, fun _ ↦ hbook⟩
  | cons response rest =>
    simp only [fetchWhileNeeded]
    split
    · exact ⟨hbook, fun _ ↦ rfl, fun _ ↦ hbook⟩
    · simp only [BookState.onSnapshot, BookState.replay, fetchWhileNeeded]
      exact ⟨rfl, fun _ ↦ rfl, fun _ ↦ rfl⟩

/-- Fetching ends with the frame bridging the snapshot, or with a book that is not synced. -/
theorem fetchWhileNeeded_cases (symbol : String) (tsEvent tsInit : UnixNanos)
    (responses : List (Option Json)) (hbook : book.synced = false)
    (hok : ∀ body rest id, responses = some body :: rest →
      body.getU64 "lastUpdateId" = some id → Bridges id (waiting ++ [update]) →
      ∀ w ∈ waiting, w.lastUpdateId ≤ id ∨ w = update) :
    let out := fetchWhileNeeded symbol tsEvent tsInit responses .needSnapshot []
      ⟨book, waiting ++ [update], true⟩
    (∃ body id deltas, some body ∈ responses ∧
        normalizeDepthSnapshot symbol body tsEvent tsInit = .ok (id, deltas) ∧
        checkFirst update id = true ∧
        out = (some deltas, ⟨⟨update.lastUpdateId, true⟩, [], false⟩)) ∨
      (out.2.book.synced = false ∧ out.2.Tidy) := by
  have htidy : BookState.Tidy ⟨book, waiting ++ [update], true⟩ :=
    ⟨fun h ↦ (by cases h), fun _ ↦ hbook⟩
  cases responses with
  | nil => exact .inr ⟨hbook, htidy⟩
  | cons response rest =>
    simp only [fetchWhileNeeded]
    split
    · exact .inr ⟨hbook, htidy⟩
    · rename_i id deltas hfetch
      obtain ⟨body, rfl, hbody⟩ := Option.bind_eq_some_iff.mp hfetch
      have hread : normalizeDepthSnapshot symbol body tsEvent tsInit = .ok (id, deltas) := by
        cases hn : normalizeDepthSnapshot symbol body tsEvent tsInit <;> rw [hn] at hbody
        · cases hbody
        · exact congrArg _ (Option.some.inj hbody)
      have hid : body.getU64 "lastUpdateId" = some id := by
        rw [normalizeDepthSnapshot, Except.bind_eq_ok_iff] at hread
        obtain ⟨id', hid', hread⟩ := hread
        simp only [Except.bind_eq_ok_iff] at hread
        obtain ⟨_, -, _, -, hread⟩ := hread
        cases hread
        exact orError_eq_ok_iff.mp hid'
      simp only [BookState.onSnapshot, LocalOrderBook.installSnapshot]
      rcases hreplay : BookState.replay id (waiting ++ [update]) ⟨id, false⟩ with ⟨action, book'⟩
      cases action with
      | needSnapshot =>
        exact .inr (fetchWhileNeeded_of_no_buffer rest deltas
          (BookState.synced_of_replay_needSnapshot hreplay))
      | continue_ =>
        simp only [fetchWhileNeeded]
        by_cases hsynced : book'.synced = true
        · left
          have hbridges := BookState.bridges_of_replay hreplay hsynced
          have hwaiting := hok body rest id rfl hid hbridges
          have honly : ∀ w ∈ waiting ++ [update], w.lastUpdateId ≤ id ∨ w = update := fun w hw ↦ by
            rcases List.mem_append.mp hw with hw | hw
            · exact hwaiting w hw
            · exact .inr (List.mem_singleton.mp hw)
          obtain ⟨rfl, hfirst⟩ := BookState.replay_of_only honly hreplay hsynced
          exact ⟨body, id, deltas, List.mem_cons_self, hread, hfirst, rfl⟩
        · right
          have hunsynced : book'.synced = false := by simpa using hsynced
          exact ⟨hunsynced, fun _ ↦ rfl, fun _ ↦ hunsynced⟩

end Fetch

end Coinext.Binance
