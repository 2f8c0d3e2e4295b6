import Coinext.Model.MarketData

/-!
# The book-gap metric

The ingest process counts jumps in the sequences of the deltas it hands on. A depth frame spans the
ids `U` to `u`, and its level changes are emitted as deltas with sequence `u`, so the tracker sees
the last id of a frame and not where the frame began. Two frames that follow each other without a
gap differ by the width of the second one, and a tracker that expects a difference of one takes
every wider frame for a gap. What it does not miss is a frame lost between two others: the ids on
both sides are then at least two apart.
-/

namespace Coinext

/-- The highest sequence seen of each instrument. -/
structure BookGapTracker where
  lastSeq : Map String ℕ

/-- Observe the sequence of one delta; `true` when there is a gap before it. Sequences are `u64`,
and the id after the last one of all is zero again. -/
def BookGapTracker.observe (t : BookGapTracker) (instrument : String) (sequence : ℕ) :
    Bool × BookGapTracker :=
  let gap := match t.lastSeq.lookup instrument with
    | some prev => decide (sequence > (prev + 1) % 2 ^ 64)
    | none => false
  let entry := (t.lastSeq.lookup instrument).getD 0
  (gap, ⟨t.lastSeq.insert instrument (if sequence ≥ entry then sequence else entry)⟩)

/-- The tracker of the sinks and the counter of its reports. The event log, the bar buffer and the
fan-out are elsewhere. -/
structure GapSinks where
  gapTracker : BookGapTracker
  bookGaps : ℕ

namespace GapSinks

/-- What `handle` does to the tracker and the counter. -/
def handle (s : GapSinks) : MarketEvent → GapSinks
  | .delta d =>
    let (gap, t) := s.gapTracker.observe d.instrumentId.display d.sequence
    ⟨t, if gap then s.bookGaps + 1 else s.bookGaps⟩
  | .quote _ | .trade _ | .bar _ => s

def handleAll (s : GapSinks) (evs : List MarketEvent) : GapSinks := evs.foldl handle s

/-- The highest sequence seen of an instrument. -/
def seen (s : GapSinks) (id : InstrumentId) : Option ℕ := s.gapTracker.lastSeq.lookup id.display

end GapSinks

/-! ## Depth streams -/

/-- A depth frame: the ids it spans, and the deltas of its level changes. -/
structure DepthFrame where
  first : ℕ
  last : ℕ
  deltas : List OrderBookDelta

/-- A frame of the instrument: its ids are in order and its deltas carry the last one. -/
structure DepthFrame.Of (id : InstrumentId) (f : DepthFrame) : Prop where
  first_le : f.first ≤ f.last
  emitted : ∀ d ∈ f.deltas, d.instrumentId = id ∧ d.sequence = f.last

/-- Each frame begins right after the one before it. -/
def GapFree (frames : List DepthFrame) : Prop :=
  frames.IsChain fun f g ↦ g.first = f.last + 1

/-- The events of a stream. -/
def depthEvents (frames : List DepthFrame) : List MarketEvent :=
  (frames.flatMap DepthFrame.deltas).map .delta

namespace GapSinks

variable {id : InstrumentId} {s : GapSinks}

/-- **One delta.** It is reported when the instrument has been seen and the sequence is above the id
that follows the highest seen. -/
theorem handle_delta (s : GapSinks) {d : OrderBookDelta} (hid : d.instrumentId = id) :
    (s.handle (.delta d)).seen id = some (max d.sequence ((s.seen id).getD 0)) ∧
      (s.handle (.delta d)).bookGaps
        = s.bookGaps + if ∃ p ∈ s.seen id, (p + 1) % 2 ^ 64 < d.sequence then 1 else 0 := by
  subst hid
  refine ⟨?_, ?_⟩
  · have hmax : ∀ m n : ℕ, (if m ≥ n then m else n) = max m n := fun m n ↦ by
      rw [max_def']
    rw [seen, handle, BookGapTracker.observe, AList.lookup_insert, hmax]
    rfl
  · unfold handle BookGapTracker.observe seen
    cases hseen : s.gapTracker.lastSeq.lookup d.instrumentId.display with
    | none => simp [hseen]
    | some p =>
      simp only [gt_iff_lt, decide_eq_true_eq, Option.mem_some_iff, exists_eq_left', hseen]
      split_ifs <;> rfl

theorem handleAll_append (s : GapSinks) (evs evs' : List MarketEvent) :
    s.handleAll (evs ++ evs') = (s.handleAll evs).handleAll evs' := List.foldl_append

theorem bookGaps_le_handleAll (s : GapSinks) (evs : List MarketEvent) :
    s.bookGaps ≤ (s.handleAll evs).bookGaps := by
  induction evs generalizing s with
  | nil => exact le_rfl
  | cons ev evs ih =>
    refine le_trans ?_ (ih (s.handle ev))
    cases ev with
    | delta d => exact (Nat.le_add_right _ _).trans_eq (handle_delta s rfl).2.symm
    | quote q => exact le_rfl
    | trade t => exact le_rfl
    | bar b => exact le_rfl

/-- Further deltas of a frame change nothing. -/
theorem handleAll_same {ds : List OrderBookDelta} {u : ℕ} (hu64 : u < 2 ^ 64 - 1)
    (hds : ∀ d ∈ ds, d.instrumentId = id ∧ d.sequence = u) (hseen : s.seen id = some u) :
    (s.handleAll (ds.map .delta)).seen id = some u ∧
      (s.handleAll (ds.map .delta)).bookGaps = s.bookGaps := by
  induction ds generalizing s with
  | nil => exact ⟨hseen, rfl⟩
  | cons d ds ih =>
    obtain ⟨hid, hu⟩ := hds d List.mem_cons_self
    obtain ⟨hseen', hgaps⟩ := s.handle_delta hid
    rw [hseen, Option.getD_some, hu, max_self] at hseen'
    have hnext : (u + 1) % 2 ^ 64 = u + 1 := Nat.mod_eq_of_lt (by omega)
    have hnone : ¬ ∃ p ∈ some u, (p + 1) % 2 ^ 64 < u := by
      rintro ⟨p, ⟨⟩, hlt⟩
      rw [hnext] at hlt
      omega
    rw [hseen, hu, if_neg hnone, add_zero] at hgaps
    obtain ⟨hend, hsame⟩ := ih (fun b hb ↦ hds b (List.mem_cons_of_mem d hb)) hseen'
    exact ⟨hend, hsame.trans hgaps⟩

/-- **One frame.** A frame with level changes that is not older than what has been seen is reported
once, if it ends more than one id after that. -/
theorem handleAll_frame {f : DepthFrame} (hf : f.Of id) (hu64 : f.last < 2 ^ 64 - 1)
    (hne : f.deltas ≠ []) (hle : ∀ p ∈ s.seen id, p ≤ f.last) :
    (s.handleAll (f.deltas.map .delta)).seen id = some f.last ∧
      (s.handleAll (f.deltas.map .delta)).bookGaps
        = s.bookGaps + if ∃ p ∈ s.seen id, p + 1 < f.last then 1 else 0 := by
  cases hds : f.deltas with
  | nil => exact absurd hds hne
  | cons d ds =>
    have hemitted := hf.emitted
    rw [hds] at hemitted
    obtain ⟨hid, hu⟩ := hemitted d List.mem_cons_self
    obtain ⟨hseen, hgaps⟩ := s.handle_delta hid
    have hmax : max f.last ((s.seen id).getD 0) = f.last := by
      cases hp : s.seen id with
      | none => exact max_eq_left (Nat.zero_le _)
      | some p => exact max_eq_left (hle p hp)
    have hnext : (∃ p ∈ s.seen id, (p + 1) % 2 ^ 64 < f.last)
        ↔ ∃ p ∈ s.seen id, p + 1 < f.last := by
      refine exists_congr fun p ↦ and_congr_right fun hp ↦ ?_
      have hple := hle p hp
      rw [Nat.mod_eq_of_lt (by omega)]
    rw [hu, hmax] at hseen
    rw [hu, if_congr hnext rfl rfl] at hgaps
    obtain ⟨hend, hsame⟩ := handleAll_same hu64
      (fun b hb ↦ hemitted b (List.mem_cons_of_mem d hb)) hseen
    exact ⟨hend, hsame.trans hgaps⟩

end GapSinks

/-! ## What is reported, and what is not -/

/-- The last ids of the frames that emit anything. -/
def emittedIds (frames : List DepthFrame) : List ℕ :=
  (frames.filter fun f ↦ f.deltas ≠ []).map DepthFrame.last

@[simp] theorem depthEvents_cons (f : DepthFrame) (frames : List DepthFrame) :
    depthEvents (f :: frames) = f.deltas.map .delta ++ depthEvents frames := List.map_append

theorem depthEvents_append (frames frames' : List DepthFrame) :
    depthEvents (frames ++ frames') = depthEvents frames ++ depthEvents frames' := by
  rw [depthEvents, List.flatMap_append, List.map_append]
  rfl

theorem emittedIds_cons_of_nil {f : DepthFrame} (h : f.deltas = []) (frames : List DepthFrame) :
    emittedIds (f :: frames) = emittedIds frames := by
  simp [emittedIds, h]

theorem emittedIds_cons_of_ne_nil {f : DepthFrame} (h : f.deltas ≠ []) (frames : List DepthFrame) :
    emittedIds (f :: frames) = f.last :: emittedIds frames := by
  simp [emittedIds, h]

namespace GapSinks

variable {id : InstrumentId} {s : GapSinks} {frames : List DepthFrame}

/-- Sequences that go up one by one are never reported. -/
theorem bookGaps_of_isChain (hframes : ∀ f ∈ frames, f.Of id)
    (hu64 : ∀ f ∈ frames, f.last < 2 ^ 64 - 1)
    (hchain : ((s.seen id).toList ++ emittedIds frames).IsChain fun m n ↦ n = m + 1) :
    (s.handleAll (depthEvents frames)).bookGaps = s.bookGaps := by
  induction frames generalizing s with
  | nil => rfl
  | cons f frames ih =>
    have hrest : ∀ g ∈ frames, g.Of id := fun g hg ↦ hframes g (List.mem_cons_of_mem f hg)
    have hrest64 : ∀ g ∈ frames, g.last < 2 ^ 64 - 1 :=
      fun g hg ↦ hu64 g (List.mem_cons_of_mem f hg)
    rw [depthEvents_cons, handleAll_append]
    by_cases hnil : f.deltas = []
    · rw [emittedIds_cons_of_nil hnil] at hchain
      rw [hnil]
      exact ih hrest hrest64 hchain
    · rw [emittedIds_cons_of_ne_nil hnil] at hchain
      have hnext : ∀ p ∈ s.seen id, f.last = p + 1 := by
        intro p hp
        rw [Option.mem_def.mp hp] at hchain
        exact (List.isChain_cons_cons.mp hchain).1
      obtain ⟨hseen, hgaps⟩ := handleAll_frame (hframes f List.mem_cons_self)
        (hu64 f List.mem_cons_self) hnil fun p hp ↦ (hnext p hp).ge.trans' (Nat.le_succ p)
      rw [if_neg fun ⟨p, hp, hlt⟩ ↦ (hnext p hp).not_gt hlt, add_zero] at hgaps
      rw [ih hrest hrest64, hgaps]
      rw [hseen]
      exact (List.isChain_append.mp hchain).2.1

/-- Deltas below a bound leave something below it behind. -/
theorem exists_seen_lt {ds : List OrderBookDelta} {n : ℕ}
    (hds : ∀ d ∈ ds, d.instrumentId = id ∧ d.sequence < n) (hseen : ∀ p ∈ s.seen id, p < n)
    (hne : ds ≠ [] ∨ (s.seen id).isSome) :
    ∃ p < n, (s.handleAll (ds.map .delta)).seen id = some p := by
  induction ds generalizing s with
  | nil =>
    obtain ⟨p, hp⟩ := Option.isSome_iff_exists.mp (hne.resolve_left (absurd rfl))
    exact ⟨p, hseen p hp, hp⟩
  | cons d ds ih =>
    obtain ⟨hid, hlt⟩ := hds d List.mem_cons_self
    have hseen' := (s.handle_delta hid).1
    refine ih (fun b hb ↦ hds b (List.mem_cons_of_mem d hb)) ?_ (.inr (by rw [hseen']; rfl))
    intro p hp
    rw [hseen', Option.mem_some_iff] at hp
    rw [← hp]
    refine max_lt hlt ?_
    cases hold : s.seen id with
    | none => exact (Nat.zero_le _).trans_lt hlt
    | some q => exact hseen q hold

/-- A jump over an id is reported. -/
theorem bookGaps_lt_of_jump {p n : ℕ} (hseen : s.seen id = some p) (hp : p < n)
    (hframes : ∀ f ∈ frames, f.Of id ∧ n < f.last) (hu64 : ∀ f ∈ frames, f.last < 2 ^ 64 - 1)
    (hne : ∃ f ∈ frames, f.deltas ≠ []) :
    s.bookGaps < (s.handleAll (depthEvents frames)).bookGaps := by
  induction frames with
  | nil =>
    obtain ⟨f, hf, -⟩ := hne
    cases hf
  | cons f frames ih =>
    rw [depthEvents_cons, handleAll_append]
    obtain ⟨hf, hlast⟩ := hframes f List.mem_cons_self
    by_cases hnil : f.deltas = []
    · rw [hnil]
      refine ih (fun g hg ↦ hframes g (List.mem_cons_of_mem f hg))
        (fun g hg ↦ hu64 g (List.mem_cons_of_mem f hg)) ?_
      obtain ⟨g, hg, hdeltas⟩ := hne
      rcases List.mem_cons.mp hg with rfl | hg
      · exact absurd hnil hdeltas
      · exact ⟨g, hg, hdeltas⟩
    · have hjump : p + 1 < f.last := lt_of_le_of_lt hp hlast
      have hgaps := (handleAll_frame hf (hu64 f List.mem_cons_self) hnil (s := s) fun q hq ↦ by
        rw [hseen, Option.mem_some_iff] at hq
        omega).2
      rw [hseen, if_pos ⟨p, rfl, hjump⟩] at hgaps
      exact (Nat.lt_of_lt_of_eq (Nat.lt_succ_self _) hgaps.symm).trans_le
        (bookGaps_le_handleAll _ _)

end GapSinks

theorem GapFree.lt_of_mem {id : InstrumentId} {f : DepthFrame} {frames : List DepthFrame}
    (hfree : GapFree (f :: frames)) (hframes : ∀ g ∈ frames, DepthFrame.Of id g) :
    ∀ g ∈ frames, f.last < g.first := by
  induction frames generalizing f with
  | nil => exact fun g hg ↦ absurd hg List.not_mem_nil
  | cons g frames ih =>
    obtain ⟨hnext, hrest⟩ := List.isChain_cons_cons.mp hfree
    have hfg : f.last < g.first := by omega
    intro h hh
    rcases List.mem_cons.mp hh with rfl | hh
    · exact hfg
    · have hgh := ih hrest (fun k hk ↦ hframes k (List.mem_cons_of_mem g hk)) h hh
      have hle := (hframes g List.mem_cons_self).first_le
      omega

theorem GapFree.split {id : InstrumentId} {f : DepthFrame} {front back : List DepthFrame}
    (hfree : GapFree (front ++ f :: back))
    (hframes : ∀ g ∈ front ++ f :: back, DepthFrame.Of id g) :
    (∀ g ∈ front, g.last < f.first) ∧ ∀ g ∈ back, f.last < g.first := by
  induction front with
  | nil =>
    exact ⟨fun g hg ↦ absurd hg List.not_mem_nil,
      hfree.lt_of_mem fun g hg ↦ hframes g (List.mem_cons_of_mem f hg)⟩
  | cons h front ih =>
    have hrest : ∀ g ∈ front ++ f :: back, DepthFrame.Of id g :=
      fun g hg ↦ hframes g (List.mem_cons_of_mem h hg)
    obtain ⟨hfront, hback⟩ := ih (List.IsChain.tail hfree) hrest
    refine ⟨fun g hg ↦ ?_, hback⟩
    rcases List.mem_cons.mp hg with rfl | hg
    · exact GapFree.lt_of_mem hfree hrest f (by simp)
    · exact hfront g hg

/-- **The book-gap metric.** Feed the deltas of a gap-free stream to sinks that have not seen its
instrument; the last id of all does not occur. Nothing is reported as long as the frames that emit
anything end one id apart, and a whole frame missing between two that emit something is reported. -/
theorem bookGaps_of_gapFree {id : InstrumentId} {frames : List DepthFrame} (s : GapSinks)
    (hnew : s.seen id = none) (hframes : ∀ f ∈ frames, DepthFrame.Of id f)
    (hu64 : ∀ f ∈ frames, f.last < 2 ^ 64 - 1) (hfree : GapFree frames) :
    ((emittedIds frames).IsChain (fun m n ↦ n = m + 1) →
        (s.handleAll (depthEvents frames)).bookGaps = s.bookGaps) ∧
      ∀ front f back, frames = front ++ f :: back → (∃ g ∈ front, g.deltas ≠ []) →
        (∃ g ∈ back, g.deltas ≠ []) →
        s.bookGaps < (s.handleAll (depthEvents (front ++ back))).bookGaps := by
  refine ⟨fun hchain ↦ GapSinks.bookGaps_of_isChain hframes hu64 (by rwa [hnew]), ?_⟩
  rintro front f back rfl ⟨g, hg, hdeltas⟩ hback
  obtain ⟨hbefore, hafter⟩ := hfree.split hframes
  have hle := (hframes f (by simp)).first_le
  rw [depthEvents_append, GapSinks.handleAll_append]
  have hne : front.flatMap DepthFrame.deltas ≠ [] := by
    intro hnil
    exact hdeltas (List.flatMap_eq_nil_iff.mp hnil g hg)
  have hbelow : ∀ d ∈ front.flatMap DepthFrame.deltas,
      d.instrumentId = id ∧ d.sequence < f.first := by
    intro d hd
    obtain ⟨h, hh, hd⟩ := List.mem_flatMap.mp hd
    obtain ⟨hid, hu⟩ := (hframes h (List.mem_append_left _ hh)).emitted d hd
    exact ⟨hid, hu ▸ hbefore h hh⟩
  obtain ⟨p, hp, hseen⟩ := GapSinks.exists_seen_lt (s := s) hbelow (by simp [hnew]) (.inl hne)
  refine (GapSinks.bookGaps_le_handleAll s _).trans_lt
    (GapSinks.bookGaps_lt_of_jump hseen hp (fun h hh ↦ ?_) (fun h hh ↦ ?_) hback)
  · have hof := hframes h (List.mem_append_right _ (List.mem_cons_of_mem f hh))
    exact ⟨hof, (hle.trans_lt (hafter h hh)).trans_le hof.first_le⟩
  · exact hu64 h (List.mem_append_right _ (List.mem_cons_of_mem f hh))

section Instances

/-- A frame of one level change. -/
def depthFrame (first last : ℕ) : DepthFrame where
  first := first
  last := last
  deltas := [{
    instrumentId := ⟨⟨"BTCUSDT"⟩, ⟨"BINANCE"⟩⟩
    action := .update
    side := .buy
    price := ⟨10000, 2⟩
    size := ⟨5, 3⟩
    sequence := last
    tsEvent := last
    tsInit := last }]

theorem depthFrame_of {first last : ℕ} (h : first ≤ last) :
    (depthFrame first last).Of ⟨⟨"BTCUSDT"⟩, ⟨"BINANCE"⟩⟩ :=
  ⟨h, fun d hd ↦ by rw [List.mem_singleton.mp hd]; exact ⟨rfl, rfl⟩⟩

/-- Sinks that have seen nothing. -/
def freshSinks : GapSinks := ⟨⟨∅⟩, 0⟩

/-- A first frame of three ids, then frames of one id each. -/
theorem bookGaps_of_gapFree_narrow :
    let frames := [depthFrame 1 3, depthFrame 4 4, depthFrame 5 5]
    ((emittedIds frames).IsChain (fun m n ↦ n = m + 1) →
        (freshSinks.handleAll (depthEvents frames)).bookGaps = freshSinks.bookGaps) ∧
      ∀ front f back, frames = front ++ f :: back → (∃ g ∈ front, g.deltas ≠ []) →
        (∃ g ∈ back, g.deltas ≠ []) →
        freshSinks.bookGaps < (freshSinks.handleAll (depthEvents (front ++ back))).bookGaps := by
  have hnew : freshSinks.seen ⟨⟨"BTCUSDT"⟩, ⟨"BINANCE"⟩⟩ = none := rfl
  refine bookGaps_of_gapFree freshSinks hnew ?_ (by decide) ?_
  · intro f hf
    simp only [List.mem_cons, List.not_mem_nil, or_false] at hf
    rcases hf with rfl | rfl | rfl <;> exact depthFrame_of (by decide)
  · simp [GapFree, depthFrame]

/-- A second frame of four ids is reported without a gap, and a last frame is not missed. -/
theorem not_bookGaps_wide :
    ¬(∀ (id : InstrumentId) (s : GapSinks) (frames : List DepthFrame), s.seen id = none →
        (∀ f ∈ frames, DepthFrame.Of id f) → GapFree frames →
        (s.handleAll (depthEvents frames)).bookGaps = s.bookGaps) ∧
      ¬(∀ (id : InstrumentId) (s : GapSinks) (frames : List DepthFrame), s.seen id = none →
        (∀ f ∈ frames, DepthFrame.Of id f) → GapFree frames →
        ∀ front f back, frames = front ++ f :: back →
          s.bookGaps < (s.handleAll (depthEvents (front ++ back))).bookGaps) := by
  have hframes : ∀ last, 2 ≤ last → ∀ f ∈ [depthFrame 1 1, depthFrame 2 last],
      f.Of ⟨⟨"BTCUSDT"⟩, ⟨"BINANCE"⟩⟩ := by
    intro last hlast f hf
    rcases List.mem_pair.mp hf with rfl | rfl
    · exact depthFrame_of le_rfl
    · exact depthFrame_of hlast
  have hfree : ∀ last, GapFree [depthFrame 1 1, depthFrame 2 last] := fun last ↦ by
    simp [GapFree, depthFrame]
  refine ⟨fun h ↦ ?_, fun h ↦ ?_⟩
  · have hquiet := h _ freshSinks _ rfl (hframes 5 (by decide)) (hfree 5)
    exact absurd hquiet (by decide)
  · have hloud := h _ freshSinks _ rfl (hframes 2 le_rfl) (hfree 2) [depthFrame 1 1]
      (depthFrame 2 2) [] rfl
    exact absurd hloud (by decide)

end Instances

end Coinext
