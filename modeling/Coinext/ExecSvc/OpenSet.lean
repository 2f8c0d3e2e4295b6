import Coinext.ExecSvc.Venue
import Mathlib.Algebra.Order.BigOperators.Group.List

/-!
# The open set and the venue's truth

The reports a venue sends for an order end with at most one that closes it. Handling a prefix of
them, the log says the order is open exactly when its last event does, and every report is noted as
an event that decides. So whether the log is right depends on the last report alone: it is wrong
after a fill that leaves part of the order open, which is noted as `Filled`, and after an expiry,
which is noted as `Submitted`, and right after every other report (`open_iff_not_closed_iff`).
-/

namespace Coinext.ExecSvc

/-- Handle reports one after the other, each at the time it is published. -/
def pump [Rendering] (store : SqliteEventStore) (reports : List (ExecutionReport × UnixNanos)) :
    SqliteEventStore :=
  reports.foldl (fun store r ↦ (publishVenueReport store r.2 r.1).1) store

/-- The quantity filled by the fills among the reports. -/
def filledTotal (reports : List ExecutionReport) : Decimal :=
  ((reports.filterMap ExecutionReport.fill?).map fun f ↦ f.lastQty.asDecimal).sum

/-- A report after which the venue sends no other for the order: the rest of the quantity is filled,
or the order is canceled, rejected or expired. -/
inductive Closes (id : ClientOrderId) (qty : Quantity) (filled : Decimal) : ExecutionReport → Prop
  | fill {f : Fill} (hid : f.clientOrderId = id)
      (hrest : filled + f.lastQty.asDecimal = qty.asDecimal) : Closes id qty filled (.fill f)
  | canceled : Closes id qty filled (.canceled id)
  | rejected (reason : Reason) : Closes id qty filled (.rejected id reason)
  | expired : Closes id qty filled (.expired id)

/-- The reports a venue can send for an order: an acceptance, partial fills, and at most one report
that closes the order. -/
def VenueSends (id : ClientOrderId) (qty : Quantity) (reports : List ExecutionReport) : Prop :=
  ∃ (venueOrderId : VenueOrderId) (partials : List Fill) (last : Option ExecutionReport),
    reports = (.accepted id venueOrderId :: partials.map .fill) ++ last.toList
      ∧ (∀ f ∈ partials, f.clientOrderId = id)
      ∧ filledTotal (partials.map .fill) < qty.asDecimal
      ∧ ∀ r ∈ last, Closes id qty (filledTotal (partials.map .fill)) r

/-- The reports hold one that closes the order, or fills of its whole quantity. -/
def Closed (qty : Quantity) (reports : List ExecutionReport) : Prop :=
  (∃ r ∈ reports, match r with
    | .canceled _ | .rejected .. | .expired _ => True
    | _ => False) ∨ filledTotal reports = qty.asDecimal

/-- The last report handled is not one after which the log is wrong. Before the first report, the
order has been noted as submitted. -/
def LastSound (store : SqliteEventStore) (id : ClientOrderId) (qty : Quantity)
    (reports : List ExecutionReport) : Prop :=
  match reports.getLast? with
  | none => id ∈ localOpenClientIds store
  | some (.fill _) => filledTotal reports = qty.asDecimal
  | some (.expired _) => False
  | some _ => True

/-! ## Fills -/

theorem filledTotal_append (rs rs' : List ExecutionReport) :
    filledTotal (rs ++ rs') = filledTotal rs + filledTotal rs' := by
  simp [filledTotal, List.filterMap_append]

theorem filledTotal_nonneg (rs : List ExecutionReport) : 0 ≤ filledTotal rs := by
  refine List.sum_nonneg fun d hd ↦ ?_
  obtain ⟨f, -, rfl⟩ := List.mem_map.mp hd
  exact f.lastQty.asDecimal_nonneg

theorem filledTotal_le_of_initial {rs rs' : List ExecutionReport} (h : rs <+: rs') :
    filledTotal rs ≤ filledTotal rs' := by
  obtain ⟨t, rfl⟩ := h
  rw [filledTotal_append]
  exact le_add_of_nonneg_right (filledTotal_nonneg t)

theorem filledTotal_accepted (id : ClientOrderId) (v : VenueOrderId)
    (rs : List ExecutionReport) : filledTotal (.accepted id v :: rs) = filledTotal rs := by
  rw [filledTotal, filledTotal, List.filterMap_cons_none rfl]

/-! ## The open set behind the last report -/

/-- Behind at least one report, the last decides. -/
theorem mem_localOpen_pump [Rendering] (store : SqliteEventStore)
    (rs : List (ExecutionReport × UnixNanos)) (r : ExecutionReport) (now : UnixNanos) :
    r.clientOrderId ∈ localOpenClientIds (pump store (rs ++ [(r, now)])) ↔ match r with
      | .fill _ | .canceled _ | .rejected .. => False
      | _ => True := by
  have hpump : (pump store (rs ++ [(r, now)])).replay r.clientOrderId
      = (pump store rs).replay r.clientOrderId ++ [reportEvent now r] := by
    simp [pump, List.foldl_append, publishVenueReport, SqliteEventStore.replay_append]
  rw [mem_localOpenClientIds, hpump, isOpen_append, opens_reportEvent, Option.getD_some]
  cases r <;> simp

theorem lastSound_concat (store : SqliteEventStore) (id : ClientOrderId) (qty : Quantity)
    (rs : List ExecutionReport) (r : ExecutionReport) :
    LastSound store id qty (rs ++ [r]) ↔ match r with
      | .fill _ => filledTotal (rs ++ [r]) = qty.asDecimal
      | .expired _ => False
      | _ => True := by
  rw [LastSound, List.getLast?_concat]
  cases r <;> rfl

/-- While the reports are the acceptance and partial fills, nothing is closed. -/
theorem not_closed_of_initial {qty : Quantity} {rs : List ExecutionReport} (id : ClientOrderId)
    (v : VenueOrderId) (partials : List Fill)
    (hless : filledTotal (partials.map .fill) < qty.asDecimal)
    (h : rs <+: .accepted id v :: partials.map .fill) :
    ¬ Closed qty rs ∧ filledTotal rs ≠ qty.asDecimal := by
  have htotal : filledTotal rs < qty.asDecimal := by
    calc filledTotal rs ≤ filledTotal (.accepted id v :: partials.map .fill) :=
          filledTotal_le_of_initial h
      _ = filledTotal (partials.map .fill) := filledTotal_accepted id v _
      _ < qty.asDecimal := hless
  refine ⟨?_, htotal.ne⟩
  rintro (⟨r, hr, hclosing⟩ | hfull)
  · rcases List.mem_cons.mp (h.subset hr) with rfl | hr
    · exact hclosing
    · obtain ⟨f, -, rfl⟩ := List.mem_map.mp hr
      exact hclosing
  · exact htotal.ne hfull

/-- Behind the acceptance or a partial fill. -/
theorem open_iff_of_initial [Rendering] {id : ClientOrderId} {qty : Quantity} {v : VenueOrderId}
    {partials : List Fill} {front : List (ExecutionReport × UnixNanos)} {r : ExecutionReport}
    (store : SqliteEventStore) (now : UnixNanos) (hids : ∀ f ∈ partials, f.clientOrderId = id)
    (hless : filledTotal (partials.map .fill) < qty.asDecimal)
    (h : front.map Prod.fst ++ [r] <+: .accepted id v :: partials.map .fill) :
    (id ∈ localOpenClientIds (pump store (front ++ [(r, now)]))
        ↔ ¬ Closed qty (front.map Prod.fst ++ [r]))
      ↔ LastSound store id qty (front.map Prod.fst ++ [r]) := by
  obtain ⟨hopen, hpart⟩ := not_closed_of_initial id v partials hless h
  have hlocal := mem_localOpen_pump store front r now
  have hr : r ∈ ExecutionReport.accepted id v :: partials.map .fill := h.subset (by simp)
  rw [lastSound_concat]
  rcases List.mem_cons.mp hr with rfl | hr
  · exact iff_of_true (iff_of_true (hlocal.mpr trivial) hopen) trivial
  · obtain ⟨f, hf, rfl⟩ := List.mem_map.mp hr
    -- the fill is noted as the last one, though the order is still open
    rw [ExecutionReport.clientOrderId, hids f hf] at hlocal
    exact iff_of_false (fun heq ↦ hlocal.mp (heq.mpr hopen)) hpart

/-- Behind the report that closes the order. -/
theorem open_iff_of_closes [Rendering] {id : ClientOrderId} {qty : Quantity} {r : ExecutionReport}
    {front : List (ExecutionReport × UnixNanos)} (store : SqliteEventStore) (now : UnixNanos)
    (h : Closes id qty (filledTotal (front.map Prod.fst)) r) :
    (id ∈ localOpenClientIds (pump store (front ++ [(r, now)]))
        ↔ ¬ Closed qty (front.map Prod.fst ++ [r]))
      ↔ LastSound store id qty (front.map Prod.fst ++ [r]) := by
  have hlocal := mem_localOpen_pump store front r now
  have hlast : r ∈ front.map Prod.fst ++ [r] := by simp
  rw [lastSound_concat]
  cases h with
  | fill hid hrest =>
    rename_i f
    have hfull : filledTotal (front.map Prod.fst ++ [.fill f]) = qty.asDecimal := by
      rw [filledTotal_append, ← hrest]
      simp [filledTotal, ExecutionReport.fill?]
    rw [ExecutionReport.clientOrderId, hid] at hlocal
    exact iff_of_true (iff_of_false hlocal.mp (not_not.mpr (.inr hfull))) hfull
  | canceled =>
    exact iff_of_true (iff_of_false hlocal.mp (not_not.mpr (.inl ⟨_, hlast, trivial⟩))) trivial
  | rejected reason =>
    exact iff_of_true (iff_of_false hlocal.mp (not_not.mpr (.inl ⟨_, hlast, trivial⟩))) trivial
  | expired =>
    -- the expiry is noted as a submit
    exact iff_of_false (fun heq ↦ heq.mp (hlocal.mpr trivial) (.inl ⟨_, hlast, trivial⟩)) not_false

/-- **The open set and the venue's truth.** Behind a prefix of what the venue sends for an order,
the log has the order open exactly when no report has closed it, if and only if the last report is
neither a fill that leaves part of the order open nor an expiry. -/
theorem open_iff_not_closed_iff [Rendering] {id : ClientOrderId} {qty : Quantity}
    {reports handled : List (ExecutionReport × UnixNanos)} (store : SqliteEventStore)
    (hsends : VenueSends id qty (reports.map Prod.fst)) (hinitial : handled <+: reports) :
    (id ∈ localOpenClientIds (pump store handled) ↔ ¬ Closed qty (handled.map Prod.fst))
      ↔ LastSound store id qty (handled.map Prod.fst) := by
  obtain ⟨v, partials, last, hreports, hids, hless, hlast⟩ := hsends
  have hfst : handled.map Prod.fst <+: (.accepted id v :: partials.map .fill) ++ last.toList := by
    rw [← hreports]
    exact hinitial.map _
  rcases List.eq_nil_or_concat handled with rfl | ⟨front, ⟨r, now⟩, rfl⟩
  · -- nothing handled yet, and nothing closed
    have hopen := (not_closed_of_initial id v partials hless List.nil_prefix).1
    simp [LastSound, pump, hopen]
  · rw [List.concat_eq_append, List.map_append, List.map_singleton] at hfst ⊢
    cases last with
    | none => exact open_iff_of_initial store now hids hless (by simpa using hfst)
    | some l =>
      rw [Option.toList_some, List.prefix_concat_iff] at hfst
      rcases hfst with heq | hfst
      · obtain ⟨hfront, hr⟩ := List.append_inj' heq rfl
        cases hr
        refine open_iff_of_closes store now ?_
        rw [hfront, filledTotal_accepted]
        exact hlast _ rfl
      · exact open_iff_of_initial store now hids hless hfst

/-! ## An order of two units -/

section Instances

open scoped BlankText

/-- A fill of one unit of the order `a`. -/
def oneUnitFill (tradeId : String) : Fill where
  tradeId := ⟨tradeId⟩
  clientOrderId := ⟨"a"⟩
  venueOrderId := ⟨"7"⟩
  instrumentId := ⟨⟨"BTCUSDT"⟩, ⟨"BINANCE"⟩⟩
  side := .buy
  lastPx := ⟨5, 0⟩
  lastQty := ⟨1, 0⟩
  fee := ⟨0, ⟨"USDT", 8, eight_le_maxPrecision⟩⟩
  liquidity := .taker
  tsEvent := 0
  tsInit := 0

/-- The log of the order `a` after its submit. -/
def submittedStore : SqliteEventStore :=
  SqliteEventStore.empty.append ⟨"s"⟩ ⟨"a"⟩ (.submitted 0) 0

/-- The order is accepted and filled in two parts. -/
def twoFills : List (ExecutionReport × UnixNanos) :=
  [(.accepted ⟨"a"⟩ ⟨"7"⟩, 1), (.fill (oneUnitFill "t1"), 2), (.fill (oneUnitFill "t2"), 3)]

theorem venueSends_twoFills : VenueSends ⟨"a"⟩ ⟨2, 0⟩ (twoFills.map Prod.fst) := by
  refine ⟨⟨"7"⟩, [oneUnitFill "t1"], some (.fill (oneUnitFill "t2")), rfl, by decide, ?_, ?_⟩
  · with_unfolding_all decide
  · rintro r ⟨⟩
    exact .fill rfl (by with_unfolding_all decide)

/-- Behind both fills the log is right. -/
theorem closed_of_twoFills :
    ⟨"a"⟩ ∉ localOpenClientIds (pump submittedStore twoFills)
      ∧ Closed ⟨2, 0⟩ (twoFills.map Prod.fst) := by
  have hfull : filledTotal (twoFills.map Prod.fst) = (⟨2, 0⟩ : Quantity).asDecimal := by
    with_unfolding_all decide
  have hclosed : Closed ⟨2, 0⟩ (twoFills.map Prod.fst) := .inr hfull
  have hiff := (open_iff_not_closed_iff submittedStore venueSends_twoFills
    (List.prefix_refl _)).mpr hfull
  exact ⟨fun hopen ↦ hiff.mp hopen hclosed, hclosed⟩

/-- Behind the first fill the log has the order closed, and half of it is still open. -/
theorem not_open_of_partial_fill :
    ¬ ∀ (store : SqliteEventStore) (id : ClientOrderId) (qty : Quantity)
        (reports handled : List (ExecutionReport × UnixNanos)), id ∈ localOpenClientIds store →
      VenueSends id qty (reports.map Prod.fst) → handled <+: reports →
      (id ∈ localOpenClientIds (pump store handled) ↔ ¬ Closed qty (handled.map Prod.fst)) := by
  intro h
  have hopen : ¬ Closed ⟨2, 0⟩ ((twoFills.take 2).map Prod.fst) := by
    refine (not_closed_of_initial ⟨"a"⟩ ⟨"7"⟩ [oneUnitFill "t1"] ?_ ?_).1
    · with_unfolding_all decide
    · exact List.prefix_refl _
  have hlocal : (⟨"a"⟩ : ClientOrderId) ∈ localOpenClientIds submittedStore := by
    rw [mem_localOpenClientIds]
    with_unfolding_all decide
  have hmem := (h submittedStore ⟨"a"⟩ ⟨2, 0⟩ twoFills (twoFills.take 2) hlocal venueSends_twoFills
    (List.take_prefix 2 _)).mpr hopen
  exact (mem_localOpen_pump submittedStore [(.accepted ⟨"a"⟩ ⟨"7"⟩, 1)]
    (.fill (oneUnitFill "t1")) 2).mp hmem

end Instances

end Coinext.ExecSvc
