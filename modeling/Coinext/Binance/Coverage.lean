import Coinext.Binance.Book
import Coinext.Support.Run

/-!
# What gap detection lets through

The ids that a book has moved past since its snapshot ought to be ids it has seen. A book advances
in two ways, through the first diff after a snapshot or a gap and through one that continues the
last, and in both the diff it advances over starts no later than the id after the last one. So the
applied diffs cover everything from the snapshot on, whatever arrives: `Audit.Covered` is kept by
every call, with diffs missing, duplicated or out of order.
-/

namespace Coinext.Binance

/-- The ids of a diff are in order, and its predecessor ends right before it. -/
structure DepthUpdate.Consistent (update : DepthUpdate) : Prop where
  first_le : update.firstUpdateId ≤ update.lastUpdateId
  prev_succ : ∀ pu ∈ update.prevUpdateId, pu + 1 = update.firstUpdateId

instance (update : DepthUpdate) : Decidable update.Consistent :=
  decidable_of_iff (update.firstUpdateId ≤ update.lastUpdateId ∧
      ∀ pu ∈ update.prevUpdateId, pu + 1 = update.firstUpdateId)
    ⟨fun h ↦ ⟨h.1, h.2⟩, fun h ↦ ⟨h.1, h.2⟩⟩

/-- A call on the book. -/
inductive BookCall where
  | installSnapshot (snapshotLastId : ℕ)
  | applyDiff (update : DepthUpdate)

/-- The diff of the call, if it brings one, is consistent. -/
def BookCall.Consistent : BookCall → Prop
  | installSnapshot _ => True
  | applyDiff update => update.Consistent

instance : DecidablePred BookCall.Consistent
  | .installSnapshot _ => inferInstanceAs (Decidable True)
  | .applyDiff update => inferInstanceAs (Decidable update.Consistent)

/-- A book, the id of the snapshot installed last, and the diffs that returned `applied` since. -/
structure Audit where
  book : LocalOrderBook
  snapshot : ℕ
  applied : List DepthUpdate

namespace Audit

/-- A fresh book stands at id zero. -/
def new : Audit := ⟨LocalOrderBook.new, 0, []⟩

def after (a : Audit) : BookCall → Audit
  | .installSnapshot snapshotLastId => ⟨a.book.installSnapshot snapshotLastId, snapshotLastId, []⟩
  | .applyDiff update =>
    let (outcome, book) := a.book.applyDiff update
    ⟨book, a.snapshot, if outcome = .applied then a.applied ++ [update] else a.applied⟩

end Audit

namespace LocalOrderBook

variable {book : LocalOrderBook} {update : DepthUpdate}

/-- **What a diff does.** Either the book advances over it, without leaving out an id, or the last
id stays. -/
theorem applyDiff_cases (book : LocalOrderBook) {update : DepthUpdate} (h : update.Consistent) :
    (book.applyDiff update).1 = .applied ∧ update.firstUpdateId ≤ book.lastUpdateId + 1 ∧
        book.lastUpdateId < update.lastUpdateId ∧
        (book.applyDiff update).2.lastUpdateId = update.lastUpdateId ∨
      (book.applyDiff update).1 ≠ .applied ∧
        (book.applyDiff update).2.lastUpdateId = book.lastUpdateId := by
  by_cases hstale : update.lastUpdateId ≤ book.lastUpdateId
  · rw [applyDiff, if_pos hstale]
    exact .inr ⟨by simp, rfl⟩
  · rw [applyDiff, if_neg hstale]
    have hnew := not_le.mp hstale
    by_cases hsynced : book.synced = true
    · rw [if_pos hsynced]
      by_cases hnext : checkNext update book.lastUpdateId = true
      · rw [if_pos hnext]
        refine .inl ⟨rfl, ?_, hnew, rfl⟩
        unfold checkNext at hnext
        cases hprev : update.prevUpdateId with
        | none =>
          rw [hprev] at hnext
          exact (of_decide_eq_true hnext).le
        | some pu =>
          rw [hprev] at hnext
          rw [← h.prev_succ pu hprev, of_decide_eq_true hnext]
      · rw [if_neg hnext]
        exact .inr ⟨by simp, rfl⟩
    · rw [if_neg hsynced]
      by_cases hfirst : checkFirst update book.lastUpdateId = true
      · rw [if_pos hfirst]
        exact .inl ⟨rfl, (of_decide_eq_true hfirst).1, hnew, rfl⟩
      · rw [if_neg hfirst]
        exact .inr ⟨by simp, rfl⟩

theorem le_lastUpdateId_applyDiff (book : LocalOrderBook) (update : DepthUpdate) :
    book.lastUpdateId ≤ (book.applyDiff update).2.lastUpdateId := by
  unfold applyDiff
  split_ifs with hstale
  · exact le_rfl
  · exact (not_le.mp hstale).le
  · exact le_rfl
  · exact (not_le.mp hstale).le
  · exact le_rfl

theorem lastUpdateId_of_not_applied (h : (book.applyDiff update).1 ≠ .applied) :
    (book.applyDiff update).2.lastUpdateId = book.lastUpdateId := by
  unfold applyDiff at h ⊢
  split_ifs at h ⊢
  · rfl
  · exact absurd rfl h
  · rfl
  · exact absurd rfl h
  · rfl

end LocalOrderBook

/-- Every id since the snapshot, up to the last one, is in a diff that was applied since then. -/
def Audit.Covered (a : Audit) : Prop :=
  ∀ id, a.snapshot < id → id ≤ a.book.lastUpdateId →
    ∃ update ∈ a.applied, update.firstUpdateId ≤ id ∧ id ≤ update.lastUpdateId

/-- **What gap detection promises.** -/
structure Audited (a : Audit) : Prop where
  covered : a.Covered
  /-- No diffs take the last id back. -/
  monotone : ∀ updates : List DepthUpdate, a.book.lastUpdateId ≤
    (updates.foldl (fun book update ↦ (book.applyDiff update).2) a.book).lastUpdateId
  /-- A diff that is skipped or forces a resync leaves the last id alone. -/
  unchanged : ∀ update, (a.book.applyDiff update).1 = .skipped ∨
    (a.book.applyDiff update).1 = .resync →
    (a.book.applyDiff update).2.lastUpdateId = a.book.lastUpdateId

/-- **One call.** -/
theorem Audit.Covered.after {a : Audit} (h : a.Covered) {call : BookCall}
    (hcall : call.Consistent) : (a.after call).Covered := by
  cases call with
  | installSnapshot snapshotLastId =>
    intro id hlow hhigh
    exact absurd hhigh (not_le.mpr hlow)
  | applyDiff update =>
    intro id hlow hhigh
    rcases a.book.applyDiff_cases hcall with ⟨happlied, hfirst, -, hlast⟩ | ⟨hnot, hlast⟩
    · have hdiffs : (a.after (.applyDiff update)).applied = a.applied ++ [update] := if_pos happlied
      have hend : (a.after (.applyDiff update)).book.lastUpdateId = update.lastUpdateId := hlast
      rw [hend] at hhigh
      rw [hdiffs]
      rcases le_or_gt id a.book.lastUpdateId with hold | hnew
      · obtain ⟨u, hu, hspan⟩ := h id hlow hold
        exact ⟨u, List.mem_append_left _ hu, hspan⟩
      · exact ⟨update, List.mem_append_right _ (List.mem_singleton_self _),
          hfirst.trans hnew, hhigh⟩
    · have hdiffs : (a.after (.applyDiff update)).applied = a.applied := if_neg hnot
      have hend : (a.after (.applyDiff update)).book.lastUpdateId = a.book.lastUpdateId := hlast
      rw [hend] at hhigh
      rw [hdiffs]
      exact h id hlow hhigh

theorem Audit.Covered.audited {a : Audit} (h : a.Covered) : Audited a where
  covered := h
  monotone updates := by
    generalize a.book = book
    induction updates generalizing book with
    | nil => exact le_rfl
    | cons update updates ih => exact (book.le_lastUpdateId_applyDiff update).trans (ih _)
  unchanged update houtcome := by
    refine LocalOrderBook.lastUpdateId_of_not_applied fun happlied ↦ ?_
    rcases houtcome with h' | h' <;> rw [happlied] at h' <;> cases h'

/-- **Gap detection is complete.** After any calls with consistent diffs, in whatever order. -/
theorem audited_of_consistent {calls : List BookCall}
    (hcalls : ∀ call ∈ calls, call.Consistent) :
    Audited (calls.foldl Audit.after Audit.new) := by
  have hnew : Audit.new.Covered := fun id hlow hhigh ↦ absurd hhigh (not_le.mpr hlow)
  have hrun : Along Audit.after (fun _ call ↦ call.Consistent) Audit.new calls :=
    along_of_forall_mem hcalls
  exact (hrun.induction (fun _ _ h hcall ↦ h.after hcall) hnew).audited

/-- A snapshot, its bridge, the next diff twice, one after a gap, and a late one. -/
def gapCalls : List BookCall :=
  [.installSnapshot 100, .applyDiff ⟨99, 105, none⟩, .applyDiff ⟨106, 110, some 105⟩,
    .applyDiff ⟨106, 110, some 105⟩, .applyDiff ⟨115, 120, some 114⟩,
    .applyDiff ⟨111, 114, some 110⟩]

theorem audited_gapCalls : Audited (gapCalls.foldl Audit.after Audit.new) :=
  audited_of_consistent (by decide)

end Coinext.Binance
