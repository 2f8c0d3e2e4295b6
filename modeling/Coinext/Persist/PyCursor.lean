import Coinext.Persist.Store
import Coinext.Support.Run

/-!
# The Python sequence cursor

`SqliteSeqCursor.next` of the Python package reads the stored number in one statement, and writes
the next one in another, which opens the transaction. Callers of one database file, each a cursor
object with its own lock and connections, take turns between any two statements; the database lets
one of them write at a time.

The transaction covers the write and not the read. So two calls may read the same number, one after
the other write the same successor, and both return it. The numbers returned are distinct exactly
when every call, at its commit, still finds the number that it has read (`returned_nodup_iff`); its
commit is then the transaction of the Rust cursor (`next_of_fresh`).
-/

namespace Coinext

/-- A call of `next` that has read the stored number, and what it will store and return. -/
structure NextCall where
  ns : String
  nxt : ℕ

/-- A database file and the calls under way; every caller has one at most, because of its lock. -/
structure CursorFile (κ : Type) where
  /-- What is committed. -/
  cursor : SeqCursor
  calls : κ → Option NextCall
  /-- The caller that has written its row and not committed it yet. -/
  writer : Option κ
  /-- What the calls for each strategy have returned, in order; nothing reads it. -/
  returned : List (String × ℕ)

/-- A statement, a commit, or the end of a call by an exception or with its process. -/
inductive CursorAction (κ : Type) where
  | select (caller : κ) (ns : String)
  | insert (caller : κ)
  | commit (caller : κ)
  | fail (caller : κ)

namespace CursorFile

variable {κ : Type} [DecidableEq κ]

def start (cursor : SeqCursor) : CursorFile κ := ⟨cursor, fun _ ↦ none, none, []⟩

/-- One action; one that its caller has to wait for, or that is none of its next ones, does
nothing. -/
def step (s : CursorFile κ) : CursorAction κ → CursorFile κ
  | .select c ns => match s.calls c with
    | none => { s with calls := Function.update s.calls c (some ⟨ns, s.cursor.current ns + 1⟩) }
    | some _ => s
  | .insert c => match s.calls c, s.writer with
    | some _, none => { s with writer := some c }
    | _, _ => s
  | .commit c => match s.calls c with
    | some call =>
      if s.writer = some c then
        { cursor := ⟨s.cursor.counters.insert call.ns call.nxt⟩
          calls := Function.update s.calls c none
          writer := none
          returned := s.returned ++ [(call.ns, call.nxt)] }
      else s
    | none => s
  | .fail c =>
    { s with
      calls := Function.update s.calls c none
      writer := if s.writer = some c then none else s.writer }

/-- A call that commits still finds the number that it has read. -/
def Fresh (s : CursorFile κ) : CursorAction κ → Prop
  | .commit c => s.writer = some c → ∀ call, s.calls c = some call →
    call.nxt = s.cursor.current call.ns + 1
  | _ => True

/-- **What an action does.** It commits a call, or nothing is stored and returned, and only a call
that has just read is new. -/
theorem step_cases (s : CursorFile κ) (a : CursorAction κ) :
    (∃ c call, a = .commit c ∧ s.writer = some c ∧ s.calls c = some call
        ∧ step s a = ⟨⟨s.cursor.counters.insert call.ns call.nxt⟩,
          Function.update s.calls c none, none, s.returned ++ [(call.ns, call.nxt)]⟩)
      ∨ ((step s a).cursor = s.cursor ∧ (step s a).returned = s.returned
        ∧ (∀ c call, (step s a).calls c = some call →
          s.calls c = some call ∨ call.nxt = s.cursor.current call.ns + 1)
        ∧ Fresh s a) := by
  cases a with
  | select c ns =>
    refine .inr ?_
    simp only [step]
    split
    · refine ⟨rfl, rfl, fun c' call hcall ↦ ?_, trivial⟩
      dsimp only at hcall
      by_cases hc : c' = c
      · subst hc
        rw [Function.update_self] at hcall
        cases hcall
        exact .inr rfl
      · rw [Function.update_of_ne hc] at hcall
        exact .inl hcall
    · exact ⟨rfl, rfl, fun _ _ h ↦ .inl h, trivial⟩
  | insert c =>
    refine .inr ?_
    simp only [step]
    split <;> exact ⟨rfl, rfl, fun _ _ h ↦ .inl h, trivial⟩
  | commit c =>
    simp only [step]
    split
    · rename_i call hcall
      split_ifs with hwriter
      · exact .inl ⟨c, call, rfl, hwriter, hcall, rfl⟩
      · exact .inr ⟨rfl, rfl, fun _ _ h ↦ .inl h, fun h ↦ absurd h hwriter⟩
    · rename_i hcall
      refine .inr ⟨rfl, rfl, fun _ _ h ↦ .inl h, fun _ call h ↦ ?_⟩
      rw [hcall] at h
      cases h
  | fail c =>
    refine .inr ⟨rfl, rfl, fun c' call hcall ↦ .inl ?_, trivial⟩
    change Function.update s.calls c none c' = some call at hcall
    by_cases hc : c' = c
    · rw [hc, Function.update_self] at hcall
      cases hcall
    · rwa [Function.update_of_ne hc] at hcall

/-! ## Numbers that are still distinct -/

/-- The numbers returned are those after the first stored one up to the one stored now, and a call
under way has read one of these, or the first. -/
structure Counted (base : String → ℕ) (s : CursorFile κ) : Prop where
  returned : ∀ ns n, (ns, n) ∈ s.returned ↔ base ns < n ∧ n ≤ s.cursor.current ns
  calls : ∀ c call, s.calls c = some call →
    base call.ns < call.nxt ∧ call.nxt ≤ s.cursor.current call.ns + 1
  current : ∀ ns, base ns ≤ s.cursor.current ns

variable {base : String → ℕ} {s : CursorFile κ}

omit [DecidableEq κ] in
theorem Counted.notMem_iff (hs : Counted base s) {c : κ} {call : NextCall}
    (hcall : s.calls c = some call) :
    (call.ns, call.nxt) ∉ s.returned ↔ call.nxt = s.cursor.current call.ns + 1 := by
  obtain ⟨hbase, hle⟩ := hs.calls c call hcall
  rw [hs.returned]
  omega

theorem current_insert (cursor : SeqCursor) (ns : String) (n : ℕ) (other : String) :
    (SeqCursor.mk (cursor.counters.insert ns n)).current other
      = if other = ns then n else cursor.current other := by
  unfold SeqCursor.current
  split_ifs with hns
  · rw [hns, AList.lookup_insert, Option.getD_some]
  · rw [AList.lookup_insert_ne hns]

theorem counted_step (hs : s.returned.Nodup → Counted base s) (a : CursorAction κ) :
    (step s a).returned.Nodup → Counted base (step s a) := by
  intro hnodup
  rcases step_cases s a with ⟨c, call, rfl, -, hcall, heq⟩ | ⟨hcursor, hreturned, hcalls, -⟩
  · rw [heq] at hnodup ⊢
    obtain ⟨hbefore, -, hnew⟩ := List.nodup_append.mp hnodup
    have hcounted := hs hbefore
    have hnxt : call.nxt = s.cursor.current call.ns + 1 := by
      refine (hcounted.notMem_iff hcall).mp fun hmem ↦ ?_
      exact hnew _ hmem _ (List.mem_singleton_self _) rfl
    have hbase := hcounted.current call.ns
    refine ⟨fun ns n ↦ ?_, fun c' call' hcall' ↦ ?_, fun ns ↦ ?_⟩
    · have hold := hcounted.returned ns n
      rw [List.mem_append, hold, List.mem_singleton, Prod.mk.injEq, current_insert]
      split_ifs with hns
      · subst hns
        simp only [true_and]
        omega
      · simp only [hns, false_and, or_false]
    · dsimp only at hcall'
      by_cases hc : c' = c
      · rw [hc, Function.update_self] at hcall'
        cases hcall'
      · rw [Function.update_of_ne hc] at hcall'
        have hpending := hcounted.calls c' call' hcall'
        rw [current_insert]
        split_ifs with hns
        · rw [hns] at hpending ⊢
          omega
        · exact hpending
    · have hle := hcounted.current ns
      rw [current_insert]
      split_ifs with hns
      · subst hns
        omega
      · exact hle
  · rw [hreturned] at hnodup
    have hcounted := hs hnodup
    refine ⟨fun ns n ↦ ?_, fun c call hcall ↦ ?_, fun ns ↦ ?_⟩
    · rw [hreturned, hcursor]
      exact hcounted.returned ns n
    · rw [hcursor]
      rcases hcalls c call hcall with hold | hread
      · exact hcounted.calls c call hold
      · rw [hread]
        exact ⟨Nat.lt_succ_of_le (hcounted.current call.ns), le_rfl⟩
    · rw [hcursor]
      exact hcounted.current ns

/-- **Step.** Distinct numbers stay distinct exactly when the action is fresh. -/
theorem returned_nodup_step (hs : Counted base s) (hnodup : s.returned.Nodup) (a : CursorAction κ) :
    (step s a).returned.Nodup ↔ Fresh s a := by
  rcases step_cases s a with ⟨c, call, rfl, hwriter, hcall, heq⟩ | ⟨-, hreturned, -, hfresh⟩
  · have hiff : Fresh s (.commit c) ↔ (call.ns, call.nxt) ∉ s.returned := by
      rw [hs.notMem_iff hcall]
      refine ⟨fun h ↦ h hwriter call hcall, fun h _ call' hcall' ↦ ?_⟩
      rw [hcall] at hcall'
      cases hcall'
      exact h
    rw [hiff, heq, ← List.concat_eq_append, List.nodup_concat]
    exact and_iff_left hnodup
  · rw [hreturned]
    exact iff_of_true hnodup hfresh

/-! ## Whole runs -/

omit [DecidableEq κ] in
theorem counted_start (cursor : SeqCursor) :
    Counted cursor.current (start cursor : CursorFile κ) := by
  refine ⟨fun ns n ↦ ?_, fun c call hcall ↦ ?_, fun ns ↦ le_rfl⟩
  · exact iff_of_false List.not_mem_nil fun h ↦ absurd (h.1.trans_le h.2) (lt_irrefl _)
  · cases hcall

theorem nodup_of_step {a : CursorAction κ} (h : (step s a).returned.Nodup) :
    s.returned.Nodup := by
  rcases step_cases s a with ⟨c, call, -, -, -, heq⟩ | ⟨-, hreturned, -⟩
  · rw [heq] at h
    exact (List.nodup_append.mp h).1
  · rwa [hreturned] at h

/-- **Distinct numbers.** In a run of any callers on a database file, the numbers returned for each
strategy are distinct if and only if every commit is fresh. -/
theorem returned_nodup_iff (cursor : SeqCursor) (actions : List (CursorAction κ)) :
    (actions.foldl step (start cursor)).returned.Nodup
      ↔ Along step Fresh (start cursor) actions := by
  refine foldl_iff_along (I := fun s : CursorFile κ ↦ s.returned.Nodup)
    (J := fun s : CursorFile κ ↦ s.returned.Nodup → Counted cursor.current s) ?_ ?_ ?_ ?_ ?_
  · exact fun s a hs ↦ counted_step hs a
  · exact fun s a hs hnodup ↦ returned_nodup_step (hs hnodup) hnodup a
  · exact fun s a _ hnodup ↦ nodup_of_step hnodup
  · exact List.nodup_nil
  · exact fun _ ↦ counted_start cursor

omit [DecidableEq κ] in
theorem next_of_fresh {call : NextCall} (h : call.nxt = s.cursor.current call.ns + 1) :
    s.cursor.next call.ns false
      = (some call.nxt, ⟨s.cursor.counters.insert call.ns call.nxt⟩) := by
  rw [h]
  rfl

/-- Two callers that read before either commits return the same number. -/
theorem not_returned_nodup : ¬ ∀ (cursor : SeqCursor) (actions : List (CursorAction Bool)),
    (actions.foldl step (start cursor)).returned.Nodup := by
  intro h
  exact absurd (h .empty [.select true "s", .select false "s", .insert true, .commit true,
    .insert false, .commit false]) (by decide)

end CursorFile

end Coinext
