import Coinext.Support.Run

/-!
# Logs by the day

`logOf step new s l` collects what the actions of a run add to a log. Entries that are stamped by a
clock are in order, since the clock never runs backwards.

For a log of pairs of a day and a value, `closes` keeps the last entry of each day. Going back day
by day from a given one finds the last of them (`lookBack_eq_lastWithin`).
-/

namespace Coinext

section LogOf

variable {σ α β : Type}

/-- What the actions of a run add to a log, in order. -/
def logOf (step : σ → α → σ) (new : σ → α → List β) : σ → List α → List β
  | _, [] => []
  | s, a :: l => new s a ++ logOf step new (step s a) l

variable {step : σ → α → σ} {new : σ → α → List β} {ok : σ → α → Prop} {s : σ} {l : List α}

theorem logOf_concat (a : α) :
    logOf step new s (l ++ [a]) = logOf step new s l ++ new (l.foldl step s) a := by
  induction l generalizing s with
  | nil => exact (List.append_nil _).trans (List.nil_append _).symm
  | cons b l ih => rw [List.cons_append, logOf, ih, logOf, List.append_assoc, List.foldl_cons]

theorem le_key_of_mem_logOf {t : σ → ℕ} {key : β → ℕ} (hrun : Along step ok s l)
    (hmono : ∀ s a, t s ≤ t (step s a)) (hnew : ∀ s a, ok s a → ∀ e ∈ new s a, key e = t s)
    {e : β} (he : e ∈ logOf step new s l) : t s ≤ key e := by
  induction l generalizing s with
  | nil => cases he
  | cons a l ih =>
    rcases List.mem_append.mp he with hnow | hlater
    · exact (hnew s a hrun.1 e hnow).ge
    · exact (hmono s a).trans (ih hrun.2 hlater)

theorem pairwise_logOf {t : σ → ℕ} {key : β → ℕ} (hrun : Along step ok s l)
    (hmono : ∀ s a, t s ≤ t (step s a)) (hnew : ∀ s a, ok s a → ∀ e ∈ new s a, key e = t s) :
    (logOf step new s l).Pairwise fun e e' ↦ key e ≤ key e' := by
  induction l generalizing s with
  | nil => exact .nil
  | cons a l ih =>
    refine List.pairwise_append.mpr ⟨?_, ih hrun.2, fun e he e' he' ↦ ?_⟩
    · refine List.pairwise_of_forall_mem_list fun e he e' he' ↦ ?_
      rw [hnew s a hrun.1 e he, hnew s a hrun.1 e' he']
    · rw [hnew s a hrun.1 e he]
      exact (hmono s a).trans (le_key_of_mem_logOf hrun.2 hmono hnew he')

end LogOf

section Daily

variable {δ : Type}

/-- The last value of a day that meets `p`. -/
def lastWith (p : ℕ → Prop) [DecidablePred p] (l : List (ℕ × δ)) : Option δ :=
  ((l.filter fun e ↦ p e.1).getLast?).map Prod.snd

/-- The last value of a day. -/
def lastOn (l : List (ℕ × δ)) (day : ℕ) : Option δ := lastWith (fun d ↦ d = day) l

/-- The last value of the `n` days before `day`. -/
def lastWithin (n day : ℕ) (l : List (ℕ × δ)) : Option δ :=
  lastWith (fun d ↦ d < day ∧ day ≤ d + n) l

section LastWith

variable {p : ℕ → Prop} [DecidablePred p]

theorem lastWith_append (l l' : List (ℕ × δ)) :
    lastWith p (l ++ l') = (lastWith p l').or (lastWith p l) := by
  unfold lastWith
  rw [List.filter_append, List.getLast?_append]
  cases (l'.filter fun e ↦ p e.1).getLast? <;> rfl

theorem lastWith_singleton (e : ℕ × δ) : lastWith p [e] = if p e.1 then some e.2 else none := by
  unfold lastWith
  split_ifs with h <;> simp [h]

theorem lastWith_cons (e : ℕ × δ) (l : List (ℕ × δ)) :
    lastWith p (e :: l) = (lastWith p l).or (if p e.1 then some e.2 else none) := by
  rw [← List.singleton_append, lastWith_append, lastWith_singleton]

theorem lastWith_eq_none_iff {l : List (ℕ × δ)} : lastWith p l = none ↔ ∀ e ∈ l, ¬ p e.1 := by
  simp [lastWith]

end LastWith

/-- The entries that no later entry of their day replaces. -/
def closes : List (ℕ × δ) → List (ℕ × δ)
  | [] => []
  | e :: l => if l.any fun e' ↦ e'.1 = e.1 then closes l else e :: closes l

theorem closes_sublist (l : List (ℕ × δ)) : (closes l).Sublist l := by
  induction l with
  | nil => exact .slnil
  | cons e l ih =>
    unfold closes
    split_ifs
    · exact ih.cons e
    · exact ih.cons_cons e

theorem pairwise_closes {l : List (ℕ × δ)} (h : l.Pairwise fun e e' ↦ e.1 ≤ e'.1) :
    (closes l).Pairwise fun e e' ↦ e.1 < e'.1 := by
  induction l with
  | nil => exact .nil
  | cons e l ih =>
    obtain ⟨hfirst, htail⟩ := List.pairwise_cons.mp h
    unfold closes
    split_ifs with hlater
    · exact ih htail
    · refine List.pairwise_cons.mpr ⟨fun e' he' ↦ ?_, ih htail⟩
      have hmem : e' ∈ l := (closes_sublist l).subset he'
      refine lt_of_le_of_ne (hfirst e' hmem) fun heq ↦ hlater ?_
      exact List.any_eq_true.mpr ⟨e', hmem, by simpa using heq.symm⟩

theorem any_day_iff {l : List (ℕ × δ)} {day : ℕ} :
    (l.any fun e ↦ e.1 = day) = true ↔ lastOn l day ≠ none := by
  rw [ne_eq, lastOn, lastWith_eq_none_iff]
  simp

theorem lastOn_eq_some_iff {l : List (ℕ × δ)} {day : ℕ} {v : δ} :
    lastOn l day = some v ↔ (day, v) ∈ closes l := by
  induction l with
  | nil => simp [lastOn, lastWith, closes]
  | cons e l ih =>
    rw [lastOn, lastWith_cons, ← lastOn, closes]
    split_ifs with hday hany
    · -- the first entry is of the day, and replaced
      subst hday
      obtain ⟨w, hw⟩ := Option.ne_none_iff_exists'.mp (any_day_iff.mp hany)
      rw [hw, Option.some_or, ← ih, hw]
    · subst hday
      have hnone : lastOn l e.1 = none := by
        by_contra h
        exact hany (any_day_iff.mpr h)
      have hnot : (e.1, v) ∉ closes l := fun h ↦ by
        rw [ih.mpr h] at hnone
        cases hnone
      rw [hnone, Option.none_or, List.mem_cons, or_iff_left hnot, Option.some.injEq, Prod.ext_iff]
      exact ⟨fun h ↦ ⟨rfl, h.symm⟩, fun h ↦ h.2.symm⟩
    · rw [Option.or_none, ih]
    · rw [Option.or_none, ih, List.mem_cons]
      refine (or_iff_right fun h ↦ hday ?_).symm
      exact (congrArg Prod.fst h).symm

theorem lastWith_closes (p : ℕ → Prop) [DecidablePred p] (l : List (ℕ × δ)) :
    lastWith p (closes l) = lastWith p l := by
  induction l with
  | nil => rfl
  | cons e l ih =>
    rw [lastWith_cons, closes]
    split_ifs with hany hp
    · -- there is a later value of a day that meets the condition
      have hne : lastWith p l ≠ none := fun hnone ↦ by
        obtain ⟨e', he', hday⟩ := List.any_eq_true.mp hany
        rw [decide_eq_true_eq] at hday
        exact lastWith_eq_none_iff.mp hnone e' he' (hday ▸ hp)
      obtain ⟨v, hv⟩ := Option.ne_none_iff_exists'.mp hne
      rw [ih, hv, Option.some_or]
    · rw [ih, Option.or_none]
    · rw [lastWith_cons, ih, if_pos ‹_›]
    · rw [lastWith_cons, ih, if_neg ‹_›]

/-- The first value that is found on the `n` days before `day`, the latest day first. -/
def lookBack (n day : ℕ) (f : ℕ → Option δ) : Option δ :=
  (List.range' 1 n).findSome? fun back ↦ if day < back then none else f (day - back)

theorem lookBack_eq_none_iff {n day : ℕ} {f : ℕ → Option δ} :
    lookBack n day f = none ↔ ∀ d < day, day ≤ d + n → f d = none := by
  unfold lookBack
  rw [List.findSome?_eq_none_iff]
  constructor
  · intro h d hlt hle
    have hback := h (day - d) (List.mem_range'_1.mpr (by omega))
    rw [if_neg (by omega), Nat.sub_sub_self hlt.le] at hback
    exact hback
  · intro h back hback
    rw [List.mem_range'_1] at hback
    split_ifs with hlt
    · rfl
    · exact h _ (by omega) (by omega)

theorem lookBack_congr {n day : ℕ} {f g : ℕ → Option δ} (h : ∀ d < day, f d = g d) :
    lookBack n day f = lookBack n day g := by
  unfold lookBack
  have hsome : ∀ back ∈ List.range' 1 n, (if day < back then none else f (day - back))
      = if day < back then none else g (day - back) := by
    intro back hback
    rw [List.mem_range'_1] at hback
    split_ifs
    · rfl
    · exact h _ (by omega)
  generalize List.range' 1 n = backs at hsome
  induction backs with
  | nil => rfl
  | cons back l ih =>
    rw [List.findSome?_cons, List.findSome?_cons, hsome back List.mem_cons_self,
      ih fun b hb ↦ hsome b (List.mem_cons_of_mem back hb)]

/-- The latest day on which something is found decides. -/
theorem lookBack_eq_of_latest {n day d : ℕ} {f : ℕ → Option δ} {v : δ} (hlt : d < day)
    (hle : day ≤ d + n) (hv : f d = some v) (hlatest : ∀ d', d < d' → d' < day → f d' = none) :
    lookBack n day f = some v := by
  have hsplit : List.range' 1 n
      = List.range' 1 (day - d - 1) ++ (day - d) :: List.range' (day - d + 1) (n - (day - d)) := by
    obtain ⟨m, rfl⟩ : ∃ m, day = d + (m + 1) := ⟨day - d - 1, by omega⟩
    obtain ⟨r, rfl⟩ : ∃ r, n = m + (r + 1) := ⟨n - m - 1, by omega⟩
    have hm : d + (m + 1) - d = 1 + m := by omega
    rw [hm, Nat.add_sub_cancel_left, show m + (r + 1) - (1 + m) = r by omega, ← List.range'_succ,
      List.range'_append_1]
  unfold lookBack
  rw [List.findSome?_eq_some_iff]
  refine ⟨_, _, _, hsplit, ?_, fun back hback ↦ ?_⟩
  · rw [if_neg (by omega), Nat.sub_sub_self hlt.le]
    exact hv
  · rw [List.mem_range'_1] at hback
    split_ifs
    · rfl
    · exact hlatest _ (by omega) (by omega)

/-- **Going back day by day finds the last value.** -/
theorem lookBack_eq_lastWithin {l : List (ℕ × δ)} (hsorted : l.Pairwise fun e e' ↦ e.1 < e'.1)
    {f : ℕ → Option δ} (hf : ∀ day v, f day = some v ↔ (day, v) ∈ l) (n day : ℕ) :
    lookBack n day f = lastWithin n day l := by
  have hmem (e : ℕ × δ) : e ∈ (l.filter fun e ↦ e.1 < day ∧ day ≤ e.1 + n)
      ↔ e ∈ l ∧ e.1 < day ∧ day ≤ e.1 + n := by
    simp [List.mem_filter]
  unfold lastWithin lastWith
  rcases List.eq_nil_or_concat (l.filter fun e ↦ e.1 < day ∧ day ≤ e.1 + n)
    with hnil | ⟨init, e, hlast⟩
  · rw [hnil]
    refine lookBack_eq_none_iff.mpr fun d hlt hle ↦ ?_
    refine Option.eq_none_iff_forall_ne_some.mpr fun v hv ↦ ?_
    have hin := (hmem (d, v)).mpr ⟨(hf d v).mp hv, hlt, hle⟩
    rw [hnil] at hin
    cases hin
  · rw [List.concat_eq_append] at hlast
    obtain ⟨hel, hlt, hle⟩ := (hmem e).mp (by rw [hlast]; exact List.mem_concat_self)
    rw [hlast, List.getLast?_concat]
    refine lookBack_eq_of_latest hlt hle ((hf e.1 e.2).mpr hel) fun d hd hday ↦ ?_
    -- an entry past the last one would come after it
    refine Option.eq_none_iff_forall_ne_some.mpr fun v hv ↦ ?_
    have hin := (hmem (d, v)).mpr ⟨(hf d v).mp hv, hday, hle.trans (by omega)⟩
    have hpair := hsorted.filter fun e ↦ decide (e.1 < day ∧ day ≤ e.1 + n)
    rw [hlast] at hin hpair
    rcases List.mem_append.mp hin with hinit | hend
    · exact absurd ((List.pairwise_append.mp hpair).2.2 _ hinit e List.mem_cons_self) hd.not_gt
    · rw [List.mem_singleton] at hend
      exact absurd (congrArg Prod.fst hend) hd.ne'

end Daily

end Coinext
