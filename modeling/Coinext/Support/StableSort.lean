import Mathlib.Data.List.Flatten
import Mathlib.Data.List.Induction
import Mathlib.Data.List.Sort

/-!
# Stable sorting and keys

A stable sort commutes with filters (`filter_insertionSort`); in particular it leaves the elements
of one key in their order (`filter_key_insertionSort`). `keepLast` keeps the last element of every
key of a list, sorted by key: its elements are those that no later element of their key follows
(`mem_keepLast`).

`flatMap_filter_length_eq_iff` is about pruning: leaving out some lists of many changes the length
of the whole unless those are empty.
-/

namespace Coinext

variable {α β κ : Type}

/-! ## Filters -/

section Filter

variable {r : α → α → Prop} [DecidableRel r] [Std.Total r] [IsTrans α r] {p : α → Bool}

omit [Std.Total r] in
theorem filter_orderedInsert (a : α) {l : List α} (hl : l.Pairwise r) :
    (l.orderedInsert r a).filter p
      = if p a then (l.filter p).orderedInsert r a else l.filter p := by
  induction l with
  | nil => cases hp : p a <;> simp [hp]
  | cons b l ih =>
    obtain ⟨hb, hl⟩ := List.pairwise_cons.mp hl
    by_cases hab : r a b
    · rw [List.orderedInsert_cons_of_le r l hab, List.filter_cons]
      split_ifs with ha
      · -- everything that follows is after `a` as well
        have hall : ∀ c ∈ (b :: l).filter p, r a c := by
          intro c hc
          rcases List.mem_cons.mp (List.mem_filter.mp hc).1 with rfl | hc
          · exact hab
          · exact trans_of r hab (hb c hc)
        cases hrest : (b :: l).filter p with
        | nil => rfl
        | cons c rest =>
          rw [hrest] at hall
          exact (List.orderedInsert_cons_of_le r rest (hall c List.mem_cons_self)).symm
      · rfl
    · rw [List.orderedInsert_of_not_le r l hab, List.filter_cons, List.filter_cons, ih hl]
      cases hpb : p b with
      | false => rfl
      | true =>
        simp only [if_true]
        split_ifs with ha
        · rw [List.orderedInsert_of_not_le r _ hab]
        · rfl

theorem filter_insertionSort (l : List α) :
    (l.insertionSort r).filter p = (l.filter p).insertionSort r := by
  induction l with
  | nil => rfl
  | cons a l ih =>
    rw [List.insertionSort_cons, filter_orderedInsert a (List.pairwise_insertionSort r l), ih,
      List.filter_cons]
    split_ifs with ha
    · rfl
    · rfl

end Filter

section Key

variable [LinearOrder κ] (key : α → κ)

theorem filter_key_insertionSort (k : κ) (l : List α) :
    (l.insertionSort fun a b ↦ key a ≤ key b).filter (fun a ↦ key a = k)
      = l.filter fun a ↦ key a = k := by
  have : Std.Total fun a b ↦ key a ≤ key b := ⟨fun a b ↦ le_total (key a) (key b)⟩
  have : IsTrans α fun a b ↦ key a ≤ key b := ⟨fun a b c h h' ↦ h.trans h'⟩
  rw [filter_insertionSort]
  refine List.Pairwise.insertionSort_eq (List.pairwise_of_forall_mem_list fun a ha b hb ↦ ?_)
  rw [of_decide_eq_true (List.mem_filter.mp ha).2, of_decide_eq_true (List.mem_filter.mp hb).2]

variable {key}

theorem filter_append_filter_of_sorted {l : List α} (hl : l.Pairwise fun a b ↦ key a ≤ key b)
    {k : κ} (hk : ∀ a ∈ l, k ≤ key a) :
    (l.filter fun a ↦ key a = k) ++ (l.filter fun a ↦ key a ≠ k) = l := by
  induction l with
  | nil => rfl
  | cons a l ih =>
    obtain ⟨hfirst, hl⟩ := List.pairwise_cons.mp hl
    have ih' := ih hl fun b hb ↦ hk b (List.mem_cons_of_mem a hb)
    by_cases ha : key a = k
    · rw [List.filter_cons_of_pos (by simpa using ha),
        List.filter_cons_of_neg (by simpa using ha), List.cons_append, ih']
    · have hlt : k < key a := lt_of_le_of_ne (hk a List.mem_cons_self) (Ne.symm ha)
      have hnone : l.filter (fun b ↦ key b = k) = [] := by
        refine List.filter_eq_nil_iff.mpr fun b hb ↦ ?_
        simpa using (hlt.trans_le (hfirst b hb)).ne'
      rw [hnone, List.nil_append] at ih'
      rw [List.filter_cons_of_neg (by simpa using ha), hnone, List.nil_append,
        List.filter_cons_of_pos (by simpa using ha), ih']

theorem flatMap_filter_of_sorted {l : List α} (hl : l.Pairwise fun a b ↦ key a ≤ key b)
    {ks : List κ} (hks : ks.Pairwise (· < ·)) (hcover : ∀ a ∈ l, key a ∈ ks) :
    (ks.flatMap fun k ↦ l.filter fun a ↦ key a = k) = l := by
  induction ks generalizing l with
  | nil =>
    cases l with
    | nil => rfl
    | cons a l => exact absurd (hcover a List.mem_cons_self) List.not_mem_nil
  | cons k ks ih =>
    obtain ⟨hfirst, hks⟩ := List.pairwise_cons.mp hks
    have hcover' : ∀ a ∈ l.filter (fun a ↦ key a ≠ k), key a ∈ ks := by
      intro a ha
      obtain ⟨ha, hne⟩ := List.mem_filter.mp ha
      exact (List.mem_cons.mp (hcover a ha)).resolve_left (of_decide_eq_true hne)
    have hparts : ∀ k' ∈ ks, (l.filter fun a ↦ key a = k')
        = (l.filter fun a ↦ key a ≠ k).filter fun a ↦ key a = k' := by
      intro k' hk'
      rw [List.filter_filter]
      refine List.filter_congr fun a _ ↦ ?_
      by_cases ha : key a = k'
      · simp [ha, (hfirst k' hk').ne']
      · simp [ha]
    rw [List.flatMap_cons, List.flatMap_congr hparts, ih (hl.filter _) hks hcover']
    refine filter_append_filter_of_sorted hl fun a ha ↦ ?_
    rcases List.mem_cons.mp (hcover a ha) with heq | hmem
    · exact heq.ge
    · exact (hfirst _ hmem).le

variable (key)

/-! ## The last element of every key -/

/-- The last element of a key. -/
def lastAt (l : List α) (k : κ) : Option α := (l.filter fun a ↦ key a = k).getLast?

variable {key}

theorem key_of_lastAt {l : List α} {k : κ} {a : α} (h : lastAt key l k = some a) : key a = k := by
  have hmem := List.mem_of_getLast? h
  exact of_decide_eq_true (List.mem_filter.mp hmem).2

theorem mem_of_lastAt {l : List α} {k : κ} {a : α} (h : lastAt key l k = some a) : a ∈ l :=
  (List.mem_filter.mp (List.mem_of_getLast? h)).1

variable (key) in
theorem exists_lastAt {l : List α} {a : α} (h : a ∈ l) : ∃ b, lastAt key l (key a) = some b := by
  have hmem : a ∈ l.filter fun b ↦ key b = key a :=
    List.mem_filter.mpr ⟨h, decide_eq_true rfl⟩
  exact ⟨_, List.getLast?_eq_some_getLast (List.ne_nil_of_mem hmem)⟩

theorem lastAt_append (l l' : List α) (k : κ) :
    lastAt key (l ++ l') k = (lastAt key l' k).or (lastAt key l k) := by
  unfold lastAt
  rw [List.filter_append, List.getLast?_append]

theorem lastAt_eq_none {l : List α} {k : κ} : lastAt key l k = none ↔ ∀ a ∈ l, key a ≠ k := by
  rw [lastAt, List.getLast?_eq_none_iff, List.filter_eq_nil_iff]
  simp

variable (key)

/-- Put an element into a list sorted by key, in place of the one with its key. -/
def replaceInsert (a : α) : List α → List α
  | [] => [a]
  | b :: l =>
    if key a < key b then a :: b :: l
    else if key a = key b then a :: l
    else b :: replaceInsert a l

/-- Keep the last element of every key. -/
def keepLast (l : List α) : List α := l.foldl (fun m a ↦ replaceInsert key a m) []

variable {key}

theorem mem_replaceInsert {a b : α} {m : List α} (hm : m.Pairwise fun x y ↦ key x < key y) :
    b ∈ replaceInsert key a m ↔ b = a ∨ b ∈ m ∧ key b ≠ key a := by
  induction m with
  | nil => simp [replaceInsert]
  | cons x m ih =>
    obtain ⟨hx, hm⟩ := List.pairwise_cons.mp hm
    rw [replaceInsert]
    split_ifs with hlt heq
    · -- every key of the list is larger
      have hne : ∀ y ∈ x :: m, key y ≠ key a := by
        intro y hy
        rcases List.mem_cons.mp hy with rfl | hy
        · exact hlt.ne'
        · exact (hlt.trans (hx y hy)).ne'
      rw [List.mem_cons]
      exact or_congr_right ⟨fun hb ↦ ⟨hb, hne b hb⟩, And.left⟩
    · rw [List.mem_cons, List.mem_cons]
      refine or_congr_right ⟨fun hb ↦ ⟨.inr hb, ?_⟩, ?_⟩
      · rw [heq]
        exact (hx b hb).ne'
      · rintro ⟨rfl | hb, hne⟩
        · exact absurd heq.symm hne
        · exact hb
    · rw [List.mem_cons, ih hm, List.mem_cons]
      constructor
      · rintro (rfl | rfl | ⟨hb, hne⟩)
        · exact .inr ⟨.inl rfl, Ne.symm heq⟩
        · exact .inl rfl
        · exact .inr ⟨.inr hb, hne⟩
      · rintro (rfl | ⟨rfl | hb, hne⟩)
        · exact .inr (.inl rfl)
        · exact .inl rfl
        · exact .inr (.inr ⟨hb, hne⟩)

theorem pairwise_replaceInsert (a : α) {m : List α} (hm : m.Pairwise fun x y ↦ key x < key y) :
    (replaceInsert key a m).Pairwise fun x y ↦ key x < key y := by
  induction m with
  | nil => exact List.pairwise_singleton _ _
  | cons x m ih =>
    have hsorted := hm
    obtain ⟨hx, hm⟩ := List.pairwise_cons.mp hm
    rw [replaceInsert]
    split_ifs with hlt heq
    · refine List.pairwise_cons.mpr ⟨fun y hy ↦ ?_, hsorted⟩
      rcases List.mem_cons.mp hy with rfl | hy
      · exact hlt
      · exact hlt.trans (hx y hy)
    · exact List.pairwise_cons.mpr ⟨fun y hy ↦ heq ▸ hx y hy, hm⟩
    · refine List.pairwise_cons.mpr ⟨fun y hy ↦ ?_, ih hm⟩
      rcases (mem_replaceInsert hm).mp hy with rfl | ⟨hy, -⟩
      · exact lt_of_le_of_ne (not_lt.mp hlt) (Ne.symm heq)
      · exact hx y hy

/-- **What is kept.** The elements that are the last of their key. -/
theorem mem_keepLast {l : List α} {b : α} :
    b ∈ keepLast key l ↔ lastAt key l (key b) = some b := by
  have hfold : ∀ (l m : List α), m.Pairwise (fun x y ↦ key x < key y) →
      (b ∈ l.foldl (fun m a ↦ replaceInsert key a m) m
        ↔ lastAt key l (key b) = some b ∨ lastAt key l (key b) = none ∧ b ∈ m) := by
    intro l
    induction l with
    | nil => exact fun m _ ↦ by simp [lastAt]
    | cons a l ih =>
      intro m hm
      rw [List.foldl_cons, ih _ (pairwise_replaceInsert a hm), mem_replaceInsert hm,
        ← List.singleton_append, lastAt_append]
      have hone : lastAt key [a] (key b) = if key a = key b then some a else none := by
        unfold lastAt
        by_cases hab : key a = key b <;> simp [hab]
      rw [hone]
      cases lastAt key l (key b) with
      | some c => simp
      | none =>
        by_cases hab : key a = key b
        · simp only [hab, if_true, Option.none_or, Option.some.injEq, reduceCtorEq, false_or,
            true_and, false_and, or_false]
          refine ⟨fun h ↦ ?_, fun h ↦ .inl h.symm⟩
          rcases h with rfl | ⟨-, hne⟩
          · rfl
          · exact absurd rfl hne
        · have hne : b ≠ a := fun h ↦ hab (congrArg key h.symm)
          simp [hab, hne, Ne.symm hab]
  rw [keepLast, hfold l [] List.Pairwise.nil]
  simp

theorem pairwise_keepLast (l : List α) :
    (keepLast key l).Pairwise fun x y ↦ key x < key y := by
  induction l using List.reverseRecOn with
  | nil => exact List.Pairwise.nil
  | append_singleton l a ih =>
    rw [keepLast, List.foldl_append]
    exact pairwise_replaceInsert a ih

theorem eq_of_pairwise_key_lt {l l' : List α} (hl : l.Pairwise fun x y ↦ key x < key y)
    (hl' : l'.Pairwise fun x y ↦ key x < key y) (h : ∀ a, a ∈ l ↔ a ∈ l') : l = l' := by
  have : Std.Irrefl fun x y : α ↦ key x < key y := ⟨fun _ ↦ lt_irrefl _⟩
  have : Std.Antisymm fun x y : α ↦ key x < key y := ⟨fun _ _ h h' ↦ absurd h h'.asymm⟩
  exact hl.eq_of_mem_iff hl' h

theorem lastAt_keepLast (l : List α) (k : κ) : lastAt key (keepLast key l) k = lastAt key l k := by
  refine Option.ext fun a ↦ ⟨fun h ↦ ?_, fun h ↦ ?_⟩
  · have hmem := mem_keepLast.mp (mem_of_lastAt h)
    rwa [key_of_lastAt h] at hmem
  · have hkey := key_of_lastAt h
    have hmem : a ∈ keepLast key l := mem_keepLast.mpr (hkey.symm ▸ h)
    obtain ⟨b, hb⟩ := exists_lastAt key hmem
    have hb' := mem_keepLast.mp (mem_of_lastAt hb)
    rw [key_of_lastAt hb, hkey, h, Option.some.injEq] at hb'
    rw [hkey] at hb
    rwa [hb']

theorem keepLast_keepLast_append (l l' : List α) :
    keepLast key (keepLast key l ++ l') = keepLast key (l ++ l') := by
  refine eq_of_pairwise_key_lt (pairwise_keepLast _) (pairwise_keepLast _) fun a ↦ ?_
  rw [mem_keepLast, mem_keepLast, lastAt_append, lastAt_append, lastAt_keepLast]

end Key

/-! ## Pruning -/

theorem flatMap_filter_length_le (l : List α) (p : α → Bool) (g : α → List β) :
    ((l.filter p).flatMap g).length ≤ (l.flatMap g).length :=
  (List.filter_sublist.flatMap g).length_le

theorem flatMap_filter_length_eq_iff (l : List α) (p : α → Bool) (g : α → List β) :
    ((l.filter p).flatMap g).length = (l.flatMap g).length
      ↔ ∀ a ∈ l, p a = false → g a = [] := by
  induction l with
  | nil => simp
  | cons a l ih =>
    rw [List.forall_mem_cons, ← ih, List.flatMap_cons, List.length_append]
    have hle := flatMap_filter_length_le l p g
    cases hp : p a with
    | true =>
      rw [List.filter_cons_of_pos hp, List.flatMap_cons, List.length_append]
      simp
    | false =>
      rw [List.filter_cons_of_neg (by simp [hp])]
      simp only [forall_const]
      rw [← List.length_eq_zero_iff]
      omega

theorem flatMap_filter_eq {l : List α} {p : α → Bool} {g : α → List β}
    (h : ∀ a ∈ l, p a = false → g a = []) : (l.filter p).flatMap g = l.flatMap g :=
  (List.filter_sublist.flatMap g).eq_of_length
    ((flatMap_filter_length_eq_iff l p g).mpr h)

end Coinext
