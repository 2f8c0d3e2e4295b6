import Mathlib.Algebra.BigOperators.Group.List.Basic
import Mathlib.Data.List.Dedup
import Mathlib.Data.List.Induction
import Mathlib.Data.List.Nodup
import Mathlib.Data.List.Perm.Basic
import Mathlib.Data.Set.Function

/-!
# Grouping a list by a key

`groups key val l` is what appending each value to the list under its key builds, one key after the
other in the order of first appearance. It maps every key that occurs to the values that carry it
(`groups_eq_map`), so whatever is computed group by group is computed filter by filter
(`flatMap_groups_perm`). A coarser key groups alike as long as it tells the same elements apart
(`flatMap_filter_perm`).
-/

namespace Coinext

variable {α β κ ν : Type} [DecidableEq κ]

/-- Append a value to the list under its key. -/
def pushGroup (k : κ) (v : ν) : List (κ × List ν) → List (κ × List ν)
  | [] => [(k, [v])]
  | (k', vs) :: rest => if k' = k then (k', vs ++ [v]) :: rest else (k', vs) :: pushGroup k v rest

/-- The values of a list, grouped by their keys. -/
def groups (key : α → κ) (val : α → ν) (l : List α) : List (κ × List ν) :=
  l.foldl (fun g a ↦ pushGroup (key a) (val a) g) []

/-- The keys of a list, in the order of first appearance. -/
def groupKeys (key : α → κ) (l : List α) : List κ :=
  l.foldl (fun ks a ↦ if key a ∈ ks then ks else ks ++ [key a]) []

variable {key : α → κ} {val : α → ν} {l : List α}

theorem groupKeys_concat (l : List α) (a : α) :
    groupKeys key (l ++ [a])
      = if key a ∈ groupKeys key l then groupKeys key l else groupKeys key l ++ [key a] := by
  rw [groupKeys, List.foldl_append]
  rfl

theorem mem_groupKeys {k : κ} : k ∈ groupKeys key l ↔ k ∈ l.map key := by
  induction l using List.reverseRecOn with
  | nil => rfl
  | append_singleton l a ih =>
    rw [groupKeys_concat, List.map_append, List.mem_append, ← ih, List.map_singleton,
      List.mem_singleton]
    split_ifs with ha
    · exact ⟨.inl, fun h ↦ h.elim id fun hk ↦ hk ▸ ha⟩
    · rw [List.mem_append, List.mem_singleton]

theorem nodup_groupKeys : (groupKeys key l).Nodup := by
  induction l using List.reverseRecOn with
  | nil => exact List.nodup_nil
  | append_singleton l a ih =>
    rw [groupKeys_concat]
    split_ifs with ha
    · exact ih
    · exact List.concat_eq_append ▸ ih.concat ha

/-- Pushing on groups that are given key by key; a key that is new has nothing under it. -/
theorem pushGroup_map {F : κ → List ν} {ks : List κ} {k : κ} (v : ν) (hks : ks.Nodup)
    (hnew : k ∉ ks → F k = []) :
    pushGroup k v (ks.map fun k' ↦ (k', F k'))
      = (if k ∈ ks then ks else ks ++ [k]).map
          fun k' ↦ (k', if k' = k then F k' ++ [v] else F k') := by
  induction ks with
  | nil => simp [pushGroup, hnew List.not_mem_nil]
  | cons k₀ ks ih =>
    obtain ⟨hk₀, hks⟩ := List.nodup_cons.mp hks
    by_cases hk : k₀ = k
    · subst hk
      have hrest : ks.map (fun k' ↦ (k', if k' = k₀ then F k' ++ [v] else F k'))
          = ks.map fun k' ↦ (k', F k') := by
        refine List.map_congr_left fun k' hk' ↦ ?_
        have hne : k' ≠ k₀ := fun h ↦ hk₀ (h ▸ hk')
        rw [if_neg hne]
      rw [if_pos List.mem_cons_self, List.map_cons, List.map_cons, hrest]
      simp only [pushGroup, if_true]
    · have hne : ¬ k = k₀ := fun h ↦ hk h.symm
      have hmem : k ∈ k₀ :: ks ↔ k ∈ ks := by simp [hne]
      have ih' := ih hks fun h ↦ hnew (mt hmem.mp h)
      simp only [List.map_cons, pushGroup, if_neg hk, ih', hmem]
      split_ifs <;> simp [hk]

/-- **The groups.** Every key that occurs, with the values that carry it in their order. -/
theorem groups_eq_map (l : List α) :
    groups key val l
      = (groupKeys key l).map fun k ↦ (k, (l.filter fun a ↦ key a = k).map val) := by
  induction l using List.reverseRecOn with
  | nil => rfl
  | append_singleton l a ih =>
    have hstep : groups key val (l ++ [a]) = pushGroup (key a) (val a) (groups key val l) := by
      rw [groups, List.foldl_append]
      rfl
    have hnew : key a ∉ groupKeys key l → (l.filter fun b ↦ key b = key a).map val = [] := by
      intro hnot
      have hnone : l.filter (fun b ↦ key b = key a) = [] := by
        refine List.filter_eq_nil_iff.mpr fun b hb ↦ ?_
        have hne : key b ≠ key a := fun h ↦ hnot (mem_groupKeys.mpr (h ▸ List.mem_map_of_mem hb))
        simpa using hne
      rw [hnone, List.map_nil]
    rw [hstep, ih, pushGroup_map (val a) nodup_groupKeys hnew, groupKeys_concat]
    refine List.map_congr_left fun k _ ↦ ?_
    by_cases hk : k = key a
    · subst hk
      simp
    · have hk' : ¬ key a = k := fun h ↦ hk h.symm
      simp [hk, hk']

theorem flatMap_ite_eq {ks : List κ} (hks : ks.Nodup) (k : κ) (l : List β) :
    (ks.flatMap fun k' ↦ if k' = k then l else []) = if k ∈ ks then l else [] := by
  induction ks with
  | nil => rfl
  | cons k' ks ih =>
    obtain ⟨hnot, hks⟩ := List.nodup_cons.mp hks
    rw [List.flatMap_cons, ih hks]
    by_cases hk : k' = k
    · subst hk
      rw [if_pos rfl, if_neg hnot, if_pos List.mem_cons_self, List.append_nil]
    · have hmem : k ∈ k' :: ks ↔ k ∈ ks := by simp [Ne.symm hk]
      simp only [if_neg hk, hmem, List.nil_append]

theorem filter_groups {p : α → Bool} {k : κ} (hp : ∀ a ∈ l, p a = true → key a = k) :
    ((groups key id l).flatMap Prod.snd).filter p = l.filter p := by
  have hgroup : ∀ k', ((l.filter fun a ↦ key a = k').map id).filter p
      = if k' = k then l.filter p else [] := by
    intro k'
    rw [List.map_id, List.filter_filter]
    split_ifs with hk
    · refine List.filter_congr fun a ha ↦ ?_
      cases hpa : p a with
      | false => rfl
      | true => simp [hp a ha hpa, hk]
    · refine List.filter_eq_nil_iff.mpr fun a ha h ↦ hk ?_
      rw [Bool.and_eq_true, decide_eq_true_eq] at h
      rw [← h.2, hp a ha h.1]
  rw [groups_eq_map, List.flatMap_map, List.filter_flatMap, List.flatMap_congr fun k' _ ↦ hgroup k',
    flatMap_ite_eq nodup_groupKeys]
  split_ifs with hmem
  · rfl
  · refine (List.filter_eq_nil_iff.mpr fun a ha h ↦ hmem (mem_groupKeys.mpr ?_)).symm
    rw [← hp a ha h]
    exact List.mem_map_of_mem ha

theorem flatMap_groups_perm (f : List ν → List β) (l : List α) :
    ((groups key val l).flatMap fun g ↦ f g.2).Perm
      ((l.map key).dedup.flatMap fun k ↦ f ((l.filter fun a ↦ key a = k).map val)) := by
  have hkeys : (groupKeys key l).Perm (l.map key).dedup :=
    (List.perm_ext_iff_of_nodup nodup_groupKeys (List.nodup_dedup _)).mpr fun k ↦ by
      rw [mem_groupKeys, List.mem_dedup]
  rw [groups_eq_map, List.flatMap_map]
  exact hkeys.flatMap_right _

/-- Where a coarser key tells the same elements apart, its groups are those of the finer one. -/
theorem flatMap_filter_perm {κ' : Type} [DecidableEq κ'] {r : κ → κ'} (f : List α → List β)
    (hr : Set.InjOn r {k | k ∈ l.map key}) :
    ((l.map fun a ↦ r (key a)).dedup.flatMap fun k ↦ f (l.filter fun a ↦ r (key a) = k)).Perm
      ((l.map key).dedup.flatMap fun k ↦ f (l.filter fun a ↦ key a = k)) := by
  have hkeys : (l.map fun a ↦ r (key a)).dedup.Perm ((l.map key).dedup.map r) := by
    refine (List.perm_ext_iff_of_nodup (List.nodup_dedup _) ?_).mpr fun k ↦ ?_
    · refine List.Nodup.map_on (fun k hk k' hk' heq ↦ ?_) (List.nodup_dedup _)
      exact hr (List.mem_dedup.mp hk) (List.mem_dedup.mp hk') heq
    · simp [List.mem_dedup]
  refine (hkeys.flatMap_right _).trans (.of_eq ?_)
  rw [List.flatMap_map]
  refine List.flatMap_congr fun k hk ↦ congrArg f (List.filter_congr fun a ha ↦ ?_)
  have hiff : r (key a) = r k ↔ key a = k :=
    ⟨fun h ↦ hr (List.mem_map_of_mem ha) (List.mem_dedup.mp hk) h, congrArg r⟩
  exact decide_eq_decide.mpr hiff

theorem lookup_groups (k : κ) (l : List α) :
    ((groups key val l).lookup k).getD [] = (l.filter fun a ↦ key a = k).map val := by
  have hlookup (ks : List κ) (f : κ → List ν) :
      (ks.map fun k ↦ (k, f k)).lookup k = if k ∈ ks then some (f k) else none := by
    induction ks with
    | nil => rfl
    | cons k' ks ih =>
      rw [List.map_cons, List.lookup_cons, ih]
      by_cases hk : k = k'
      · simp [hk]
      · simp [hk, beq_eq_false_iff_ne.mpr hk]
  rw [groups_eq_map, hlookup]
  split_ifs with hk
  · rfl
  · have hnone : l.filter (fun a ↦ key a = k) = [] := by
      refine List.filter_eq_nil_iff.mpr fun a ha hkey ↦ hk ?_
      exact mem_groupKeys.mpr (List.mem_map.mpr ⟨a, ha, of_decide_eq_true hkey⟩)
    rw [hnone]
    rfl

/-- Sums over the elements of each of several keys add up. -/
theorem sum_filter_keys {M : Type} [AddCommMonoid M] (key : α → κ) (w : α → M) {ks : List κ}
    (hks : ks.Nodup) (l : List α) :
    (ks.map fun k ↦ ((l.filter fun a ↦ key a = k).map w).sum).sum
      = ((l.filter fun a ↦ key a ∈ ks).map w).sum := by
  induction ks with
  | nil => simp
  | cons k ks ih =>
    obtain ⟨hk, hks⟩ := List.nodup_cons.mp hks
    rw [List.map_cons, List.sum_cons, ih hks]
    clear ih
    -- the elements of the key, and those of the others
    induction l with
    | nil => simp
    | cons a l ih =>
      simp only [List.mem_cons, Bool.decide_or] at ih ⊢
      by_cases hkey : key a = k
      · simp [hkey, hk, ← ih, add_assoc]
      · by_cases hmem : key a ∈ ks
        · simp [hkey, hmem, ← ih, add_left_comm]
        · simp [hkey, hmem, ← ih]

end Coinext
