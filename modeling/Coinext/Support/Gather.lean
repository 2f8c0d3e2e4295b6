import Mathlib.Data.List.AList
import Mathlib.Data.List.Perm.Basic
import Mathlib.Algebra.BigOperators.Group.List.Basic

/-!
# Gathering over the values of a finite map

`gather g m` is the list of everything `g` finds in the values of `m`, in some order. An update of
one value changes it by what the update adds (`gather_insert_of_lookup`), so a quantity that is
summed over a whole map can be followed one update at a time. `total g m` is such a sum. A list that
is filed under different keys is all there (`entries_foldl_insert_perm`).
-/

namespace AList

variable {κ ν β : Type} [DecidableEq κ]

/-- Everything `g` finds in the values of the map. -/
def gather (g : ν → List β) (m : AList fun _ : κ ↦ ν) : List β := m.entries.flatMap fun e ↦ g e.2

omit [DecidableEq κ] in
@[simp] theorem gather_empty (g : ν → List β) : gather g (∅ : AList fun _ : κ ↦ ν) = [] := rfl

theorem entries_perm_of_lookup {m : AList fun _ : κ ↦ ν} {k : κ} {v : ν}
    (h : m.lookup k = some v) : m.entries.Perm (⟨k, v⟩ :: List.kerase k m.entries) := by
  have hmem : k ∈ m.entries.keys := AList.mem_keys.mp (AList.lookup_isSome.mp (by simp [h]))
  obtain ⟨v', l₁, l₂, hk, hsplit, herase⟩ := List.exists_of_kerase hmem
  have hv : v' = v := by
    have hlook : List.dlookup k m.entries = some v := h
    rw [hsplit, List.dlookup_append, List.dlookup_eq_none.mpr hk, Option.none_or,
      List.dlookup_cons_eq] at hlook
    exact Option.some.inj hlook
  rw [herase, hsplit, hv]
  exact List.perm_middle

theorem gather_insert_of_lookup {g : ν → List β} {m : AList fun _ : κ ↦ ν} {k : κ} {v v' : ν}
    {l : List β} (h : m.lookup k = some v) (hg : g v' = g v ++ l) :
    (gather g (m.insert k v')).Perm (gather g m ++ l) := by
  have hold : (gather g m).Perm (g v ++ (List.kerase k m.entries).flatMap fun e ↦ g e.2) :=
    (entries_perm_of_lookup h).flatMap_right _
  rw [gather, AList.entries_insert, List.flatMap_cons, hg, List.append_assoc]
  refine (List.perm_append_comm.append_left (g v)).trans ?_
  rw [← List.append_assoc]
  exact hold.symm.append_right l

theorem gather_insert_of_lookup_eq_none {g : ν → List β} {m : AList fun _ : κ ↦ ν} {k : κ} {v : ν}
    (h : m.lookup k = none) : gather g (m.insert k v) = g v ++ gather g m := by
  rw [gather, AList.entries_insert_of_notMem (AList.lookup_eq_none.mp h), List.flatMap_cons]
  rfl

theorem mem_gather {g : ν → List β} {m : AList fun _ : κ ↦ ν} {x : β} :
    x ∈ gather g m ↔ ∃ k v, m.lookup k = some v ∧ x ∈ g v := by
  rw [gather, List.mem_flatMap]
  constructor
  · rintro ⟨⟨k, v⟩, he, hx⟩
    exact ⟨k, v, AList.mem_lookup_iff.mpr he, hx⟩
  · rintro ⟨k, v, hlook, hx⟩
    exact ⟨⟨k, v⟩, AList.mem_lookup_iff.mp hlook, hx⟩

/-! ## Totals -/

section Total

variable {M : Type} [AddCommMonoid M]

/-- The sum of `g` over the values of the map. -/
def total (g : ν → M) (m : AList fun _ : κ ↦ ν) : M := (m.entries.map fun e ↦ g e.2).sum

omit [DecidableEq κ] in
@[simp] theorem total_empty (g : ν → M) : total g (∅ : AList fun _ : κ ↦ ν) = 0 := rfl

theorem total_eq_of_lookup {g : ν → M} {m : AList fun _ : κ ↦ ν} {k : κ} {v : ν}
    (h : m.lookup k = some v) :
    total g m = g v + ((List.kerase k m.entries).map fun e ↦ g e.2).sum := by
  have hperm := (entries_perm_of_lookup h).map fun e ↦ g e.2
  exact hperm.sum_eq.trans (List.sum_cons)

theorem total_insert_of_lookup {g : ν → M} {m : AList fun _ : κ ↦ ν} {k : κ} {v v' : ν}
    (h : m.lookup k = some v) : total g (m.insert k v') + g v = total g m + g v' := by
  rw [total_eq_of_lookup h, total, AList.entries_insert, List.map_cons, List.sum_cons,
    add_right_comm, add_comm (g v') (g v), add_right_comm]

theorem total_insert_of_lookup_eq_none {g : ν → M} {m : AList fun _ : κ ↦ ν} {k : κ} {v : ν}
    (h : m.lookup k = none) : total g (m.insert k v) = g v + total g m := by
  rw [total, AList.entries_insert_of_notMem (AList.lookup_eq_none.mp h), List.map_cons,
    List.sum_cons]
  rfl

end Total

/-! ## Filing under keys -/

section Filing

variable {α : Type} (key : α → κ) (value : α → ν)

/-- Elements with different keys are all filed. -/
theorem entries_foldl_insert_perm {l : List α} {m : AList fun _ : κ ↦ ν} (hl : (l.map key).Nodup)
    (hm : ∀ a ∈ l, key a ∉ m) :
    (l.foldl (fun m a ↦ m.insert (key a) (value a)) m).entries.Perm
      (l.map (fun a ↦ ⟨key a, value a⟩) ++ m.entries) := by
  induction l generalizing m with
  | nil => exact .refl _
  | cons a l ih =>
    rw [List.map_cons, List.nodup_cons] at hl
    have hfresh : ∀ b ∈ l, key b ∉ m.insert (key a) (value a) := by
      intro b hb hmem
      rcases (AList.mem_insert m).mp hmem with heq | hmem
      · exact hl.1 (heq ▸ List.mem_map_of_mem hb)
      · exact hm b (List.mem_cons_of_mem a hb) hmem
    refine (ih hl.2 hfresh).trans ?_
    rw [AList.entries_insert_of_notMem (hm a List.mem_cons_self)]
    exact List.perm_middle

theorem lookup_foldl_insert {l : List α} (hl : (l.map key).Nodup) {a : α} (ha : a ∈ l) :
    (l.foldl (fun m a ↦ m.insert (key a) (value a)) ∅ : AList fun _ : κ ↦ ν).lookup (key a)
      = some (value a) := by
  have hperm := entries_foldl_insert_perm key value (m := ∅) hl fun a _ ↦ AList.notMem_empty _
  refine AList.mem_lookup_iff.mpr (hperm.mem_iff.mpr ?_)
  exact List.mem_append_left _ (List.mem_map.mpr ⟨a, ha, rfl⟩)

end Filing

end AList
