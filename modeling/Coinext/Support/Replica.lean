import Mathlib.Data.List.Induction
import Mathlib.Logic.Function.Basic
import Mathlib.Order.Basic
import Mathlib.Tactic.Common

/-!
# Replicas of a versioned store

A store gives every key a value at every version. A replica that holds one version is brought to a
later one by a *patch*: a list of keys with their values at the later version, in which every key
that changed in between occurs. `Patch.apply` says that a patch may start earlier than the replica;
`patched_eq_self` that one whose values the replica already has does nothing.
-/

namespace Coinext

variable {κ ν : Type} [DecidableEq κ]

/-- The replica with the listed values written, in order. -/
def patched (s : κ → ν) (l : List (κ × ν)) : κ → ν :=
  l.foldl (fun s e ↦ Function.update s e.1 e.2) s

@[simp] theorem patched_nil (s : κ → ν) : patched s [] = s := rfl

@[simp] theorem patched_cons (s : κ → ν) (e : κ × ν) (l : List (κ × ν)) :
    patched s (e :: l) = patched (Function.update s e.1 e.2) l := rfl

theorem patched_append (s : κ → ν) (l l' : List (κ × ν)) :
    patched s (l ++ l') = patched (patched s l) l' := List.foldl_append

theorem patched_eq {s t : κ → ν} {l : List (κ × ν)} (hcurrent : ∀ e ∈ l, e.2 = t e.1)
    (helse : ∀ k, (∀ e ∈ l, e.1 ≠ k) → s k = t k) : patched s l = t := by
  induction l generalizing s with
  | nil => exact funext fun k ↦ helse k fun e he ↦ absurd he List.not_mem_nil
  | cons e l ih =>
    rw [patched_cons]
    refine ih (fun e' he' ↦ hcurrent e' (List.mem_cons_of_mem e he')) fun k hk ↦ ?_
    by_cases hek : k = e.1
    · rw [hek, Function.update_self]
      exact hcurrent e List.mem_cons_self
    · rw [Function.update_of_ne hek]
      refine helse k fun e' he' ↦ ?_
      rcases List.mem_cons.mp he' with rfl | he'
      · exact Ne.symm hek
      · exact hk e' he'

theorem patched_eq_self {s : κ → ν} {l : List (κ × ν)} (hcurrent : ∀ e ∈ l, e.2 = s e.1) :
    patched s l = s :=
  patched_eq hcurrent fun _ _ ↦ rfl

/-! ## The last writer -/

theorem exists_last_concat {α : Type} {P Q : α → Prop} (l : List α) (a : α) :
    (∃ front x back, l ++ [a] = front ++ x :: back ∧ P x ∧ ∀ b ∈ back, Q b) ↔
      P a ∨ Q a ∧ ∃ front x back, l = front ++ x :: back ∧ P x ∧ ∀ b ∈ back, Q b := by
  constructor
  · rintro ⟨front, x, back, heq, hx, hback⟩
    rcases List.eq_nil_or_concat back with rfl | ⟨rest, b, rfl⟩
    · obtain ⟨-, hxa⟩ := List.append_inj' heq rfl
      obtain rfl := List.singleton_inj.mp hxa
      exact .inl hx
    · rw [List.concat_eq_append, ← List.cons_append, ← List.append_assoc] at heq
      obtain ⟨hl, hba⟩ := List.append_inj' heq rfl
      obtain rfl := List.singleton_inj.mp hba
      rw [List.concat_eq_append] at hback
      exact .inr ⟨hback a (by simp), front, x, rest, hl, hx,
        fun b hb ↦ hback b (List.mem_append_left _ hb)⟩
  · rintro (ha | ⟨ha, front, x, back, rfl, hx, hback⟩)
    · exact ⟨l, a, [], rfl, ha, fun b hb ↦ absurd hb List.not_mem_nil⟩
    · refine ⟨front, x, back ++ [a], by simp, hx, fun b hb ↦ ?_⟩
      rcases List.mem_append.mp hb with hb | hb
      · exact hback b hb
      · obtain rfl := List.mem_singleton.mp hb
        exact ha

/-- **Last writer wins.** Starting from nothing, a key has a value exactly when some action has
written it and no later action has written that key again. -/
theorem patched_filterMap_eq_some_iff {α : Type} {w : α → Option (κ × Option ν)} {l : List α}
    {k : κ} {v : ν} :
    patched (fun _ ↦ none) (l.filterMap w) k = some v ↔
      ∃ front a back, l = front ++ a :: back ∧ w a = some (k, some v) ∧
        ∀ b ∈ back, ∀ e ∈ w b, e.1 ≠ k := by
  induction l using List.reverseRecOn with
  | nil => simp
  | append_singleton l a ih =>
    rw [exists_last_concat, ← ih, List.filterMap_append, patched_append]
    cases hw : w a with
    | none => simp [hw]
    | some e =>
      simp only [List.filterMap_cons, hw, List.filterMap_nil, patched_cons, patched_nil,
        Option.some.injEq, Option.mem_some_iff, forall_eq']
      by_cases hk : k = e.1
      · subst hk
        rw [Function.update_self]
        simp [Prod.ext_iff]
      · rw [Function.update_of_ne hk, and_iff_right (Ne.symm hk),
          or_iff_right fun h ↦ hk (congrArg Prod.fst h).symm]

/-- The list brings a replica from version `a` to version `b`. -/
structure Patch (h : ℕ → κ → ν) (a b : ℕ) (l : List (κ × ν)) : Prop where
  current : ∀ e ∈ l, e.2 = h b e.1
  /-- A key that changes at some version after `a` and up to `b` is listed. -/
  covers : ∀ j, a ≤ j → j < b → ∀ k, h j k ≠ h (j + 1) k → ∃ e ∈ l, e.1 = k

namespace Patch

variable {h : ℕ → κ → ν} {a b c : ℕ} {l : List (κ × ν)}

omit [DecidableEq κ] in
theorem eq_of_not_listed (hp : Patch h a b l) {k : κ} (hk : ∀ e ∈ l, e.1 ≠ k) (hac : a ≤ c)
    (hcb : c ≤ b) : h c k = h b k := by
  have hsame : ∀ j, a ≤ j → j < b → h j k = h (j + 1) k := fun j haj hjb ↦ by
    by_contra hne
    obtain ⟨e, he, hek⟩ := hp.covers j haj hjb k hne
    exact hk e he hek
  clear hp
  induction hcb with
  | refl => rfl
  | step hcb ih =>
    rw [ih fun j haj hjb ↦ hsame j haj (Nat.lt_succ_of_lt hjb)]
    exact hsame _ (Nat.le_trans hac hcb) (Nat.lt_succ_self _)

/-- **Patching.** A replica at a version the patch spans is brought to the end of the patch. -/
theorem apply (hp : Patch h a b l) (hac : a ≤ c) (hcb : c ≤ b) : patched (h c) l = h b :=
  patched_eq hp.current fun _ hk ↦ hp.eq_of_not_listed hk hac hcb

omit [DecidableEq κ] in
/-- Nothing is listed, so nothing changes. -/
theorem eq_of_nil (hp : Patch h a b []) (hac : a ≤ c) (hcb : c ≤ b) : h c = h b :=
  funext fun _ ↦ hp.eq_of_not_listed (fun _ he ↦ absurd he List.not_mem_nil) hac hcb

end Patch

end Coinext
