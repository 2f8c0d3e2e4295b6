import Mathlib.Data.List.Forall2

/-!
# Fallible mutation of a record

A method that takes its receiver by mutable reference and may return an error leaves two things
behind: the result, and the receiver as it stood when the method returned. Whatever was assigned
before the error stays assigned. `Mutation ε σ α` keeps both, so that "the error leaves the receiver
unchanged" is a statement about the program rather than a consequence of its representation.

Steps that fail without touching a receiver are plain `Except` values, and `bind_eq_ok_iff` takes
them apart.
-/

instance Except.decidableExistsEqOk {ε α : Type} :
    ∀ x : Except ε α, Decidable (∃ a, x = .ok a)
  | .ok a => isTrue ⟨a, rfl⟩
  | .error _ => isFalse fun ⟨_, h⟩ ↦ by cases h

theorem Except.bind_eq_ok_iff {ε α β : Type} {x : Except ε α} {f : α → Except ε β} {b : β} :
    (x >>= f) = .ok b ↔ ∃ a, x = .ok a ∧ f a = .ok b := by
  cases x with
  | error e => simp [bind, Except.bind]
  | ok a => simp [bind, Except.bind]

theorem Except.mapM_eq_ok_iff {ε α β : Type} {f : α → Except ε β} {l : List α} {ys : List β} :
    l.mapM f = .ok ys ↔ List.Forall₂ (fun x y ↦ f x = .ok y) l ys := by
  induction l generalizing ys with
  | nil =>
    rw [List.forall₂_nil_left_iff]
    exact ⟨fun h ↦ (Except.ok.inj h).symm, fun h ↦ h ▸ rfl⟩
  | cons x l ih =>
    rw [List.mapM_cons, Except.bind_eq_ok_iff]
    constructor
    · rintro ⟨z, hz, h⟩
      obtain ⟨zs, hzs, h⟩ := Except.bind_eq_ok_iff.mp h
      cases h
      exact .cons hz (ih.mp hzs)
    · intro h
      cases h with
      | cons hz hzs => exact ⟨_, hz, Except.bind_eq_ok_iff.mpr ⟨_, ih.mpr hzs, rfl⟩⟩

theorem Except.exists_of_mem_mapM {ε α β : Type} {f : α → Except ε β} {l : List α} {ys : List β}
    (h : l.mapM f = .ok ys) {y : β} (hy : y ∈ ys) : ∃ x ∈ l, f x = .ok y := by
  have hall := Except.mapM_eq_ok_iff.mp h
  clear h
  induction hall with
  | nil => cases hy
  | cons hz hzs ih =>
    rcases List.mem_cons.mp hy with rfl | hy
    · exact ⟨_, List.mem_cons_self, hz⟩
    · obtain ⟨x, hx, hfx⟩ := ih hy
      exact ⟨x, List.mem_cons_of_mem _ hx, hfx⟩

/-- A traversal that succeeds does so on every member of the list. -/
theorem Except.exists_of_mem_of_mapM {ε α β : Type} {f : α → Except ε β} {l : List α} {ys : List β}
    (h : l.mapM f = .ok ys) {x : α} (hx : x ∈ l) : ∃ y, f x = .ok y := by
  have hall := Except.mapM_eq_ok_iff.mp h
  clear h
  induction hall with
  | nil => cases hx
  | cons hz hzs ih =>
    rcases List.mem_cons.mp hx with rfl | hx
    · exact ⟨_, hz⟩
    · exact ih hx

/-- A traversal that succeeds does so on the first members, and collects the same from them. -/
theorem Except.mapM_take {ε α β : Type} {f : α → Except ε β} {l : List α} {ys : List β}
    (h : l.mapM f = .ok ys) (n : Nat) : (l.take n).mapM f = .ok (ys.take n) :=
  Except.mapM_eq_ok_iff.mpr (List.forall₂_take n (Except.mapM_eq_ok_iff.mp h))

/-- A computation that mutates a `σ` and either returns an `α` or fails with an `ε`; the state at
the moment of failure is part of the outcome. -/
abbrev Mutation (ε σ α : Type) := ExceptT ε (StateM σ) α

namespace Mutation

variable {ε σ α β : Type}

/-- Run the method on a receiver. -/
def exec (m : Mutation ε σ α) (s : σ) : Except ε α × σ := m.run.run s

/-- A call that fails leaves the receiver as it was. -/
def Restores (m : Mutation ε σ α) (s : σ) : Prop := ∀ e, (exec m s).1 = .error e → (exec m s).2 = s

@[simp] theorem exec_pure (a : α) (s : σ) : exec (pure a : Mutation ε σ α) s = (.ok a, s) := rfl

@[simp] theorem exec_get (s : σ) : exec (get : Mutation ε σ σ) s = (.ok s, s) := rfl

@[simp] theorem exec_modify (f : σ → σ) (s : σ) :
    exec (modify f : Mutation ε σ PUnit) s = (.ok ⟨⟩, f s) := rfl

@[simp] theorem exec_throw (e : ε) (s : σ) :
    exec (throw e : Mutation ε σ α) s = (.error e, s) := rfl

@[simp] theorem exec_liftM (x : Except ε α) (s : σ) :
    exec (liftM x : Mutation ε σ α) s = (x, s) := rfl

theorem exec_bind (m : Mutation ε σ α) (f : α → Mutation ε σ β) (s : σ) :
    exec (m >>= f) s = match exec m s with
      | (.ok a, t) => exec (f a) t
      | (.error e, t) => (.error e, t) := by
  change (match m s with
    | (a, t) => (ExceptT.bindCont f a) t) = _
  change _ = match m s with
    | (.ok a, t) => exec (f a) t
    | (.error e, t) => (.error e, t)
  rcases m s with ⟨r, t⟩
  cases r <;> rfl

end Mutation
