import Mathlib.Data.List.Basic

/-!
# Sweeps

A sweep goes through a list from the left, and replaces each item by what a stateful function makes
of it: the loop over a table of mutable objects. Of a state and a table, a sweep preserves whatever
one of its steps preserves, wherever in the table the step happens (`sweep_induction`). A single
object of the table is updated by `replaceFirst`.
-/

namespace Coinext

variable {σ α : Type}

def sweep (f : σ → α → σ × α) : σ → List α → σ × List α
  | s, [] => (s, [])
  | s, a :: l => ((sweep f (f s a).1 l).1, (f s a).2 :: (sweep f (f s a).1 l).2)

variable {f : σ → α → σ × α}

/-- **Sweep rule.** `I s done todo` holds of the state, the items already replaced and the items to
come. -/
theorem sweep_induction {I : σ → List α → List α → Prop}
    (hstep : ∀ s done a todo, I s done (a :: todo) → I (f s a).1 (done ++ [(f s a).2]) todo)
    (s : σ) (done todo : List α) (h : I s done todo) :
    I (sweep f s todo).1 (done ++ (sweep f s todo).2) [] := by
  induction todo generalizing s done with
  | nil => rwa [sweep, List.append_nil]
  | cons a todo ih =>
    have hrest := ih _ _ (hstep s done a todo h)
    rwa [List.append_assoc, List.singleton_append] at hrest

theorem sweep_state {I : σ → Prop} (hstep : ∀ s a, I s → I (f s a).1) {s : σ} (h : I s)
    (l : List α) : I (sweep f s l).1 := by
  induction l generalizing s with
  | nil => exact h
  | cons a l ih => exact ih (hstep s a h)

/-- Update the first item that meets `p`. -/
def replaceFirst (p : α → Bool) (update : α → α) : List α → List α
  | [] => []
  | a :: l => if p a then update a :: l else a :: replaceFirst p update l

theorem replaceFirst_of_find? {p : α → Bool} (update : α → α) {l : List α} {a : α}
    (h : l.find? p = some a) :
    ∃ front back, l = front ++ a :: back ∧ replaceFirst p update l = front ++ update a :: back := by
  induction l with
  | nil => cases h
  | cons x l ih =>
    by_cases hx : p x = true
    · rw [List.find?_cons_of_pos hx] at h
      cases h
      exact ⟨[], l, rfl, if_pos hx⟩
    · rw [List.find?_cons_of_neg hx] at h
      obtain ⟨front, back, rfl, heq⟩ := ih h
      exact ⟨x :: front, back, rfl, (if_neg hx).trans (congrArg (x :: ·) heq)⟩

end Coinext
