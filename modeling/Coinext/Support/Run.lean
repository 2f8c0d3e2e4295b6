import Mathlib.Algebra.Order.Ring.Abs
import Mathlib.Data.List.Basic
import Mathlib.Data.Rat.Init
import Mathlib.Tactic.Linarith
import Mathlib.Tactic.Ring

/-!
# Runs of a deterministic system

A run is a list of actions folded over a state. `Along step ok s l` says that each action of `l`
meets `ok` in the state it is taken from; a condition on the steps of a run, as opposed to a
condition on its end. The run rule `Along.induction` turns a step lemma into a statement about
every run, and since every prefix of a run is a run, about every state the system reaches.
`Along.abs_budget` is the run rule for an error that is bounded step by step.
-/

namespace Coinext

variable {σ α : Type}

/-- Every action of the run meets `ok` in the state it is taken from. -/
def Along (step : σ → α → σ) (ok : σ → α → Prop) : σ → List α → Prop
  | _, [] => True
  | s, a :: l => ok s a ∧ Along step ok (step s a) l

variable {step : σ → α → σ} {ok : σ → α → Prop} {s : σ} {l : List α}

instance [∀ s a, Decidable (ok s a)] : ∀ s l, Decidable (Along step ok s l)
  | _, [] => isTrue trivial
  | s, a :: l =>
    have := instDecidableAlong (step s a) l
    inferInstanceAs (Decidable (_ ∧ _))

@[simp] theorem along_nil : Along step ok s [] := trivial

@[simp] theorem along_cons {a : α} :
    Along step ok s (a :: l) ↔ ok s a ∧ Along step ok (step s a) l := Iff.rfl

theorem along_append {l' : List α} :
    Along step ok s (l ++ l') ↔ Along step ok s l ∧ Along step ok (l.foldl step s) l' := by
  induction l generalizing s with
  | nil => simp
  | cons a l ih => simp [ih, and_assoc]

/-- **Run rule.** What the steps of a run preserve holds at its end. -/
theorem Along.induction {I : σ → Prop} (hrun : Along step ok s l)
    (hstep : ∀ s a, I s → ok s a → I (step s a)) (hs : I s) : I (l.foldl step s) := by
  induction l generalizing s with
  | nil => exact hs
  | cons a l ih => exact ih hrun.2 (hstep s a hs hrun.1)

theorem Along.imp {ok' : σ → α → Prop} (hrun : Along step ok s l)
    (h : ∀ s a, ok s a → ok' s a) : Along step ok' s l := by
  induction l generalizing s with
  | nil => exact trivial
  | cons a l ih => exact ⟨h s a hrun.1, ih hrun.2⟩

theorem Along.and {ok' : σ → α → Prop} (hrun : Along step ok s l) (hrun' : Along step ok' s l) :
    Along step (fun s a ↦ ok s a ∧ ok' s a) s l := by
  induction l generalizing s with
  | nil => exact trivial
  | cons a l ih => exact ⟨⟨hrun.1, hrun'.1⟩, ih hrun.2 hrun'.2⟩

theorem Along.with_invariant {I : σ → Prop} (hrun : Along step ok s l)
    (hstep : ∀ s a, I s → ok s a → I (step s a)) (hs : I s) :
    Along step (fun s a ↦ I s ∧ ok s a) s l := by
  induction l generalizing s with
  | nil => exact trivial
  | cons a l ih => exact ⟨⟨hs, hrun.1⟩, ih hrun.2 (hstep s a hs hrun.1)⟩

/-- Where a step on an action of `A` keeps `I` exactly when it is allowed, `I` holds throughout a
run of such actions exactly when every step of it is. -/
theorem forall_prefix_iff_along_of_mem {I : σ → Prop} {A : α → Prop}
    (hstep : ∀ s a, A a → I s → (I (step s a) ↔ ok s a)) (hA : ∀ a ∈ l, A a) (hs : I s) :
    (∀ front, front <+: l → I (front.foldl step s)) ↔ Along step ok s l := by
  induction l generalizing s with
  | nil =>
    refine iff_of_true (fun front hfront ↦ ?_) trivial
    rw [List.prefix_nil.mp hfront]
    exact hs
  | cons a l ih =>
    have hl : ∀ b ∈ l, A b := fun b hb ↦ hA b (List.mem_cons_of_mem a hb)
    rw [along_cons, ← hstep s a (hA a List.mem_cons_self) hs]
    constructor
    · intro h
      have ha : I (step s a) := h [a] ⟨l, rfl⟩
      refine ⟨ha, (ih hl ha).mp fun front hfront ↦ h (a :: front) ?_⟩
      exact List.cons_prefix_cons.mpr ⟨rfl, hfront⟩
    · rintro ⟨ha, hrest⟩ front hfront
      rcases List.prefix_cons_iff.mp hfront with rfl | ⟨rest, rfl, hpre⟩
      · exact hs
      · exact (ih hl ha).mpr hrest rest hpre

/-- Where a step keeps `I` exactly when it is allowed, `I` holds throughout a run exactly when every
step of it is. -/
theorem forall_prefix_iff_along {I : σ → Prop} (hstep : ∀ s a, I s → (I (step s a) ↔ ok s a))
    (hs : I s) : (∀ front, front <+: l → I (front.foldl step s)) ↔ Along step ok s l :=
  forall_prefix_iff_along_of_mem (A := fun _ ↦ True) (fun s a _ ↦ hstep s a) (fun _ _ ↦ trivial) hs

/-- Where a step keeps `I` exactly when it is allowed, and nothing restores `I`, it holds at the end
of a run exactly when every step of it is allowed. `J` is what is known of every state. -/
theorem foldl_iff_along {I J : σ → Prop} (hJ : ∀ s a, J s → J (step s a))
    (hstep : ∀ s a, J s → I s → (I (step s a) ↔ ok s a))
    (hlost : ∀ s a, J s → I (step s a) → I s) (hs : I s) (hs' : J s) :
    I (l.foldl step s) ↔ Along step ok s l := by
  have hback : ∀ (back : List α) (s : σ), J s → I (back.foldl step s) → I s := by
    intro back
    induction back with
    | nil => exact fun s _ h ↦ h
    | cons a back ih => exact fun s hs h ↦ hlost s a hs (ih (step s a) (hJ s a hs) h)
  induction l generalizing s with
  | nil => exact iff_of_true hs trivial
  | cons a l ih =>
    rw [List.foldl_cons, along_cons, ← hstep s a hs' hs]
    refine ⟨fun hend ↦ ?_, fun h ↦ (ih h.1 (hJ s a hs')).mpr h.2⟩
    have ha : I (step s a) := hback l _ (hJ s a hs') hend
    exact ⟨ha, (ih ha (hJ s a hs')).mp hend⟩

theorem exists_of_mem_log {β : Type} {log : σ → List β} {new : σ → α → List β}
    (hstep : ∀ s a, log (step s a) = log s ++ new s a) {x : β} (hx : x ∈ log (l.foldl step s)) :
    x ∈ log s ∨ ∃ front a back, l = front ++ a :: back ∧ x ∈ new (front.foldl step s) a := by
  induction l generalizing s with
  | nil => exact .inl hx
  | cons a l ih =>
    rcases ih hx with hold | ⟨front, b, back, rfl, hnew⟩
    · rw [hstep, List.mem_append] at hold
      exact hold.imp_right fun hnew ↦ ⟨[], a, l, rfl, hnew⟩
    · exact .inr ⟨a :: front, b, back, rfl, hnew⟩

/-- A property of every action, whatever the state. -/
theorem along_of_forall_mem {p : α → Prop} (h : ∀ a ∈ l, p a) :
    Along step (fun _ a ↦ p a) s l := by
  induction l generalizing s with
  | nil => exact trivial
  | cons a l ih =>
    exact ⟨h a List.mem_cons_self, ih fun b hb ↦ h b (List.mem_cons_of_mem a hb)⟩

/-- **Error budget.** When one step moves `g` by `w a` up to `b`, and up to what a potential `ψ`
releases, a run of `n` steps moves it by the sum of the `w a` up to `n * b`, and up to what the
potential releases. -/
theorem Along.abs_budget {g ψ : σ → ℚ} {w : α → ℚ} {b : ℚ} (hrun : Along step ok s l)
    (hstep : ∀ s a, ok s a → |g (step s a) - g s - w a| ≤ b + (ψ s - ψ (step s a))) :
    |g (l.foldl step s) - g s - (l.map w).sum| ≤ l.length * b + (ψ s - ψ (l.foldl step s)) := by
  induction l generalizing s with
  | nil => simp
  | cons a l ih =>
    have hfirst := hstep s a hrun.1
    have hrest := ih hrun.2
    simp only [List.foldl_cons, List.map_cons, List.sum_cons, List.length_cons]
    calc |g (l.foldl step (step s a)) - g s - (w a + (l.map w).sum)|
        = |(g (l.foldl step (step s a)) - g (step s a) - (l.map w).sum)
            + (g (step s a) - g s - w a)| := by congr 1; ring
      _ ≤ _ := abs_add_le _ _
      _ ≤ (l.length * b + (ψ (step s a) - ψ (l.foldl step (step s a))))
            + (b + (ψ s - ψ (step s a))) := add_le_add hrest hfirst
      _ = _ := by push_cast; ring

theorem foldl_induction {I : σ → Prop} (hstep : ∀ s a, I s → I (step s a)) (hs : I s)
    (l : List α) : I (l.foldl step s) := by
  induction l generalizing s with
  | nil => exact hs
  | cons a l ih => exact ih (hstep s a hs)

end Coinext
