import Mathlib.Algebra.BigOperators.Group.List.Basic
import Mathlib.Algebra.Order.Floor.Semiring
import Mathlib.Algebra.Order.Floor.Ring
import Mathlib.Data.List.Induction
import Mathlib.Data.Rat.Floor
import Mathlib.Tactic.FieldSimp
import Mathlib.Tactic.Ring

/-!
# First in, first out, unit by unit

Units arrive one after the other and each has a direction. A unit that meets the open ones with the
opposite direction closes the oldest of them, any other joins the queue. A run consists of the units
that are open in the end and of the pairs of a unit and the one that closed it.

Every unit is open or in exactly one pair (`run_perm`), and the units that opened something are
closed in the order in which they came (`run_entries_sublist`). Whatever is additive over units is
therefore conserved (`run_sum`). A run depends on nothing but the directions (`run_map`), and what
is open at any time has one of them (`run_aligned`).

Quantities that are multiples of a unit are lists of units, `units`. Many units of one kind at a
time either close as many (`foldl_step_replicate_of_opposes`) or join the queue together
(`foldl_step_replicate_of_not_opposes`).
-/

namespace Fifo

variable {α β ι : Type}

section Run

variable (dir : α → ℤ)

/-- One more unit. -/
def step (s : List α × List (α × α)) (u : α) : List α × List (α × α) :=
  match s.1 with
  | [] => ([u], s.2)
  | e :: queue => if dir e = -dir u then (queue, s.2 ++ [(e, u)]) else (e :: queue ++ [u], s.2)

/-- The open units and the pairs. -/
def run (us : List α) : List α × List (α × α) := us.foldl (step dir) ([], [])

variable {dir}

theorem step_of_opposes {e u : α} (h : dir e = -dir u) (queue : List α) (ms : List (α × α)) :
    step dir (e :: queue, ms) u = (queue, ms ++ [(e, u)]) := if_pos h

theorem step_of_not_opposes {e u : α} (h : dir e ≠ -dir u) (queue : List α)
    (ms : List (α × α)) : step dir (e :: queue, ms) u = (e :: queue ++ [u], ms) := if_neg h

variable (dir) in
theorem step_cases (s : List α × List (α × α)) (u : α) :
    step dir s u = (s.1 ++ [u], s.2) ∧ (∀ e ∈ s.1.head?, dir e ≠ -dir u) ∨
      ∃ e queue, s.1 = e :: queue ∧ dir e = -dir u ∧ step dir s u = (queue, s.2 ++ [(e, u)]) := by
  obtain ⟨queue, ms⟩ := s
  cases queue with
  | nil => exact .inl ⟨rfl, by simp⟩
  | cons e queue =>
    by_cases h : dir e = -dir u
    · exact .inr ⟨e, queue, rfl, h, step_of_opposes h queue ms⟩
    · exact .inl ⟨step_of_not_opposes h queue ms, by simpa using h⟩

/-! ## What a run keeps -/

theorem run_concat (us : List α) (u : α) : run dir (us ++ [u]) = step dir (run dir us) u := by
  rw [run, List.foldl_append]
  rfl

/-- **Every unit is open or in one pair.** -/
theorem run_perm (us : List α) :
    ((run dir us).1 ++ (run dir us).2.flatMap fun m ↦ [m.1, m.2]).Perm us := by
  induction us using List.reverseRecOn with
  | nil => exact .refl _
  | append_singleton us u ih =>
    rw [run_concat]
    rcases step_cases dir (run dir us) u with ⟨hstep, -⟩ | ⟨e, queue, hqueue, -, hstep⟩
    · rw [hstep, List.append_assoc]
      refine (List.perm_append_comm.append_left _).trans ?_
      rw [← List.append_assoc]
      exact ih.append_right _
    · rw [hqueue] at ih
      have hmove : (queue ++ ((run dir us).2.flatMap fun m ↦ [m.1, m.2]) ++ [e]).Perm
          (e :: (queue ++ (run dir us).2.flatMap fun m ↦ [m.1, m.2])) :=
        List.perm_append_singleton _ _
      have hboth := (hmove.trans ih).append_right [u]
      rw [hstep, List.flatMap_append]
      simpa using hboth

theorem mem_of_mem_run {us : List α} {a : α} (ha : a ∈ (run dir us).1) : a ∈ us :=
  (run_perm us).subset (List.mem_append_left _ ha)

/-- **The oldest first.** The units that opened something, in the order in which they are closed and
then in that of the queue, are in the order in which they came. -/
theorem run_entries_sublist (us : List α) :
    ((run dir us).2.map Prod.fst ++ (run dir us).1).Sublist us := by
  induction us using List.reverseRecOn with
  | nil => exact .refl _
  | append_singleton us u ih =>
    rw [run_concat]
    rcases step_cases dir (run dir us) u with ⟨hstep, -⟩ | ⟨e, queue, hqueue, -, hstep⟩
    · rw [hstep, ← List.append_assoc]
      exact ih.append_right _
    · rw [hqueue] at ih
      rw [hstep, List.map_append, List.append_assoc]
      exact ih.trans (List.sublist_append_left _ _)

/-- The units that close something do it in the order in which they came. -/
theorem run_exits_sublist (us : List α) : ((run dir us).2.map Prod.snd).Sublist us := by
  induction us using List.reverseRecOn with
  | nil => exact .refl _
  | append_singleton us u ih =>
    rw [run_concat]
    rcases step_cases dir (run dir us) u with ⟨hstep, -⟩ | ⟨e, queue, -, -, hstep⟩
    · rw [hstep]
      exact ih.trans (List.sublist_append_left _ _)
    · rw [hstep, List.map_append]
      exact ih.append_right _

theorem run_opposes {us : List α} {m : α × α} (hm : m ∈ (run dir us).2) :
    dir m.1 = -dir m.2 := by
  induction us using List.reverseRecOn with
  | nil => cases hm
  | append_singleton us u ih =>
    rw [run_concat] at hm
    rcases step_cases dir (run dir us) u with ⟨hstep, -⟩ | ⟨e, queue, -, hopp, hstep⟩
    · rw [hstep] at hm
      exact ih hm
    · rw [hstep] at hm
      rcases List.mem_append.mp hm with hm | hm
      · exact ih hm
      · rw [List.mem_singleton.mp hm]
        exact hopp

/-- **What is open has one direction.** -/
theorem run_aligned {us : List α} (hdir : ∀ u ∈ us, dir u = 1 ∨ dir u = -1) :
    ∀ a ∈ (run dir us).1, ∀ b ∈ (run dir us).1, dir a = dir b := by
  induction us using List.reverseRecOn with
  | nil => exact fun a ha ↦ absurd ha List.not_mem_nil
  | append_singleton us u ih =>
    have hbefore : ∀ v ∈ us, dir v = 1 ∨ dir v = -1 :=
      fun v hv ↦ hdir v (List.mem_append_left _ hv)
    have hu := hdir u (List.mem_append_right _ List.mem_cons_self)
    have ih := ih hbefore
    rw [run_concat]
    rcases step_cases dir (run dir us) u with ⟨hstep, hhead⟩ | ⟨e, queue, hqueue, -, hstep⟩
    · rw [hstep]
      -- the unit joins a queue that does not oppose it
      have hjoin : ∀ a ∈ (run dir us).1, dir a = dir u := by
        intro a ha
        cases hqueue : (run dir us).1 with
        | nil =>
          rw [hqueue] at ha
          cases ha
        | cons e queue =>
          have he : e ∈ (run dir us).1 := by
            rw [hqueue]
            exact List.mem_cons_self
          rw [ih a ha e he]
          have hne : dir e ≠ -dir u := hhead e (by rw [hqueue]; rfl)
          have hside := hbefore e (mem_of_mem_run he)
          omega
      have hall : ∀ a ∈ (run dir us).1 ++ [u], dir a = dir u := by
        intro a ha
        rcases List.mem_append.mp ha with ha | ha
        · exact hjoin a ha
        · rw [List.mem_singleton.mp ha]
      exact fun a ha b hb ↦ (hall a ha).trans (hall b hb).symm
    · rw [hstep]
      rw [hqueue] at ih
      exact fun a ha b hb ↦ ih a (List.mem_cons_of_mem _ ha) b (List.mem_cons_of_mem _ hb)

theorem step_map {dir' : β → ℤ} {g : α → β} (hg : ∀ a, dir' (g a) = dir a)
    (s : List α × List (α × α)) (u : α) :
    step dir' (s.1.map g, s.2.map (Prod.map g g)) (g u)
      = ((step dir s u).1.map g, (step dir s u).2.map (Prod.map g g)) := by
  obtain ⟨queue, ms⟩ := s
  cases queue with
  | nil => rfl
  | cons e queue =>
    by_cases h : dir e = -dir u
    · have h' : dir' (g e) = -dir' (g u) := by rw [hg, hg, h]
      rw [step_of_opposes h, List.map_cons, step_of_opposes h', List.map_append]
      rfl
    · have h' : dir' (g e) ≠ -dir' (g u) := by rwa [hg, hg]
      rw [step_of_not_opposes h, List.map_cons, step_of_not_opposes h', List.map_append]
      rfl

/-- **Only the directions decide.** -/
theorem run_map {dir' : β → ℤ} {g : α → β} (hg : ∀ a, dir' (g a) = dir a) (us : List α) :
    run dir' (us.map g) = ((run dir us).1.map g, (run dir us).2.map (Prod.map g g)) := by
  induction us using List.reverseRecOn with
  | nil => rfl
  | append_singleton us u ih =>
    rw [List.map_append, List.map_singleton, run_concat, run_concat, ih]
    exact step_map hg _ u

variable (dir) in
/-- **Conservation.** -/
theorem run_sum {M : Type} [AddCommMonoid M] (v : α → M) (us : List α) :
    ((run dir us).1.map v).sum + ((run dir us).2.map fun m ↦ v m.1 + v m.2).sum
      = (us.map v).sum := by
  have hpairs : ∀ ms : List (α × α), ((ms.flatMap fun m ↦ [m.1, m.2]).map v).sum
      = (ms.map fun m ↦ v m.1 + v m.2).sum := by
    intro ms
    induction ms with
    | nil => rfl
    | cons m ms ih =>
      rw [List.flatMap_cons, List.map_append, List.sum_append, ih, List.map_cons, List.sum_cons]
      simp
  rw [← ((run_perm us).map v).sum_eq, List.map_append, List.sum_append, hpairs]

/-! ## Many units of one kind -/

theorem foldl_step_replicate_of_opposes {e u : α} (h : dir e = -dir u) (n : ℕ) (queue : List α)
    (ms : List (α × α)) :
    (List.replicate n u).foldl (step dir) (List.replicate n e ++ queue, ms)
      = (queue, ms ++ List.replicate n (e, u)) := by
  induction n generalizing ms with
  | zero => simp
  | succ n ih =>
    rw [List.replicate_succ, List.replicate_succ, List.cons_append, List.foldl_cons,
      step_of_opposes h, ih, List.append_assoc, List.replicate_succ]
    rfl

theorem foldl_step_replicate_of_not_opposes {u : α} {queue : List α}
    (hhead : ∀ e ∈ queue.head?, dir e ≠ -dir u) (hself : dir u ≠ -dir u) (n : ℕ)
    (ms : List (α × α)) :
    (List.replicate n u).foldl (step dir) (queue, ms) = (queue ++ List.replicate n u, ms) := by
  induction n generalizing queue with
  | zero => simp
  | succ n ih =>
    have hstep : step dir (queue, ms) u = (queue ++ [u], ms) := by
      cases queue with
      | nil => rfl
      | cons e queue => exact step_of_not_opposes (hhead e rfl) queue ms
    have hhead' : ∀ e ∈ (queue ++ [u]).head?, dir e ≠ -dir u := by
      cases queue with
      | nil =>
        rintro e ⟨⟩
        exact hself
      | cons e queue => exact hhead
    rw [List.replicate_succ, List.foldl_cons, hstep, ih hhead', List.append_assoc]
    rfl

end Run

/-! ## Quantities as units -/

/-- A list of items, each of a quantity and of one kind, as a list of units of size `δ`. -/
def units (δ : ℚ) (qty : ι → ℚ) (kind : ι → α) (l : List ι) : List α :=
  l.flatMap fun i ↦ List.replicate ⌊qty i / δ⌋₊ (kind i)

/-- A positive number of units. -/
def Whole (δ q : ℚ) : Prop := ∃ n : ℕ, 0 < n ∧ q = n * δ

variable {δ : ℚ} {qty : ι → ℚ} {kind : ι → α}

theorem floor_mul_div (hδ : 0 < δ) (n : ℕ) : ⌊n * δ / δ⌋₊ = n := by
  rw [mul_div_cancel_right₀ _ hδ.ne', Nat.floor_natCast]

theorem Whole.add {q q' : ℚ} (h : Whole δ q) (h' : Whole δ q') : Whole δ (q + q') := by
  obtain ⟨n, hn, rfl⟩ := h
  obtain ⟨n', hn', rfl⟩ := h'
  exact ⟨n + n', Nat.add_pos_left hn _, by push_cast; ring⟩

@[simp] theorem units_nil : units δ qty kind [] = [] := rfl

theorem units_cons (i : ι) (l : List ι) :
    units δ qty kind (i :: l) = List.replicate ⌊qty i / δ⌋₊ (kind i) ++ units δ qty kind l :=
  List.flatMap_cons

theorem units_singleton (hδ : 0 < δ) {i : ι} {n : ℕ} (h : qty i = n * δ) :
    units δ qty kind [i] = List.replicate n (kind i) := by
  rw [units_cons, units_nil, List.append_nil, h, floor_mul_div hδ]

theorem units_append (l l' : List ι) :
    units δ qty kind (l ++ l') = units δ qty kind l ++ units δ qty kind l' :=
  List.flatMap_append

theorem mem_of_mem_units {l : List ι} {a : α} (h : a ∈ units δ qty kind l) :
    ∃ i ∈ l, kind i = a := by
  obtain ⟨i, hi, ha⟩ := List.mem_flatMap.mp h
  exact ⟨i, hi, (List.eq_of_mem_replicate ha).symm⟩

theorem mem_units (hδ : 0 < δ) {l : List ι} {i : ι} (hi : i ∈ l) (hq : Whole δ (qty i)) :
    kind i ∈ units δ qty kind l := by
  obtain ⟨n, hn, hq⟩ := hq
  refine List.mem_flatMap.mpr ⟨i, hi, ?_⟩
  rw [hq, floor_mul_div hδ]
  exact List.mem_replicate.mpr ⟨hn.ne', rfl⟩

theorem head?_units (hδ : 0 < δ) {l : List ι} (hl : ∀ i ∈ l, Whole δ (qty i)) :
    (units δ qty kind l).head? = l.head?.map kind := by
  cases l with
  | nil => rfl
  | cons i l =>
    obtain ⟨n, hn, hq⟩ := hl i List.mem_cons_self
    obtain ⟨n, rfl⟩ := Nat.exists_eq_add_of_lt hn
    rw [units_cons, hq, floor_mul_div hδ, List.replicate_succ]
    rfl

theorem sum_units (hδ : 0 < δ) (v : α → ℚ) {l : List ι} (hl : ∀ i ∈ l, Whole δ (qty i)) :
    (l.map fun i ↦ qty i * v (kind i)).sum = δ * ((units δ qty kind l).map v).sum := by
  induction l with
  | nil => simp
  | cons i l ih =>
    obtain ⟨n, -, hn⟩ := hl i List.mem_cons_self
    rw [List.map_cons, List.sum_cons, ih fun j hj ↦ hl j (List.mem_cons_of_mem _ hj), units_cons,
      hn, floor_mul_div hδ, List.map_append, List.sum_append, List.map_replicate,
      List.sum_replicate, nsmul_eq_mul]
    ring

end Fifo
