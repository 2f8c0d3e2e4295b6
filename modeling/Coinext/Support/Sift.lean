import Mathlib.Data.List.Basic

/-!
# Filters that give reasons

`sift test l` asks a test about the elements of a list in order. The test may raise, and then the
filter raises; otherwise an element stays or goes for a reason. A filter is decided by the elements
alone (`sift_map_fst`): two filters that raise on the same elements have the same result exactly
when they raise or agree on every element (`kept_eq_iff`).
-/

namespace Coinext

variable {α ρ : Type}

/-- What a test says of an element. -/
inductive Verdict (ρ : Type) where
  | keep
  | drop (reason : ρ)
deriving DecidableEq

namespace Verdict

def keeps : Verdict ρ → Bool
  | .keep => true
  | .drop _ => false

/-- Put an element with those that stay, or its reason with the reasons. -/
def push (x : α) (parts : List α × List ρ) : Verdict ρ → List α × List ρ
  | .keep => (x :: parts.1, parts.2)
  | .drop reason => (parts.1, reason :: parts.2)

end Verdict

/-- The elements that stay, and the reasons for which the others go. -/
def sift (test : α → Option (Verdict ρ)) : List α → Option (List α × List ρ)
  | [] => some ([], [])
  | x :: l => (test x).bind fun verdict ↦ (sift test l).map fun parts ↦ verdict.push x parts

/-- The elements that a test which may raise holds for. -/
def keptBy (holds : α → Option Bool) (l : List α) : Option (List α) :=
  if ∃ x ∈ l, holds x = none then none else some (l.filter fun x ↦ holds x = some true)

theorem keptBy_cons_none {holds : α → Option Bool} {x : α} (h : holds x = none) (l : List α) :
    keptBy holds (x :: l) = none :=
  if_pos ⟨x, List.mem_cons_self, h⟩

theorem keptBy_cons_some {holds : α → Option Bool} {x : α} {b : Bool} (h : holds x = some b)
    (l : List α) :
    keptBy holds (x :: l) = (keptBy holds l).map fun out ↦ if b then x :: out else out := by
  unfold keptBy
  by_cases hl : ∃ y ∈ l, holds y = none
  · rw [if_pos hl, if_pos (hl.imp fun y hy ↦ ⟨List.mem_cons_of_mem _ hy.1, hy.2⟩), Option.map_none]
  · have hcons : ¬ ∃ y ∈ x :: l, holds y = none := by
      simpa [h] using hl
    rw [if_neg hl, if_neg hcons, Option.map_some]
    cases b <;> simp [h]

theorem sift_map_fst (test : α → Option (Verdict ρ)) (l : List α) :
    (sift test l).map Prod.fst = keptBy (fun x ↦ (test x).map Verdict.keeps) l := by
  induction l with
  | nil => rfl
  | cons x l ih =>
    rw [sift]
    cases hx : test x with
    | none => rw [Option.bind_none, Option.map_none, keptBy_cons_none (by rw [hx, Option.map_none])]
    | some verdict =>
      rw [keptBy_cons_some (by rw [hx, Option.map_some]), ← ih, Option.bind_some, Option.map_map,
        Option.map_map]
      cases verdict <;> rfl

theorem length_sift {test : α → Option (Verdict ρ)} {l : List α} {parts : List α × List ρ}
    (h : sift test l = some parts) : l.length = parts.1.length + parts.2.length := by
  induction l generalizing parts with
  | nil =>
    cases h
    rfl
  | cons x l ih =>
    obtain ⟨verdict, -, hparts⟩ := Option.bind_eq_some_iff.mp h
    obtain ⟨rest, hrest, rfl⟩ := Option.map_eq_some_iff.mp hparts
    have hlength := ih hrest
    cases verdict with
    | keep =>
      simp only [Verdict.push, List.length_cons]
      omega
    | drop reason =>
      simp only [Verdict.push, List.length_cons]
      omega

theorem exists_of_mem_reasons {test : α → Option (Verdict ρ)} {l : List α}
    {parts : List α × List ρ} (h : sift test l = some parts) {reason : ρ}
    (hreason : reason ∈ parts.2) : ∃ x ∈ l, test x = some (.drop reason) := by
  induction l generalizing parts with
  | nil =>
    cases h
    cases hreason
  | cons x l ih =>
    obtain ⟨verdict, hverdict, hparts⟩ := Option.bind_eq_some_iff.mp h
    obtain ⟨rest, hrest, rfl⟩ := Option.map_eq_some_iff.mp hparts
    have htail (hmem : reason ∈ rest.2) : ∃ y ∈ x :: l, test y = some (.drop reason) :=
      (ih hrest hmem).imp fun y hy ↦ ⟨List.mem_cons_of_mem _ hy.1, hy.2⟩
    cases verdict with
    | keep => exact htail hreason
    | drop own =>
      rcases List.mem_cons.mp hreason with rfl | hmem
      · exact ⟨x, List.mem_cons_self, hverdict⟩
      · exact htail hmem

/-- A test, and another one of what stays. -/
def andThen (first second : α → Option Bool) (x : α) : Option Bool :=
  (first x).bind fun b ↦ if b then second x else some false

theorem keptBy_bind (first second : α → Option Bool) (l : List α) :
    (keptBy first l).bind (keptBy second) = keptBy (andThen first second) l := by
  induction l with
  | nil => rfl
  | cons x l ih =>
    cases hfirst : first x with
    | none =>
      have hboth : andThen first second x = none := by rw [andThen, hfirst, Option.bind_none]
      rw [keptBy_cons_none hfirst, keptBy_cons_none hboth, Option.bind_none]
    | some b =>
      have hboth : andThen first second x = if b then second x else some false := by
        rw [andThen, hfirst, Option.bind_some]
      rw [keptBy_cons_some hfirst]
      cases b with
      | false =>
        rw [keptBy_cons_some hboth, ← ih]
        cases keptBy first l with
        | none => rfl
        | some out => simp
      | true =>
        rw [if_pos rfl] at hboth
        cases hsecond : second x with
        | none =>
          rw [hsecond] at hboth
          rw [keptBy_cons_none hboth]
          cases keptBy first l with
          | none => rfl
          | some out => exact keptBy_cons_none hsecond out
        | some b' =>
          rw [hsecond] at hboth
          rw [keptBy_cons_some hboth, ← ih]
          cases keptBy first l with
          | none => rfl
          | some out => exact keptBy_cons_some hsecond out

/-- Filters by tests that raise on the same elements agree when they raise, or when their tests agree
on every element. -/
theorem keptBy_eq_iff {holds holds' : α → Option Bool} {l : List α}
    (hnone : ∀ x ∈ l, holds x = none ↔ holds' x = none) :
    keptBy holds l = keptBy holds' l ↔
      (∃ x ∈ l, holds' x = none) ∨ ∀ x ∈ l, holds x = holds' x := by
  by_cases hraise : ∃ x ∈ l, holds' x = none
  · have hraise' : ∃ x ∈ l, holds x = none :=
      hraise.imp fun x hx ↦ ⟨hx.1, (hnone x hx.1).mpr hx.2⟩
    exact iff_of_true (by rw [keptBy, keptBy, if_pos hraise, if_pos hraise']) (Or.inl hraise)
  · have hraise' : ¬ ∃ x ∈ l, holds x = none :=
      fun ⟨x, hx, h⟩ ↦ hraise ⟨x, hx, (hnone x hx).mp h⟩
    rw [keptBy, keptBy, if_neg hraise, if_neg hraise', Option.some_inj, or_iff_right hraise]
    constructor
    · intro heq x hx
      have hmem : holds x = some true ↔ holds' x = some true := by
        have h := congrArg (x ∈ ·) heq
        simpa [hx] using h
      cases h : holds x with
      | none => exact absurd ⟨x, hx, h⟩ hraise'
      | some b =>
        cases h' : holds' x with
        | none => exact absurd ⟨x, hx, h'⟩ hraise
        | some b' =>
          rw [h, h'] at hmem
          cases b <;> cases b' <;> simp_all
    · intro h
      exact List.filter_congr fun x hx ↦ by rw [h x hx]

end Coinext
