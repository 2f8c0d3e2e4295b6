import Coinext.Optimize.WalkForward

/-!
# Tuning on walk-forward folds

`gridSearch` scores every combination of a grid on a window and keeps the first of those that score
best; a score that is not finite does not count. `walkForwardOptimize` searches on the train window
of each fold, scores what it has found on the test window, and searches on the whole series in the
end.

What is chosen for a fold is the best on its train window, and no bar from the test window on has
any influence on it (`walkForwardOptimize_honest`). The folds themselves depend on the number of
bars only (`foldIndices`).

An objective is a function of the parameters and the window. The means over the folds, and the
optimizer that samples, are left out.
-/

namespace Coinext

/-- Whether a float compares below another; one that is no number is below none, and above none. -/
def F64.lt : F64 → F64 → Bool
  | .nan, _ | _, .nan => false
  | .finite a, .finite b => a < b
  | .finite _, .infinite negative => !negative
  | .infinite negative, .finite _ => negative
  | .infinite s, .infinite t => s && !t

def F64.isFinite : F64 → Bool
  | .finite _ => true
  | _ => false

namespace Optimize

/-! ## Searching a grid -/

/-- A value for each parameter. -/
abbrev Params (α : Type) := List (String × α)

/-- What an optimization raises. -/
inductive OptimizeError where
  | split (e : SplitError)
  /-- `IndexError`: a parameter of the grid has no values. -/
  | noValues
deriving DecidableEq

/-- Whether a score is better than another. Every direction but `maximize` asks for less. -/
def better (score best : F64) (direction : String) : Bool :=
  if direction = "maximize" then best.lt score else score.lt best

/-- One value of each list, in all ways; the last list is run through first. -/
def product {α : Type} : List (List α) → List (List α)
  | [] => [[]]
  | values :: rest => values.flatMap fun a ↦ (product rest).map (a :: ·)

section Search

variable {α β : Type} (paramGrid : List (String × List α)) (objective : Params α → List β → F64)
  (direction : String)

/-- The combinations of a grid. -/
def combos : List (Params α) :=
  (product (paramGrid.map Prod.snd)).map fun combo ↦ (paramGrid.map Prod.fst).zip combo

/-- Try a combination, and keep it if it is the first or a better one. -/
def tryParams (window : List β) (best : Option (Params α × F64)) (params : Params α) :
    Option (Params α × F64) :=
  let score := objective params window
  if score.isFinite then
    match best with
    | none => some (params, score)
    | some (_, bestScore) => if better score bestScore direction then some (params, score) else best
  else best

/-- A parameter with the first of its values. -/
def firstValue {α : Type} : String × List α → Except OptimizeError (String × α)
  | (_, []) => .error .noValues
  | (name, value :: _) => .ok (name, value)

/-- The best combination and its score. If no score is finite, it is the first combination. -/
def gridSearch (window : List β) : Except OptimizeError (Params α × F64) :=
  match (combos paramGrid).foldl (tryParams objective direction window) none with
  | some best => .ok best
  | none => do
    let first ← paramGrid.mapM firstValue
    return (first, objective first window)

/-! ## Folds -/

/-- What is chosen for a fold, and how it scores in and out of sample. -/
structure FoldResult (α : Type) where
  fold : ℕ
  params : Params α
  isScore : F64
  oosScore : F64
  nTrain : ℕ
  nTest : ℕ
deriving DecidableEq

structure WalkForwardReport (α : Type) where
  folds : List (FoldResult α)
  chosenParams : Params α
  /-- The searches, in their order. -/
  history : List (Params α × F64)
deriving DecidableEq

/-- Search on the train window, and score on the test window. -/
def foldResult (split : Split β) (i : ℕ) : Except OptimizeError (FoldResult α) := do
  let (params, isScore) ← gridSearch paramGrid objective direction split.train
  return ⟨i, params, isScore, objective params split.test, split.train.length, split.test.length⟩

def walkForwardOptimize (nSplits : ℤ) (trainFrac : F64) (mode : String) (bars : List β) :
    Except OptimizeError (WalkForwardReport α) := do
  let splits ← (walkForwardSplits bars nSplits trainFrac mode).mapError .split
  let folds ← splits.zipIdx.mapM fun (split, i) ↦ foldResult paramGrid objective direction split i
  let chosen ← gridSearch paramGrid objective direction bars
  return ⟨folds, chosen.1, (folds.map fun f ↦ (f.params, f.isScore)) ++ [chosen]⟩

end Search

/-! ## The best of the combinations -/

section Best

variable {a b c : F64} {direction : String}

theorem exists_of_isFinite (h : a.isFinite = true) : ∃ q, a = .finite q := by
  cases a with
  | finite q => exact ⟨q, rfl⟩
  | _ => cases h

theorem better_of_not_better (ha : a.isFinite = true) (hb : b.isFinite = true)
    (hc : c.isFinite = true) (hab : better a b direction = true)
    (hcb : better c b direction = false) : better a c direction = true := by
  obtain ⟨a, rfl⟩ := exists_of_isFinite ha
  obtain ⟨b, rfl⟩ := exists_of_isFinite hb
  obtain ⟨c, rfl⟩ := exists_of_isFinite hc
  unfold better F64.lt at *
  split_ifs at * with hmax
  · have hle : c ≤ b := not_lt.mp (of_decide_eq_false hcb)
    exact decide_eq_true (hle.trans_lt (of_decide_eq_true hab))
  · have hle : b ≤ c := not_lt.mp (of_decide_eq_false hcb)
    exact decide_eq_true ((of_decide_eq_true hab).trans_le hle)

theorem better_trans (ha : a.isFinite = true) (hb : b.isFinite = true)
    (hc : c.isFinite = true) (hab : better a b direction = true)
    (hbc : better b c direction = true) : better a c direction = true := by
  obtain ⟨a, rfl⟩ := exists_of_isFinite ha
  obtain ⟨b, rfl⟩ := exists_of_isFinite hb
  obtain ⟨c, rfl⟩ := exists_of_isFinite hc
  unfold better F64.lt at *
  split_ifs at * with hmax
  · exact decide_eq_true ((of_decide_eq_true hbc).trans (of_decide_eq_true hab))
  · exact decide_eq_true ((of_decide_eq_true hab).trans (of_decide_eq_true hbc))

variable {α β : Type} {paramGrid : List (String × List α)} {objective : Params α → List β → F64}
  {window : List β} {tried : List (Params α)} {params : Params α} {score : F64}

/-- A combination is the first of those that score best. What is not finite does not count. -/
structure IsBest (objective : Params α → List β → F64) (direction : String) (window : List β)
    (tried : List (Params α)) (params : Params α) (score : F64) : Prop where
  score_eq : objective params window = score
  finite : score.isFinite = true
  first : ∃ before after, tried = before ++ params :: after ∧
    (∀ p ∈ before, (objective p window).isFinite = true →
      better score (objective p window) direction = true) ∧
    ∀ p ∈ after, (objective p window).isFinite = true →
      better (objective p window) score direction = false

/-- What is kept after some combinations have been tried. -/
def Kept (objective : Params α → List β → F64) (direction : String) (window : List β)
    (tried : List (Params α)) : Option (Params α × F64) → Prop
  | none => ∀ p ∈ tried, (objective p window).isFinite = false
  | some (params, score) => IsBest objective direction window tried params score

/-- A combination that is no better changes nothing. -/
theorem IsBest.concat (h : IsBest objective direction window tried params score) {p : Params α}
    (hp : (objective p window).isFinite = true →
      better (objective p window) score direction = false) :
    IsBest objective direction window (tried ++ [p]) params score := by
  obtain ⟨before, after, rfl, hbefore, hafter⟩ := h.first
  refine ⟨h.score_eq, h.finite, before, after ++ [p], by simp, hbefore, fun q hq ↦ ?_⟩
  rcases List.mem_append.mp hq with hq | hq
  · exact hafter q hq
  · rw [List.mem_singleton.mp hq]
    exact hp

/-- A better combination is better than all before it. -/
theorem IsBest.replace (h : IsBest objective direction window tried params score) {p : Params α}
    (hfinite : (objective p window).isFinite = true)
    (hp : better (objective p window) score direction = true) :
    IsBest objective direction window (tried ++ [p]) p (objective p window) := by
  obtain ⟨before, after, rfl, hbefore, hafter⟩ := h.first
  refine ⟨rfl, hfinite, before ++ params :: after, [], rfl, fun q hq hq' ↦ ?_, by simp⟩
  rcases List.mem_append.mp hq with hq | hq
  · exact better_trans hfinite h.finite hq' hp (hbefore q hq hq')
  · rcases List.mem_cons.mp hq with rfl | hq
    · rwa [h.score_eq]
    · exact better_of_not_better hfinite h.finite hq' hp (hafter q hq hq')

theorem kept_tryParams {best : Option (Params α × F64)}
    (h : Kept objective direction window tried best) (p : Params α) :
    Kept objective direction window (tried ++ [p])
      (tryParams objective direction window best p) := by
  unfold tryParams
  dsimp only
  split_ifs with hfinite
  · cases best with
    | none =>
      -- nothing finite has been tried before, so there is nothing to be better than
      refine ⟨rfl, hfinite, tried, [], rfl, fun q hq hq' ↦ ?_, by simp⟩
      rw [h q hq] at hq'
      cases hq'
    | some found =>
      obtain ⟨params, score⟩ := found
      dsimp only
      split_ifs with hbetter
      · exact IsBest.replace h hfinite hbetter
      · exact IsBest.concat h fun _ ↦ Bool.eq_false_iff.mpr hbetter
  · rw [Bool.not_eq_true] at hfinite
    cases best with
    | none =>
      intro q hq
      rcases List.mem_append.mp hq with hq | hq
      · exact h q hq
      · rwa [List.mem_singleton.mp hq]
    | some found =>
      refine IsBest.concat h fun hp ↦ ?_
      rw [hfinite] at hp
      cases hp

theorem kept_foldl (tried : List (Params α)) : Kept objective direction window tried
    (tried.foldl (tryParams objective direction window) none) := by
  induction tried using List.reverseRecOn with
  | nil => exact fun p hp ↦ absurd hp List.not_mem_nil
  | append_singleton tried p ih =>
    rw [List.foldl_append]
    exact kept_tryParams ih p

/-! ## The combinations -/

theorem combos_cons (name : String) (values : List α) :
    combos ((name, values) :: paramGrid)
      = values.flatMap fun a ↦ (combos paramGrid).map ((name, a) :: ·) := by
  change (values.flatMap fun a ↦ (product (paramGrid.map Prod.snd)).map (a :: ·)).map _ = _
  rw [List.map_flatMap]
  refine List.flatMap_congr fun a _ ↦ ?_
  rw [combos, List.map_map, List.map_map]
  rfl

theorem head?_combos {first : Params α} (h : paramGrid.mapM firstValue = .ok first) :
    (combos paramGrid).head? = some first := by
  rw [Except.mapM_eq_ok_iff] at h
  induction h with
  | nil => rfl
  | @cons g entry grid rest hentry _ ih =>
    obtain ⟨name, _ | ⟨value, values⟩⟩ := g
    · cases hentry
    · cases hentry
      rw [combos_cons, List.flatMap_cons, List.head?_append, List.head?_map, ih]
      rfl

/-- What a search chooses: the best combination or, if no score is finite, the first one. -/
def IsChoice (paramGrid : List (String × List α)) (objective : Params α → List β → F64)
    (direction : String) (window : List β) (params : Params α) (score : F64) : Prop :=
  IsBest objective direction window (combos paramGrid) params score ∨
    (∀ p ∈ combos paramGrid, (objective p window).isFinite = false) ∧
      (combos paramGrid).head? = some params ∧ objective params window = score

theorem isChoice_of_gridSearch
    (h : gridSearch paramGrid objective direction window = .ok (params, score)) :
    IsChoice paramGrid objective direction window params score := by
  have hkept : Kept objective direction window (combos paramGrid)
      ((combos paramGrid).foldl (tryParams objective direction window) none) := kept_foldl _
  unfold gridSearch at h
  split at h
  · next best hbest =>
    rw [hbest] at hkept
    cases h
    exact .inl hkept
  · next hnone =>
    rw [hnone] at hkept
    obtain ⟨first, hfirst, hscore⟩ := Except.bind_eq_ok_iff.mp h
    cases hscore
    exact .inr ⟨hkept, head?_combos hfirst, rfl⟩

end Best

/-! ## The folds by their indices -/

/-- The folds of a series, by its length. -/
def foldIndices (len : ℕ) (nSplits : ℤ) (trainFrac : F64) (mode : String) :
    Except SplitError (List Fold) :=
  if nSplits < 1 ∨ len = 0 then .ok []
  else
    let n := nSplits.toNat
    if mode = "anchored" then
      .ok ((List.range n).filterMap (anchoredIndices len n (max 1 (len / (n + 1)))))
    else if mode ≠ "rolling" then .error (.unknownMode mode)
    else ((List.range n).mapM (rollingIndices len n (max 1 (len / n)) trainFrac)).map
      List.reduceOption

section Folds

variable {α β : Type} {nSplits : ℤ} {trainFrac : F64} {mode : String}

theorem mapM_map {ε γ δ : Type} (f : ℕ → Except ε γ) (g : γ → δ) (l : List ℕ) :
    l.mapM (fun i ↦ (f i).map g) = (l.mapM f).map (List.map g) := by
  induction l with
  | nil => rfl
  | cons i l ih =>
    rw [List.mapM_cons, List.mapM_cons, ih]
    cases f i with
    | error e => rfl
    | ok c => cases l.mapM f <;> rfl

theorem walkForwardSplits_eq (bars : List β) : walkForwardSplits bars nSplits trainFrac mode
    = (foldIndices bars.length nSplits trainFrac mode).map (List.map (Fold.split bars)) := by
  unfold walkForwardSplits foldIndices
  simp only [List.length_eq_zero_iff]
  split_ifs
  · rfl
  · simp only [anchoredFold_eq, Except.map, List.map_filterMap]
  · rfl
  · have hfold : rollingFold bars nSplits.toNat (max 1 (bars.length / nSplits.toNat)) trainFrac
        = fun i ↦ (rollingIndices bars.length nSplits.toNat
          (max 1 (bars.length / nSplits.toNat)) trainFrac i).map (Option.map (Fold.split bars)) :=
      funext fun i ↦ rollingFold_eq ..
    rw [hfold, mapM_map]
    cases (List.range nSplits.toNat).mapM (rollingIndices bars.length nSplits.toNat
        (max 1 (bars.length / nSplits.toNat)) trainFrac) with
    | error e => rfl
    | ok folds => exact congrArg Except.ok (List.reduceOption_map)

theorem ordered_foldIndices {len : ℕ} {folds : List Fold}
    (h : foldIndices len nSplits trainFrac mode = .ok folds) : Ordered len folds := by
  unfold foldIndices at h
  dsimp only at h
  split_ifs at h
  · cases h
    exact ⟨fun f hf ↦ absurd hf List.not_mem_nil, .nil⟩
  · cases h
    exact ordered_anchored len _ _
  · cases hmapM : (List.range nSplits.toNat).mapM (rollingIndices len nSplits.toNat
        (max 1 (len / nSplits.toNat)) trainFrac) with
    | error e =>
      rw [hmapM] at h
      cases h
    | ok parts =>
      rw [hmapM] at h
      cases h
      let index (i : ℕ) : Option Fold := (rollingIndices len nSplits.toNat
        (max 1 (len / nSplits.toNat)) trainFrac i).toOption.join
      have hindex : ∀ i < nSplits.toNat, rollingIndices len nSplits.toNat
          (max 1 (len / nSplits.toNat)) trainFrac i = .ok (index i) := by
        intro i hi
        obtain ⟨f, hf⟩ := Except.exists_of_mem_of_mapM hmapM (List.mem_range.mpr hi)
        simp only [index, hf]
        rfl
      have hparts : (List.range nSplits.toNat).map index = parts := by
        rw [← List.forall₂_eq_eq_eq, List.forall₂_map_left_iff]
        refine (Except.mapM_eq_ok_iff.mp hmapM).imp fun i f hf ↦ ?_
        simp only [index, hf]
        rfl
      rw [← hparts, List.reduceOption, List.filterMap_map]
      exact ordered_rolling hindex

/-! ## What is chosen for the folds -/

variable {paramGrid : List (String × List α)} {objective : Params α → List β → F64}
  {direction : String} {bars : List β} {report : WalkForwardReport α}

/-- What is chosen for a fold is the choice on its train window, scored on its test window. -/
structure Honest (paramGrid : List (String × List α)) (objective : Params α → List β → F64)
    (direction : String) (bars : List β) (f : Fold) (r : FoldResult α) : Prop where
  chosen : IsChoice paramGrid objective direction (f.split bars).train r.params r.isScore
  oosScore_eq : r.oosScore = objective r.params (f.split bars).test

/-- The result of each fold, by its indices. -/
theorem of_walkForwardOptimize
    (h : walkForwardOptimize paramGrid objective direction nSplits trainFrac mode bars
      = .ok report) : ∃ folds, foldIndices bars.length nSplits trainFrac mode = .ok folds ∧
      report.folds.length = folds.length ∧
      (∀ (i : ℕ) (f : Fold) (r : FoldResult α), folds[i]? = some f → report.folds[i]? = some r →
        foldResult paramGrid objective direction (f.split bars) i = .ok r) ∧
      ∃ score, gridSearch paramGrid objective direction bars
        = .ok (report.chosenParams, score) := by
  obtain ⟨splits, hsplits, h⟩ := Except.bind_eq_ok_iff.mp h
  obtain ⟨results, hresults, h⟩ := Except.bind_eq_ok_iff.mp h
  obtain ⟨⟨chosen, score⟩, hchosen, h⟩ := Except.bind_eq_ok_iff.mp h
  cases h
  rw [walkForwardSplits_eq] at hsplits
  cases hfolds : foldIndices bars.length nSplits trainFrac mode with
  | error e =>
    rw [hfolds] at hsplits
    cases hsplits
  | ok folds =>
    rw [hfolds] at hsplits
    cases hsplits
    have hall := Except.mapM_eq_ok_iff.mp hresults
    have hlength : results.length = folds.length := by
      rw [← hall.length_eq, List.length_zipIdx, List.length_map]
    refine ⟨folds, rfl, hlength, fun i f r hf hr ↦ ?_, score, hchosen⟩
    obtain ⟨hi, rfl⟩ := List.getElem?_eq_some_iff.mp hf
    obtain ⟨hi', rfl⟩ := List.getElem?_eq_some_iff.mp hr
    have hone := hall.get (i := i) (by simpa using hi) hi'
    simpa using hone

/-- The parameters are searched on the train window, and scored on the test window. -/
theorem of_foldResult {split : Split β} {i : ℕ} {r : FoldResult α}
    (h : foldResult paramGrid objective direction split i = .ok r) :
    gridSearch paramGrid objective direction split.train = .ok (r.params, r.isScore) ∧
      r.oosScore = objective r.params split.test := by
  obtain ⟨⟨params, score⟩, hsearch, hr⟩ := Except.bind_eq_ok_iff.mp h
  cases hr
  exact ⟨hsearch, rfl⟩

/-- What is chosen on equal train windows is the same. -/
theorem foldResult_congr {f : Fold} {i : ℕ} {bars' : List β} {r r' : FoldResult α}
    (h : foldResult paramGrid objective direction (f.split bars) i = .ok r)
    (h' : foldResult paramGrid objective direction (f.split bars') i = .ok r')
    (htake : bars'.take f.cut = bars.take f.cut) :
    r'.params = r.params ∧ r'.isScore = r.isScore := by
  have htrain : (f.split bars').train = (f.split bars).train := congrArg (List.drop f.start) htake
  have hsearch := (of_foldResult h').1
  rw [htrain, (of_foldResult h).1] at hsearch
  obtain ⟨hparams, hscore⟩ := Prod.mk.inj (Except.ok.inj hsearch)
  exact ⟨hparams.symm, hscore.symm⟩

theorem split_congr {f : Fold} {bars' : List β} (hlt : f.cut < f.stop)
    (htake : bars'.take f.stop = bars.take f.stop) : f.split bars' = f.split bars := by
  have hcut : ∀ l : List β, l.take f.cut = (l.take f.stop).take f.cut := by
    intro l
    rw [List.take_take, min_eq_left hlt.le]
  rw [Fold.split, Fold.split, slice, slice, slice, slice, hcut bars', hcut bars, htake]

/-- **Tuning does not peek.** The folds of an optimization depend on the number of bars only. What
is chosen for a fold is the first best combination on its train window, scored out of sample on its
test window. Other bars from the test window on, in a series of as many bars, change neither the
choice nor its score in sample; and from the end of the test window on they change nothing. -/
theorem walkForwardOptimize_honest
    (h : walkForwardOptimize paramGrid objective direction nSplits trainFrac mode bars
      = .ok report) : ∃ folds, foldIndices bars.length nSplits trainFrac mode = .ok folds ∧
      Ordered bars.length folds ∧ report.folds.length = folds.length ∧
      (∀ (i : ℕ) (f : Fold) (r : FoldResult α), folds[i]? = some f → report.folds[i]? = some r →
        Honest paramGrid objective direction bars f r) ∧
      ∀ bars' report', bars'.length = bars.length →
        walkForwardOptimize paramGrid objective direction nSplits trainFrac mode bars'
          = .ok report' →
        report'.folds.length = folds.length ∧ ∀ (i : ℕ) (f : Fold) (r r' : FoldResult α),
          folds[i]? = some f → report.folds[i]? = some r → report'.folds[i]? = some r' →
            (bars'.take f.cut = bars.take f.cut → r'.params = r.params ∧ r'.isScore = r.isScore) ∧
              (bars'.take f.stop = bars.take f.stop → r' = r) := by
  obtain ⟨folds, hfolds, hlength, hresults, -⟩ := of_walkForwardOptimize h
  have hordered := ordered_foldIndices hfolds
  refine ⟨folds, hfolds, hordered, hlength, fun i f r hf hr ↦ ?_, fun bars' report' hlen h' ↦ ?_⟩
  · obtain ⟨hsearch, hscore⟩ := of_foldResult (hresults i f r hf hr)
    exact ⟨isChoice_of_gridSearch hsearch, hscore⟩
  · -- the other series has the same folds, since it is as long
    obtain ⟨folds', hfolds', hlength', hresults', -⟩ := of_walkForwardOptimize h'
    rw [hlen, hfolds] at hfolds'
    cases hfolds'
    refine ⟨hlength', fun i f r r' hf hr hr' ↦ ⟨fun htake ↦ ?_, fun htake ↦ ?_⟩⟩
    · exact foldResult_congr (hresults i f r hf hr) (hresults' i f r' hf hr') htake
    · have hvalid := hordered.valid f (List.mem_of_getElem? hf)
      have hsame := hresults' i f r' hf hr'
      rw [split_congr hvalid.cut_lt_stop htake, hresults i f r hf hr] at hsame
      exact (Except.ok.inj hsame).symm

end Folds

/-! ## Six bars -/

/-- The sum of a window, times the parameters. -/
def gain (params : Params ℤ) (window : List ℤ) : F64 :=
  .finite ((params.map Prod.snd).sum * window.sum : ℤ)

/-- The report for six bars: gain is doubled before the third, and loss is not before the fifth. -/
def tuned : WalkForwardReport ℤ where
  folds := [⟨0, [("x", 2)], .finite 6, .finite (-8), 2, 2⟩,
    ⟨1, [("x", 1)], .finite (-1), .finite 5, 4, 2⟩]
  chosenParams := [("x", 2)]
  history := [([("x", 2)], .finite 6), ([("x", 1)], .finite (-1)), ([("x", 2)], .finite 8)]

/-- The second fold is tuned to its loss; and whatever the bars from the third on are, the choice
for the first fold is the same. -/
theorem walkForwardOptimize_honest_six :
    Honest [("x", [1, 2])] gain "maximize" [1, 2, -3, -1, 4, 1] ⟨0, 4, 6⟩
      ⟨1, [("x", 1)], .finite (-1), .finite 5, 4, 2⟩ ∧
    ∀ (rest : List ℤ) (report' : WalkForwardReport ℤ), rest.length = 4 →
      walkForwardOptimize [("x", [1, 2])] gain "maximize" 2 .nan "anchored" ([1, 2] ++ rest)
        = .ok report' →
      ∃ r, report'.folds[0]? = some r ∧ r.params = [("x", 2)] ∧ r.isScore = .finite 6 := by
  have h : walkForwardOptimize [("x", [1, 2])] gain "maximize" 2 .nan "anchored"
      [1, 2, -3, -1, 4, 1] = .ok tuned := by decide +kernel
  have hindices : foldIndices 6 2 .nan "anchored" = .ok [⟨0, 2, 4⟩, ⟨0, 4, 6⟩] := by
    decide +kernel
  obtain ⟨folds, hfolds, -, -, hhonest, hsame⟩ := walkForwardOptimize_honest h
  cases hindices.symm.trans hfolds
  refine ⟨hhonest 1 _ _ rfl rfl, ?_⟩
  intro rest report' hrest h'
  obtain ⟨hlength, hkept⟩ := hsame ([1, 2] ++ rest) report' (by simp [hrest]) h'
  have hzero : report'.folds[0]? = some (report'.folds.get ⟨0, by simp [hlength]⟩) :=
    List.getElem?_eq_getElem _
  exact ⟨_, hzero, (hkept 0 _ _ _ rfl rfl hzero).1 rfl⟩

end Optimize

end Coinext
