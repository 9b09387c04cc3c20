import DiffAnalyzer.CSource.Integrator
import DiffAnalyzer.Proofs.NumberText
import DiffAnalyzer.Proofs.Stepping
import Mathlib

/-!
# What the integrator in C computes

The lines of an integrator are a straight-line program over vectors
(`CSource.IntegratorLine.run`).  It adds up the weighted slopes before it multiplies them by the
step sizes and leaves weights of zero and one out, while a step of a simulation accumulates one
scaled slope after another.  In exact arithmetic both evaluate the slopes at the same vectors, in
the same order, and reach the same state (`Tableau.state_runLines_lines`), unless the update reads
slopes that no stage has set.
-/

namespace DiffAnalyzer

/-- The value of a finite literal. -/
def Number.value (x : Number) : ℚ :=
  (if x.negative then -1 else 1) * x.units / Number.unitsPerOne

namespace Coefficient

/-- The value of the literal that is printed for the coefficient. -/
def value (c : Coefficient) : ℚ := c.toNumber.value

variable {c : Coefficient}

theorem value_of_isZero (h : c.isZero = true) : c.value = 0 := by
  have hnum : c.num = 0 := beq_iff_eq.mp h
  have hround : ∀ den, roundHalfEven 0 den = 0 := by
    intro den
    simp [roundHalfEven]
  have hnumber : c.toNumber = .ofMagnitude false 0 := by
    simp [toNumber, hnum, nearestMagnitude, hround]
  have hunits : (Number.ofMagnitude false 0).units = 0 := rfl
  rw [value, hnumber, Number.value, hunits]
  simp

theorem value_of_isOne (hone : c.isOne = true) (hzero : c.isZero = false) : c.value = 1 := by
  have hnum : c.num = c.den := beq_iff_eq.mp hone
  have hne : c.num ≠ 0 := by simpa [isZero] using hzero
  have hden : 0 < c.den := by omega
  obtain ⟨one, hmagnitude⟩ : ∃ m, m = 0x3ff <<< 52 := ⟨_, rfl⟩
  have hunits : Number.unitsOf one = Number.unitsPerOne := by
    rw [hmagnitude, Number.unitsPerOne_eq]
    rfl
  have hnearest : nearestMagnitude c.den c.den = one :=
    Number.nearestMagnitude_eq (by rw [hmagnitude]; decide) hden (by rw [hunits, Nat.mul_comm])
  have hnumber : c.toNumber = .ofMagnitude false one := by
    have hnonneg : ¬ c.num < 0 := by omega
    rw [toNumber, hnum, Int.natAbs_natCast, hnearest, ← hnum, decide_eq_false hnonneg]
  have hone : (Number.ofMagnitude false one).negative = false ∧
      (Number.ofMagnitude false one).units = Number.unitsOf one := by
    rw [hmagnitude]
    exact ⟨by decide, rfl⟩
  have hpos : (Number.unitsPerOne : ℚ) ≠ 0 := by
    rw [Number.unitsPerOne_eq, Nat.one_shiftLeft]
    positivity
  rw [value, hnumber, Number.value, hone.1, hone.2, hunits, if_neg (by decide), one_mul,
    div_self hpos]

end Coefficient

/-- Exact arithmetic, with coefficients as they are printed. -/
def Arithmetic.rational : Arithmetic ℚ where
  add := (· + ·)
  mul := (· * ·)
  weight := Coefficient.value

variable {n : Nat}

namespace CSource

/-- The variables of an integrator: the state, the point `y` and the slopes `k`. -/
structure Workspace (n : Nat) where
  state : Fin n → ℚ
  point : Fin n → ℚ
  slopes : Nat → Fin n → ℚ

/-- The value of a vector expression, where products with step sizes are componentwise. -/
def VectorExpr.eval (steps : Fin n → ℚ) (w : Workspace n) : VectorExpr → Fin n → ℚ
  | .state => w.state
  | .slope stage => w.slopes stage
  | .scaled v weight => weight.value • v.eval steps w
  | .timesStep v => v.eval steps w * steps
  | .sum u v => u.eval steps w + v.eval steps w

variable {m : Type → Type} [Monad m] (steps : Fin n → ℚ) (f : (Fin n → ℚ) → m (Fin n → ℚ))

/-- Run a line with a function that yields slopes. -/
def IntegratorLine.run (w : Workspace n) : IntegratorLine → m (Workspace n)
  | .setPoint v => pure { w with point := v.eval steps w }
  | .slopeAtPoint stage => do
    let slope ← f w.point
    pure { w with slopes := Function.update w.slopes stage slope }
  | .slopeAtState stage => do
    let slope ← f w.state
    pure { w with slopes := Function.update w.slopes stage slope }
  | .setState v => pure { w with state := v.eval steps w }

/-- Run lines one after another. -/
def runLines (lines : List IntegratorLine) (w : Workspace n) : m (Workspace n) :=
  lines.foldlM (IntegratorLine.run steps f) w

/-- The sum of the slopes with their weights, of which the first is that of a given stage. -/
def weightedSum (weights : List Coefficient) (first : Nat) (slopes : Nat → Fin n → ℚ) :
    Fin n → ℚ :=
  ((weights.zipIdx first).map fun e => e.1.value • slopes e.2).sum

@[simp] theorem weightedSum_nil (first : Nat) (slopes : Nat → Fin n → ℚ) :
    weightedSum [] first slopes = 0 := rfl

@[simp] theorem weightedSum_cons (weight : Coefficient) (weights : List Coefficient) (first : Nat)
    (slopes : Nat → Fin n → ℚ) : weightedSum (weight :: weights) first slopes =
      weight.value • slopes first + weightedSum weights (first + 1) slopes := by
  simp [weightedSum]

namespace VectorExpr

variable {steps : Fin n → ℚ} {w : Workspace n}

theorem eval_weighted {weight : Coefficient} (h : weight.isZero = false) (stage : Nat) :
    (weighted weight stage).eval steps w = weight.value • w.slopes stage := by
  unfold weighted
  split
  · rename_i hone
    rw [weight.value_of_isOne hone h, one_smul]
    rfl
  · rfl

theorem eval_foldl_sum (first : VectorExpr) (rest : List VectorExpr) :
    (rest.foldl .sum first).eval steps w = ((first :: rest).map (eval steps w)).sum := by
  induction rest generalizing first with
  | nil => simp
  | cons v rest ih => simp [ih, eval, add_assoc]

/-- Slopes without weight add nothing to the sum. -/
theorem sum_eval_weighted (weights : List Coefficient) (first : Nat) :
    ((((weights.zipIdx first).filter fun e => !e.1.isZero).map fun e => weighted e.1 e.2).map
      (eval steps w)).sum = weightedSum weights first w.slopes := by
  induction weights generalizing first with
  | nil => simp
  | cons weight weights ih =>
    rw [List.zipIdx_cons, weightedSum_cons, ← ih]
    cases hzero : weight.isZero with
    | true => simp [hzero, weight.value_of_isZero hzero]
    | false => simp [hzero, eval_weighted hzero]

theorem eval_combination? {weights : List Coefficient} {v : VectorExpr}
    (h : combination? weights = some v) : v.eval steps w = weightedSum weights 0 w.slopes := by
  rw [← sum_eval_weighted]
  unfold combination? at h
  split at h
  · cases h
  · rename_i first rest hweighted
    cases h
    rw [hweighted, eval_foldl_sum]

theorem weightedSum_of_combination? {weights : List Coefficient} (w : Workspace n)
    (h : combination? weights = none) : weightedSum weights 0 w.slopes = 0 := by
  rw [← @sum_eval_weighted n 0 w]
  unfold combination? at h
  split at h
  · rename_i hweighted
    rw [hweighted]
    simp
  · cases h

end VectorExpr

end CSource

namespace Tableau

theorem addScaled_ofFn {A : Arithmetic ℚ} (hadd : A.add = (· + ·)) (hmul : A.mul = (· * ·))
    (weight : ℚ) (y steps slope : Fin n → ℚ) :
    addScaled A weight (List.ofFn y) (List.ofFn steps) (List.ofFn slope) =
      List.ofFn (y + weight • slope * steps) := by
  apply List.ext_getElem?
  intro i
  rw [getElem?_addScaled, hadd, hmul]
  by_cases hi : i < n
  · simp [hi]
    ring
  · simp [hi]

/-- Slopes that are not known yet do not matter when they are zero. -/
theorem combine_ofFn (steps : Fin n → ℚ) (slopes : Nat → Fin n → ℚ) (weights : List Coefficient)
    (first count : Nat) (y : Fin n → ℚ)
    (hslopes : ∀ i, first + count ≤ i → i < first + weights.length → slopes i = 0) :
    combine .rational (List.ofFn y) (List.ofFn steps) weights
        ((List.range' first count).map fun i => List.ofFn (slopes i)) =
      List.ofFn (y + CSource.weightedSum weights first slopes * steps) := by
  induction weights generalizing first count y with
  | nil => simp [combine]
  | cons weight weights ih =>
    have hrest : ∀ count', first + 1 + count' = max (first + 1) (first + count) →
        ∀ i, first + 1 + count' ≤ i → i < first + 1 + weights.length → slopes i = 0 := by
      intro count' hcount i hi hlt
      apply hslopes i
      · omega
      · rw [List.length_cons]
        omega
    cases count with
    | zero =>
      have hzero : slopes first = 0 := hslopes first (by omega) (by simp)
      have hempty := ih (first + 1) 0 y (hrest 0 (by omega))
      rw [List.range'_zero, List.map_nil, combine, List.zip_nil_right, List.foldl_nil] at hempty ⊢
      rw [hempty, CSource.weightedSum_cons, hzero, smul_zero, zero_add]
    | succ count =>
      rw [List.range'_succ, List.map_cons, combine, List.zip_cons_cons, List.foldl_cons, ← combine,
        CSource.weightedSum_cons]
      cases hzero : weight.isZero with
      | true =>
        rw [if_pos rfl, ih _ _ _ (hrest count (by omega)), weight.value_of_isZero hzero, zero_smul,
          zero_add]
      | false =>
        rw [if_neg (by simp), addScaled_ofFn rfl rfl, ih _ _ _ (hrest count (by omega)), add_mul,
          ← add_assoc]
        rfl

/-- The row of a stage has a weight for each stage before. -/
def IsExplicit (t : Tableau) : Prop :=
  ∀ i (h : i < t.stages.length), t.stages[i].length = i

instance (t : Tableau) : Decidable t.IsExplicit :=
  inferInstanceAs (Decidable (∀ i (h : i < t.stages.length), t.stages[i].length = i))

variable {m : Type → Type} [Monad m]

/-- A function on vectors as one on lists. -/
def onLists (f : (Fin n → ℚ) → m (Fin n → ℚ)) (y : List ℚ) : m (List ℚ) :=
  List.ofFn <$> f fun i => y.getD i 0

@[simp] theorem onLists_ofFn (f : (Fin n → ℚ) → m (Fin n → ℚ)) (y : Fin n → ℚ) :
    onLists f (List.ofFn y) = List.ofFn <$> f y := by
  have hy : (fun i : Fin n => (List.ofFn y).getD i 0) = y := by
    funext i
    simp
  rw [onLists, hy]

end Tableau

namespace CSource

variable {m : Type → Type} [Monad m] [LawfulMonad m] (steps : Fin n → ℚ)
  (f : (Fin n → ℚ) → m (Fin n → ℚ)) (w : Workspace n)

theorem runLines_append (lines lines' : List IntegratorLine) :
    runLines steps f (lines ++ lines') w = runLines steps f lines w >>= runLines steps f lines' :=
  List.foldlM_append

/-- The slope of a stage is taken at the state moved along the slopes before. -/
theorem exists_runLines_stageLines (row : List Coefficient) (stage : Nat) :
    ∃ point, runLines steps f (stageLines row stage) w =
      (fun slope => { w with point, slopes := Function.update w.slopes stage slope }) <$>
        f (w.state + weightedSum row 0 w.slopes * steps) := by
  unfold stageLines
  split
  · rename_i slope hslope
    refine ⟨w.state + weightedSum row 0 w.slopes * steps, ?_⟩
    have hpoint : slope.advanced.eval steps w = w.state + weightedSum row 0 w.slopes * steps := by
      rw [← VectorExpr.eval_combination? hslope]
      rfl
    simp [runLines, IntegratorLine.run, hpoint]
  · rename_i hnone
    refine ⟨w.point, ?_⟩
    rw [VectorExpr.weightedSum_of_combination? w hnone, zero_mul, add_zero]
    simp [runLines, IntegratorLine.run]

theorem state_runLines_updateLines (weights : List Coefficient) :
    Workspace.state <$> runLines steps f (updateLines weights) w =
      pure (w.state + weightedSum weights 0 w.slopes * steps) := by
  unfold updateLines
  split
  · rename_i slope hslope
    simp only [runLines, IntegratorLine.run, List.foldlM_cons, List.foldlM_nil, pure_bind, map_pure]
    rw [← VectorExpr.eval_combination? hslope]
    rfl
  · rename_i hnone
    rw [VectorExpr.weightedSum_of_combination? w hnone, zero_mul, add_zero]
    simp [runLines]

end CSource

open CSource

namespace Tableau

variable {m : Type → Type} [Monad m] [LawfulMonad m] (steps : Fin n → ℚ)
  (f : (Fin n → ℚ) → m (Fin n → ℚ))

theorem map_range_update (slopes : Nat → Fin n → ℚ) (stage : Nat) (slope : Fin n → ℚ) :
    (List.range (stage + 1)).map (fun i => List.ofFn (Function.update slopes stage slope i)) =
      (List.range stage).map (fun i => List.ofFn (slopes i)) ++ [List.ofFn slope] := by
  have hbefore : ∀ i ∈ List.range stage,
      List.ofFn (Function.update slopes stage slope i) = List.ofFn (slopes i) := by
    intro i hi
    rw [Function.update_of_ne (List.mem_range.mp hi).ne]
  rw [List.range_succ, List.map_append, List.map_congr_left hbefore]
  simp

/-- What is left of a step, where the slopes of the stages before are known. -/
theorem state_runLines_rows (update : List Coefficient) (rows : List (List Coefficient))
    (stage : Nat) (w : Workspace n)
    (hrows : ∀ i (h : i < rows.length), rows[i].length = stage + i)
    (hupdate : ∀ i, stage + rows.length ≤ i → i < update.length → w.slopes i = 0) :
    (fun w => List.ofFn w.state) <$> runLines steps f
        ((rows.zipIdx stage).flatMap (fun e => stageLines e.1 e.2) ++ updateLines update) w =
      combine .rational (List.ofFn w.state) (List.ofFn steps) update <$>
        slopesM .rational (List.ofFn w.state) (List.ofFn steps) (onLists f) rows
          ((List.range stage).map fun i => List.ofFn (w.slopes i)) := by
  induction rows generalizing stage w with
  | nil =>
    have hstate := congrArg (Functor.map List.ofFn) (state_runLines_updateLines steps f w update)
    rw [Functor.map_map, map_pure] at hstate
    have hcombine := combine_ofFn steps w.slopes update 0 stage w.state (by simpa using hupdate)
    rw [← List.range_eq_range'] at hcombine
    simpa [slopesM, hcombine] using hstate
  | cons row rows ih =>
    obtain ⟨point, hstage⟩ := exists_runLines_stageLines steps f w row stage
    have hlength : row.length = stage := hrows 0 (by simp)
    have hcombine := combine_ofFn steps w.slopes row 0 stage w.state (by omega)
    rw [← List.range_eq_range'] at hcombine
    rw [List.zipIdx_cons, List.flatMap_cons, List.append_assoc, runLines_append, hstage,
      slopesM, hcombine, onLists_ofFn]
    simp only [map_eq_pure_bind, bind_assoc, pure_bind]
    apply bind_congr
    intro slope
    have hrest := ih (stage + 1) { w with point, slopes := Function.update w.slopes stage slope }
      (by
        intro i hi
        have hrow := hrows (i + 1) (by simpa using hi)
        rw [List.getElem_cons_succ] at hrow
        omega)
      (by
        intro i hi hlt
        rw [List.length_cons] at hupdate
        rw [← hupdate i (by omega) hlt]
        exact Function.update_of_ne (by omega) _ _)
    rw [map_range_update] at hrest
    simpa only [map_eq_pure_bind] using hrest

/-- Weights of the update beyond the stages read slopes that no line sets. -/
theorem state_runLines_lines (t : Tableau) (w : Workspace n) (ht : t.IsExplicit)
    (hupdate : ∀ i, t.stages.length ≤ i → i < t.update.length → w.slopes i = 0) :
    (fun w => List.ofFn w.state) <$> runLines steps f t.lines w =
      t.stepM .rational (List.ofFn w.state) (List.ofFn steps) (onLists f) := by
  have hrun := state_runLines_rows steps f t.update t.stages 0 w (by simpa [IsExplicit] using ht)
    (by simpa using hupdate)
  rw [lines, hrun, stepM, map_eq_pure_bind]
  rfl

end Tableau

theorem Scheme.isExplicit_tableau (s : Scheme) : s.tableau.IsExplicit := by
  cases s <;> decide

end DiffAnalyzer
