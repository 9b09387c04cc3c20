import DiffAnalyzer.Proofs.Integrator
import Mathlib

/-!
# Order of accuracy

Where the slopes depend linearly on the state, a step multiplies the state by a polynomial in the
product of step sizes and matrix, the stability function of the tableau (`Tableau.stepM_mulVec`).
For each scheme this polynomial is the exponential series up to the order of the scheme
(`Scheme.stability_tableau`), so that a step is exact up to this order (`Scheme.stepM_exponential`).
Components may have different step sizes, and step sizes and matrix need not commute.
-/

namespace DiffAnalyzer

open Matrix

/-- The rational a coefficient is written as. -/
def Coefficient.ratio (c : Coefficient) : ℚ := c.num / c.den

theorem Coefficient.ratio_of_isZero {c : Coefficient} (h : c.isZero = true) : c.ratio = 0 := by
  have hnum : c.num = 0 := beq_iff_eq.mp h
  rw [ratio, hnum, Int.cast_zero, zero_div]

/-- Exact arithmetic, with coefficients as they are written. -/
def Arithmetic.exact : Arithmetic ℚ where
  add := (· + ·)
  mul := (· * ·)
  weight := Coefficient.ratio

section Stability

variable {R : Type} [Ring R] [Algebra ℚ R]

namespace Tableau

/-- The sum of the values, each with its weight. -/
def weigh (weights : List Coefficient) (values : List R) : R :=
  (List.zipWith (fun weight value => weight.ratio • value) weights values).sum

@[simp] theorem weigh_nil_left (values : List R) : weigh [] values = 0 := rfl

@[simp] theorem weigh_nil_right (weights : List Coefficient) : weigh weights ([] : List R) = 0 := by
  rw [weigh, List.zipWith_nil_right, List.sum_nil]

@[simp] theorem weigh_cons (weight : Coefficient) (weights : List Coefficient) (value : R)
    (values : List R) :
    weigh (weight :: weights) (value :: values) = weight.ratio • value + weigh weights values := by
  rw [weigh, List.zipWith_cons_cons, List.sum_cons, weigh]

/-- What takes the state to the points of the remaining stages, after those in `factors`. -/
def stageFactors (z : R) : (rows : List (List Coefficient)) → (factors : List R) → List R
  | [], factors => factors
  | row :: rows, factors => stageFactors z rows (factors ++ [1 + z * weigh row factors])

/-- The stability function: what a step multiplies the state by where a slope, times the step
size, is `z` times the point at which it is taken. -/
def stability (t : Tableau) (z : R) : R := 1 + z * weigh t.update (stageFactors z t.stages [])

end Tableau

/-- The stability function of a scheme is the exponential series up to the order of the scheme. -/
theorem Scheme.stability_tableau (s : Scheme) (z : R) :
    s.tableau.stability z =
      ∑ j ∈ Finset.range (s.order + 1), (1 / (j.factorial : ℚ)) • z ^ j := by
  -- multiplied out, both sides are combinations of powers of `z`, with rational coefficients
  cases s <;>
    simp only [Tableau.stability, Tableau.stageFactors, tableau, order, Coefficient.ratio,
      Tableau.weigh_cons, Tableau.weigh_nil_left, List.nil_append, List.cons_append,
      Finset.sum_range_succ, Finset.sum_range_zero, Nat.factorial, mul_add, mul_smul_comm,
      smul_add, smul_smul, mul_one, mul_zero, pow_zero, pow_one, ← pow_succ', ← pow_two] <;>
    norm_num <;>
    module

end Stability

variable {n : ℕ} (A : Matrix (Fin n) (Fin n) ℚ) (steps y : Fin n → ℚ)

namespace Tableau

/-- Slopes taken at multiples of the state move a vector by a multiple of the state. -/
theorem combine_mulVec (weights : List Coefficient) (factors : List (Matrix (Fin n) (Fin n) ℚ))
    (start : Fin n → ℚ) :
    combine .exact (List.ofFn start) (List.ofFn steps) weights
        (factors.map fun F => List.ofFn (A *ᵥ (F *ᵥ y))) =
      List.ofFn (start + (diagonal steps * A * weigh weights factors) *ᵥ y) := by
  induction weights generalizing factors start with
  | nil => simp [combine]
  | cons weight weights ih =>
    cases factors with
    | nil => simp [combine]
    | cons F factors =>
      rw [List.map_cons, combine, List.zip_cons_cons, List.foldl_cons, ← combine, weigh_cons,
        mul_add, add_mulVec]
      cases hzero : weight.isZero with
      | true =>
        rw [if_pos rfl, ih, weight.ratio_of_isZero hzero, zero_smul, mul_zero, zero_mulVec,
          zero_add]
      | false =>
        have hmove : (diagonal steps * A * weight.ratio • F) *ᵥ y =
            weight.ratio • (A *ᵥ (F *ᵥ y)) * steps := by
          rw [mul_smul_comm, smul_mulVec, ← mulVec_mulVec, ← mulVec_mulVec]
          ext i
          rw [Pi.smul_apply, mulVec_diagonal, smul_eq_mul, Pi.mul_apply, Pi.smul_apply,
            smul_eq_mul]
          ring
        rw [if_neg (by simp), addScaled_ofFn rfl rfl, ih, hmove, add_assoc]
        rfl

variable {m : Type → Type} [Monad m] [LawfulMonad m]

/-- Each stage is taken at a multiple of the state. -/
theorem slopesM_mulVec (rows : List (List Coefficient))
    (factors : List (Matrix (Fin n) (Fin n) ℚ)) :
    slopesM .exact (List.ofFn y) (List.ofFn steps) (onLists fun x => (pure (A *ᵥ x) : m _)) rows
        (factors.map fun F => List.ofFn (A *ᵥ (F *ᵥ y))) =
      pure ((stageFactors (diagonal steps * A) rows factors).map fun F =>
        List.ofFn (A *ᵥ (F *ᵥ y))) := by
  induction rows generalizing factors with
  | nil => rfl
  | cons row rows ih =>
    have hpoint : y + (diagonal steps * A * weigh row factors) *ᵥ y =
        (1 + diagonal steps * A * weigh row factors) *ᵥ y := by
      rw [add_mulVec, one_mulVec]
    rw [slopesM, combine_mulVec, hpoint, onLists_ofFn, map_pure, pure_bind, stageFactors, ← ih,
      List.map_append]
    rfl

/-- On linear slopes a step multiplies the state by the stability function. -/
theorem stepM_mulVec (t : Tableau) :
    t.stepM .exact (List.ofFn y) (List.ofFn steps) (onLists fun x => (pure (A *ᵥ x) : m _)) =
      pure (List.ofFn (t.stability (diagonal steps * A) *ᵥ y)) := by
  have hslopes := slopesM_mulVec (m := m) A steps y t.stages []
  rw [List.map_nil] at hslopes
  rw [stepM, hslopes, pure_bind, combine_mulVec, stability, add_mulVec, one_mulVec]

end Tableau

/-- On linear slopes a step of a scheme is the exponential series up to its order, in exact
arithmetic, with any number of components and any step sizes. -/
theorem Scheme.stepM_exponential {m : Type → Type} [Monad m] [LawfulMonad m] (s : Scheme) :
    s.tableau.stepM .exact (List.ofFn y) (List.ofFn steps)
        (Tableau.onLists fun x => (pure (A *ᵥ x) : m _)) =
      pure (List.ofFn (∑ j ∈ Finset.range (s.order + 1),
        (1 / (j.factorial : ℚ)) • ((diagonal steps * A) ^ j *ᵥ y))) := by
  rw [Tableau.stepM_mulVec, stability_tableau, sum_mulVec]
  simp only [smul_mulVec]

/-- A rotation whose components have different step sizes. -/
theorem Scheme.stepM_exponential_rotation :
    let A : Matrix (Fin 2) (Fin 2) ℚ := !![0, 1; -1, 0]
    let steps : Fin 2 → ℚ := ![1 / 2, 1]
    let result := classic4.tableau.stepM .exact [1, 0] (List.ofFn steps)
      (Tableau.onLists fun x => some (A *ᵥ x))
    result = some (List.ofFn (∑ j ∈ Finset.range 5,
        (1 / (j.factorial : ℚ)) • ((diagonal steps * A) ^ j *ᵥ ![1, 0]))) ∧
      result = some [73 / 96, -11 / 12] := by
  intro A steps result
  exact ⟨stepM_exponential A steps ![1, 0] classic4, by decide +kernel⟩

end DiffAnalyzer
