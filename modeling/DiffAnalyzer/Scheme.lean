import DiffAnalyzer.Number.Decimal

/-!
# Explicit Runge–Kutta schemes

A scheme is given by a tableau of rational coefficients.  A step needs only sums and
products of state components, so it is stated over any carrier with those operations
and with a value for each coefficient.
-/

namespace DiffAnalyzer

/-- The rational `num / den`. -/
structure Coefficient where
  num : Int
  den : Nat
deriving DecidableEq, Repr

namespace Coefficient

/-- The literal nearest to the coefficient. -/
def toNumber (c : Coefficient) : Number :=
  .ofMagnitude (c.num < 0) (nearestMagnitude c.num.natAbs c.den)

def isZero (c : Coefficient) : Bool := c.num == 0

def isOne (c : Coefficient) : Bool := c.num == c.den

end Coefficient

/-- What a step computes with. -/
structure Arithmetic (V : Type) where
  add : V → V → V
  mul : V → V → V
  weight : Coefficient → V

/-- Coefficients of the stages, row by row, and of the update. -/
structure Tableau where
  stages : List (List Coefficient)
  update : List Coefficient
deriving DecidableEq, Repr

/-- Schemes for integration in time. -/
inductive Scheme where
  | euler
  | midpoint
  | kutta3
  | classic4
deriving DecidableEq, Repr

namespace Scheme

/-- All schemes by increasing order. -/
def all : List Scheme := [euler, midpoint, kutta3, classic4]

/-- Order of accuracy, which is also the number of stages. -/
def order : Scheme → Nat
  | .euler => 1
  | .midpoint => 2
  | .kutta3 => 3
  | .classic4 => 4

def ofOrder? (order : Nat) : Option Scheme := all.find? fun s => s.order == order

instance : ToString Scheme where
  toString
    | .euler => "explicit Euler"
    | .midpoint => "explicit midpoint"
    | .kutta3 => "Kutta's third order"
    | .classic4 => "classical fourth order"

def tableau : Scheme → Tableau
  | .euler => ⟨[[]], [⟨1, 1⟩]⟩
  | .midpoint => ⟨[[], [⟨1, 2⟩]], [⟨0, 1⟩, ⟨1, 1⟩]⟩
  | .kutta3 => ⟨[[], [⟨1, 2⟩], [⟨-1, 1⟩, ⟨2, 1⟩]], [⟨1, 6⟩, ⟨4, 6⟩, ⟨1, 6⟩]⟩
  | .classic4 =>
    ⟨[[], [⟨1, 2⟩], [⟨0, 1⟩, ⟨1, 2⟩], [⟨0, 1⟩, ⟨0, 1⟩, ⟨1, 1⟩]],
      [⟨1, 6⟩, ⟨2, 6⟩, ⟨2, 6⟩, ⟨1, 6⟩]⟩

end Scheme

namespace Tableau

variable {V : Type} (A : Arithmetic V)

/-- Add `(h * weight) * slope` to each component. -/
def addScaled (weight : V) : (values steps slopes : List V) → List V
  | value :: values, h :: steps, slope :: slopes =>
    A.add value (A.mul (A.mul h weight) slope) :: addScaled weight values steps slopes
  | values, _, _ => values

/-- Add the slopes to `y`, each with its weight; slopes without weight are left out. -/
def combine (y steps : List V) (weights : List Coefficient) (slopes : List (List V)) : List V :=
  (weights.zip slopes).foldl
    (fun sum e => if e.1.isZero then sum else addScaled A (A.weight e.1) sum steps e.2) y

variable {m : Type → Type} [Monad m]

/-- Evaluate the slopes of the remaining stages after those in `slopes`. -/
def slopesM (y steps : List V) (f : List V → m (List V)) :
    (rows : List (List Coefficient)) → (slopes : List (List V)) → m (List (List V))
  | [], slopes => pure slopes
  | row :: rows, slopes => do
    let slope ← f (combine A y steps row slopes)
    slopesM y steps f rows (slopes ++ [slope])

/-- Advance `y` by one step, with a step size for each component. -/
def stepM (t : Tableau) (y steps : List V) (f : List V → m (List V)) : m (List V) := do
  let slopes ← slopesM A y steps f t.stages []
  pure (combine A y steps t.update slopes)

end Tableau

theorem Scheme.stages_length (s : Scheme) : s.tableau.stages.length = s.order := by
  cases s <;> rfl

theorem Scheme.update_length (s : Scheme) : s.tableau.update.length = s.order := by
  cases s <;> rfl

@[simp] theorem Scheme.ofOrder?_order (s : Scheme) : Scheme.ofOrder? s.order = some s := by
  cases s <;> rfl

end DiffAnalyzer
