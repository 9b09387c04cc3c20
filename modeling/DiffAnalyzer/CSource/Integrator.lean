import DiffAnalyzer.Number.Text
import DiffAnalyzer.Scheme

/-!
# The integrator in C

The generated function `integrate` has a case for each scheme.  A case is a
straight-line program over vectors: the state, a point `y`, and the slopes `k` of the
stages.  `Tableau.lines` writes it for any tableau: slopes without weight are left out,
a weight of one is not written, and a stage without weights starts from the state.
-/

namespace DiffAnalyzer

namespace CSource

/-- A vector computed from state, slopes and step sizes. -/
inductive VectorExpr where
  | state
  | slope (stage : Nat)
  | scaled (v : VectorExpr) (weight : Coefficient)
  | timesStep (v : VectorExpr)
  | sum (u v : VectorExpr)
deriving DecidableEq, Repr

inductive IntegratorLine where
  /-- Compute the point `y`. -/
  | setPoint (v : VectorExpr)
  /-- Compute the slope of a stage at the point `y`. -/
  | slopeAtPoint (stage : Nat)
  /-- Compute the slope of a stage at the state. -/
  | slopeAtState (stage : Nat)
  /-- Replace the state. -/
  | setState (v : VectorExpr)
deriving DecidableEq, Repr

namespace VectorExpr

/-- The slope of a stage with its weight. -/
def weighted (weight : Coefficient) (stage : Nat) : VectorExpr :=
  if weight.isOne then .slope stage else .scaled (.slope stage) weight

/-- The sum of the slopes with their weights, if any has one. -/
def combination? (weights : List Coefficient) : Option VectorExpr :=
  match (weights.zipIdx.filter fun e => !e.1.isZero).map fun e => weighted e.1 e.2 with
  | [] => none
  | first :: rest => some (rest.foldl .sum first)

/-- The state moved along a slope by one step. -/
def advanced (slope : VectorExpr) : VectorExpr := .sum .state (.timesStep slope)

def text : VectorExpr → String
  | .state => "*state"
  | .slope stage => "k[" ++ toString stage ++ "]"
  | .scaled v weight =>
    "state_scale(" ++ v.text ++ ", " ++ String.ofList weight.toNumber.sourceText ++ ")"
  | .timesStep v => "state_mul_dt(" ++ v.text ++ ")"
  | .sum u v => "state_add(" ++ u.text ++ ", " ++ v.text ++ ")"

end VectorExpr

/-- The slope of one stage. -/
def stageLines (row : List Coefficient) (stage : Nat) : List IntegratorLine :=
  match VectorExpr.combination? row with
  | some slope => [.setPoint slope.advanced, .slopeAtPoint stage]
  | none => [.slopeAtState stage]

/-- The final update of the state. -/
def updateLines (weights : List Coefficient) : List IntegratorLine :=
  match VectorExpr.combination? weights with
  | some slope => [.setState slope.advanced]
  | none => []

def IntegratorLine.text : IntegratorLine → String
  | .setPoint v => "        y = " ++ v.text ++ ";\n"
  | .slopeAtPoint stage => "        f(&y, &k[" ++ toString stage ++ "], aux);\n"
  | .slopeAtState stage => "        f(state, &k[" ++ toString stage ++ "], aux);\n"
  | .setState v => "        *state = " ++ v.text ++ ";\n"

end CSource

open CSource

/-- A step with a tableau, line by line. -/
def Tableau.lines (t : Tableau) : List IntegratorLine :=
  t.stages.zipIdx.flatMap (fun e => stageLines e.1 e.2) ++ updateLines t.update

/-- The case of a scheme. -/
def Scheme.caseText (s : Scheme) : String :=
  "    case " ++ toString s.order ++ ": // " ++ toString s ++ "\n" ++
    "".intercalate (s.tableau.lines.map IntegratorLine.text) ++ "        break;\n"

/-- The function `integrate`. -/
def integratorText : String :=
  let stages := toString ((Scheme.all.map Scheme.order).foldl max 0)
  "\nstatic void integrate(state_t *state, aux_t *aux, int rk_order) \x7b\n" ++
    "    state_t k[" ++ stages ++ "], y;\n" ++
    "    (void) y;\n" ++
    "    switch (rk_order) \x7b\n" ++
    "".intercalate (Scheme.all.map Scheme.caseText) ++
    "    default:\n" ++
    "        fprintf(stderr, \"ERR: rk_order must be between 1 and " ++ stages ++ "\\n\");\n" ++
    "        exit(3);\n" ++
    "    \x7d\n" ++
    "\x7d\n"

end DiffAnalyzer
