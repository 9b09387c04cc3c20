import DiffAnalyzer.EquationSet.Basic
import DiffAnalyzer.TopologicalOrder

/-!
# Classification

The variables of a circuit fall into five groups: constants, evolved variables, and
three kinds of auxiliaries.  An integrator breaks a feedback loop, so only edges to
auxiliaries take part in the sort; auxiliaries on a loop that no integrator breaks, or
below such a loop, are *cyclic*, and those that nothing depends on are *unneeded*.
-/

namespace DiffAnalyzer

/-- The groups of variables. -/
inductive Category where
  | constant
  | auxSorted
  | auxCyclic
  | evolved
  | auxUnneeded
deriving DecidableEq, Repr

instance : ToString Category where
  toString
    | .constant => "constants"
    | .auxSorted => "aux.sorted"
    | .auxCyclic => "aux.cyclic"
    | .evolved => "evolved"
    | .auxUnneeded => "aux.unneeded"

/-- A finding that does not stop a compilation. -/
inductive Warning where
  | cyclicAuxiliary (names : List Atom)
  | unneededAuxiliary (names : List Atom)
  | noEvolvedVariables
deriving DecidableEq, Repr

def Warning.message : Warning → String
  | .cyclicAuxiliary names =>
    s!"auxiliary variables {joinNames names} form a feedback loop without an integrator, " ++
      "their evaluation order is best effort"
  | .unneededAuxiliary names =>
    s!"auxiliary variables {joinNames names} are not needed for the time evolution"
  | .noEvolvedVariables => "no variable is evolved in time"

/-- The variables of an equation set by role. -/
structure Classification where
  /-- Names bound to an explicit constant, sorted. -/
  constants : List Atom
  /-- Names bound to an integration or differentiation, sorted. -/
  evolved : List Atom
  /-- Auxiliaries that others depend on, dependencies first. -/
  auxSorted : List Atom
  /-- Auxiliaries on or below a feedback loop. -/
  auxCyclic : List Atom
  /-- The remaining auxiliaries, sorted. -/
  auxUnneeded : List Atom
  /-- Every bound or referenced variable, sorted. -/
  all : List Atom
deriving DecidableEq, Repr

namespace Classification

/-- The groups in the order in which they are evaluated. -/
def ordering (c : Classification) : List (Category × List Atom) :=
  [(.constant, c.constants), (.auxSorted, c.auxSorted), (.auxCyclic, c.auxCyclic),
    (.evolved, c.evolved), (.auxUnneeded, c.auxUnneeded)]

/-- The group of a name. -/
def category? (c : Classification) (name : Atom) : Option Category :=
  (c.ordering.find? fun g => g.2.contains name).map Prod.fst

/-- Every variable that is neither constant nor evolved. -/
def auxiliaries (c : Classification) : List Atom :=
  c.all.filter fun name => !c.constants.contains name && !c.evolved.contains name

/-- The names that occur more than once in a list, in order. -/
def repeated (names : List Atom) : List Atom :=
  sortDistinct (names.filter fun name => 1 < names.count name)

/-- Check that each bound name is in exactly one group, and in it once. -/
def verify (c : Classification) (s : EquationSet) : Except CompileError Unit :=
  let grouped := c.ordering.flatMap Prod.snd
  let missing := s.keys.filter fun name => !grouped.contains name
  let duplicated := repeated grouped
  if missing.isEmpty && duplicated.isEmpty then .ok ()
  else .error (.classificationLoss missing duplicated)

def warnings (c : Classification) : List Warning :=
  (if c.evolved.isEmpty then [.noEvolvedVariables] else []) ++
    (if c.auxCyclic.isEmpty then [] else [.cyclicAuxiliary c.auxCyclic]) ++
    (if c.auxUnneeded.isEmpty then [] else [.unneededAuxiliary c.auxUnneeded])

/-- One group per line, titles padded to a common width. -/
def text (c : Classification) : String :=
  "".intercalate (c.ordering.map fun g =>
    String.ofList ((toString g.1).toList.rightpad 14 ' ') ++ ": [" ++ joinNames g.2 ++ "]\n")

end Classification

namespace EquationSet

/-- The names bound to an application of an element of some kind, in order. -/
def namesWhere (s : EquationSet) (v : Vocabulary) (p : Element → Bool) : List Atom :=
  (s.filter fun _ rhs => rhs.isCompound && p (v.resolve rhs.head)).keys

/-- Classify the variables of a set in linear form. -/
def classify (s : EquationSet) (v : Vocabulary) : Except CompileError Classification := do
  let evolved := s.namesWhere v Element.isEvolving
  let constants := s.namesWhere v Element.isConstant
  let aux := s.vars.filter fun name => !evolved.contains name && !constants.contains name
  let sorted := topologicalSort (s.dependencyGraph.filter fun e => aux.contains e.2)
  let auxSorted := sorted.ordered.filter aux.contains
  let auxCyclic := sorted.cyclic.filter aux.contains
  let auxUnneeded := aux.filter fun name => !auxSorted.contains name && !auxCyclic.contains name
  let c : Classification :=
    { constants, evolved, auxSorted, auxCyclic, auxUnneeded, all := s.vars }
  c.verify s
  pure c

end EquationSet

end DiffAnalyzer
