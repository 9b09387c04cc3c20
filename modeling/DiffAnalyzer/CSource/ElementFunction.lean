import DiffAnalyzer.Element

/-!
# Element functions

A generated program starts with one inline function for each element that is neither
an operator nor an integrator.
-/

namespace DiffAnalyzer

namespace CSource

/-- A function of one to four parameters, named `a` to `d`. -/
structure ElementFunction where
  element : Element
  parameters : Nat
  body : String
deriving DecidableEq, Repr

namespace ElementFunction

def all : List ElementFunction := [
  ⟨.neg, 1, "-a"⟩,
  ⟨.div, 2, "a / b"⟩,
  ⟨.deadUpper, 2, "a > b ? a - b : 0"⟩,
  ⟨.deadLower, 2, "a < b ? a - b : 0"⟩,
  ⟨.min, 2, "a < b ? a : b"⟩,
  ⟨.max, 2, "a > b ? a : b"⟩,
  ⟨.lt, 4, "a < b ? c : d"⟩,
  ⟨.le, 4, "a <= b ? c : d"⟩,
  ⟨.gt, 4, "a > b ? c : d"⟩,
  ⟨.ge, 4, "a >= b ? c : d"⟩,
  ⟨.sqrt, 1, "sqrt(a)"⟩,
  ⟨.abs, 1, "fabs(a)"⟩,
  ⟨.exp, 1, "exp(a)"⟩,
  ⟨.floor, 1, "trunc(a)"⟩,
  ⟨.sign, 1, "a > 0 ? 1 : (a < 0 ? -1 : 0)"⟩,
  ⟨.noise, 1, "a * (2.0 * rand() / RAND_MAX - 1.0)"⟩,
  ⟨.logicalXor, 2, "(a > 0) != (b > 0)"⟩,
  ⟨.arcsin, 1, "asin(a)"⟩]

/-- The name of the function that computes an element. -/
def nameOf (element : Element) : String := "dda_" ++ toString element

def parameterNames : List String := ["a", "b", "c", "d"]

def text (f : ElementFunction) : String :=
  let parameters := (parameterNames.take f.parameters).map ("double " ++ ·)
  "static inline double " ++ nameOf f.element ++ "(" ++ ", ".intercalate parameters ++
    ") \x7b return " ++ f.body ++ "; \x7d\n"

end ElementFunction

end CSource

end DiffAnalyzer
