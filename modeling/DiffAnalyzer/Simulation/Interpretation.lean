import DiffAnalyzer.Error
import DiffAnalyzer.Scheme

/-!
# Interpretations

A simulation runs over any carrier that literals, elements and scheme coefficients have
a meaning in.  `Interpretation.float` is the meaning in binary64 arithmetic.

Noise and function generators have no meaning in a simulation, nor do unknown heads;
`Element.refusal?` is their error.
-/

namespace DiffAnalyzer

/-- What a simulation computes with. -/
structure Interpretation (V : Type) extends Arithmetic V where
  literal : Number → V
  apply : Element → List V → V

/-- Why a simulation cannot apply an element. -/
def Element.refusal? : Element → Option CompileError
  | .noise => some (.unsupported .noise .simulator)
  | .funcgen => some (.unsupported .funcgen .simulator)
  | .unknown head => some (.unknownElement head (.var head))
  | _ => none

namespace Interpretation

variable {V : Type} (I : Interpretation V)

def zero : V := I.literal .zero

/-- What a missing value reads as. -/
def missing : V := I.literal .nan

/-- Apply an element that a simulation supports. -/
def applyElement (element : Element) (args : List V) : Except CompileError V :=
  match element.refusal? with
  | some e => .error e
  | none => .ok (I.apply element args)

end Interpretation

/-- Binary64 arithmetic on the elements.  Integrators yield their derivative, which like
a sum is negated; a missing argument is NaN. -/
def floatApply (element : Element) (args : List Float) : Float :=
  let arg (i : Nat) : Float := args.getD i (0 / 0)
  let select (c : Bool) (x y : Float) : Float := if c then x else y
  match element with
  | .const => arg 0
  | .neg => -(arg 0)
  | .div => arg 0 / arg 1
  | .int | .diff | .sum => -(args.foldl (· + ·) (-0.0))
  | .mult => args.foldl (· * ·) 1
  | .deadUpper => select (arg 0 > arg 1) (arg 0 - arg 1) 0
  | .deadLower => select (arg 0 < arg 1) (arg 0 - arg 1) 0
  | .min => select (arg 0 < arg 1) (arg 0) (arg 1)
  | .max => select (arg 0 > arg 1) (arg 0) (arg 1)
  | .lt => select (arg 0 < arg 1) (arg 2) (arg 3)
  | .le => select (arg 0 ≤ arg 1) (arg 2) (arg 3)
  | .gt => select (arg 0 > arg 1) (arg 2) (arg 3)
  | .ge => select (arg 0 ≥ arg 1) (arg 2) (arg 3)
  | .sqrt => (arg 0).sqrt
  | .abs => (arg 0).abs
  | .exp => (arg 0).exp
  | .floor => select (arg 0 < 0) (arg 0).ceil (arg 0).floor
  | .sign => select (arg 0 > 0) 1 (select (arg 0 < 0) (-1) 0)
  | .logicalXor => select (xor (arg 0 > 0) (arg 1 > 0)) 1 0
  | .arcsin => (arg 0).asin
  | .noise | .funcgen | .unknown _ => 0 / 0

def Interpretation.float : Interpretation Float where
  add := (· + ·)
  mul := (· * ·)
  weight c := c.toNumber.toFloat
  literal := Number.toFloat
  apply := floatApply

end DiffAnalyzer
