import DiffAnalyzer.Element
import DiffAnalyzer.Term.Basic

/-!
# Errors of analysis and code generation

Each constructor is a cause; `CompileError.message` words it.
-/

namespace DiffAnalyzer

/-- What can be asked to realise a program. -/
inductive Backend where
  | c
  | simulator
deriving DecidableEq, Repr

instance : ToString Backend where
  toString
    | .c => "C"
    | .simulator => "simulator"

/-- The two parameters at the end of an integrator. -/
inductive ParameterRole where
  | stepSize
  | initialValue
deriving DecidableEq, Repr

instance : ToString ParameterRole where
  toString
    | .stepSize => "step size"
    | .initialValue => "initial value"

/-- What is wrong with a definition. -/
inductive ShapeFault where
  | argumentCount (element : Element) (arity : Arity) (term : Term)
  | noLiteral (rhs : Term)
  | fewArguments (element : Element) (rhs : Term)
  | nested (term : Term)
  | compoundParameter (role : ParameterRole) (term : Term)
  | variableParameter (role : ParameterRole) (term : Term)
deriving DecidableEq, Repr

def ShapeFault.message : ShapeFault → String
  | .argumentCount element arity term =>
    s!"`{element}` takes {arity} arguments, but {term.tail.length} given in `{term}`"
  | .noLiteral rhs => s!"`{rhs}` must wrap a number literal"
  | .fewArguments element rhs =>
    s!"`{element}` requires at least {element}(value, dt, ic), got `{rhs}`"
  | .nested term => s!"nested term `{term}` left, the equations are not linearized"
  | .compoundParameter role term => s!"{role} must be a constant, got `{term}`"
  | .variableParameter role term => s!"{role} must be a constant, but `{term}` is not"

/-- Why a circuit cannot be analysed or realised. -/
inductive CompileError where
  | malformedTerm (name : String)
  | unknownElement (head : Atom) (term : Term)
  | shape (definition : Atom) (fault : ShapeFault)
  | undefinedVariable (name : Atom)
  | classificationLoss (missing duplicated : List Atom)
  | cyclicAuxiliary (names : List Atom)
  | emptyIdentifier (name : String)
  | nameExhaustion (base : Atom)
  | unsupported (element : Element) (backend : Backend)
deriving DecidableEq, Repr

/-- Names separated by a comma and a blank. -/
def joinNames (names : List Atom) : String := ", ".intercalate (names.map toString)

private def quotedNames (names : List Atom) : String :=
  "[" ++ ", ".intercalate (names.map fun name => "\x22" ++ toString name ++ "\x22") ++ "]"

def CompileError.message : CompileError → String
  | .malformedTerm name => s!"malformed term: `{name}` is not an identifier"
  | .unknownElement head term => s!"unknown computing element `{head}` in `{term}`"
  | .shape definition fault => s!"in definition of `{definition}`: {fault.message}"
  | .undefinedVariable name => s!"variable `{name}` is referenced but never defined"
  | .classificationLoss missing duplicated =>
    s!"internal compiler error: classification lost {quotedNames missing} and duplicated " ++
      quotedNames duplicated
  | .cyclicAuxiliary names => s!"feedback loop between auxiliary variables: {joinNames names}"
  | .emptyIdentifier name => s!"identifier `{name}` is empty after sanitization"
  | .nameExhaustion base => s!"could not find a free name for `{base}`"
  | .unsupported element backend =>
    s!"computing element `{element}` is not supported by the {backend} back end"

/-- The error signals a fault of the analysis itself rather than of the circuit. -/
def CompileError.isInternal : CompileError → Bool
  | .classificationLoss _ _ => true
  | _ => false

/-- The atom spelled by a text, or the error that it spells none. -/
def Atom.ofString (name : String) : Except CompileError Atom :=
  match Atom.ofChars? name.toList with
  | some a => .ok a
  | none => .error (.malformedTerm name)

end DiffAnalyzer
