import DiffAnalyzer.Classification
import DiffAnalyzer.Program.Basic

/-!
# Assembling programs

`Program.assemble` turns equations in linear form and their classification into a
program.  Each evolved variable becomes a state field with a derivative statement, each
auxiliary a field with a statement in the block of its group, and each constant a
field with a value.
-/

namespace DiffAnalyzer

/-- What the statements of a program are made from. -/
structure Assembly where
  vocabulary : Vocabulary
  equations : EquationSet
  layout : Layout

namespace Assembly

variable (a : Assembly)

def rhs (name : Atom) : Except CompileError Term :=
  match a.equations.get? name with
  | some rhs => .ok rhs
  | none => .error (.undefinedVariable name)

/-- The element at the head of a term, once it is known and its arguments are counted. -/
def element (name : Atom) (term : Term) : Except CompileError Element :=
  match a.vocabulary.resolve term.head with
  | .unknown head => .error (.unknownElement head term)
  | element =>
    match a.vocabulary.arity? element with
    | some arity =>
      if arity.accepts term.tail.length then .ok element
      else .error (.shape name (.argumentCount element arity term))
    | none => .ok element

/-- The value of a term `const(number)`. -/
def literal? (term : Term) : Option Number :=
  match term.tail with
  | [.number value] => if term.head == Element.const.name then some value else none
  | _ => none

def constantValue (name : Atom) : Except CompileError Number := do
  let rhs ← a.rhs name
  let _ ← a.element name rhs
  match rhs.tail with
  | [.number value] => pure value
  | _ => throw (.shape name (.noLiteral rhs))

def variableOperand (name : Atom) : Except CompileError Operand :=
  match a.layout.slot? name with
  | some slot => .ok (.slot slot)
  | none => .error (.undefinedVariable name)

def operand (name : Atom) : Arg → Except CompileError Operand
  | .number value => .ok (.number value)
  | .node head [] => a.variableOperand head
  | .node head tail =>
    match literal? ⟨head, tail⟩ with
    | some value => .ok (.number value)
    | none => .error (.shape name (.nested ⟨head, tail⟩))

def fieldIndex (r : Record) (name : Atom) : Except CompileError Nat :=
  match r.indexOf? name with
  | some index => .ok index
  | none => .error (.undefinedVariable name)

/-- Follow equations between bare variables to a constant, for at most `steps` names. -/
def constantBehind? : Nat → Atom → Option Nat
  | 0, _ => none
  | steps + 1, name =>
    match a.layout.constants.indexOf? name with
    | some index => some index
    | none =>
      match a.equations.get? name with
      | some rhs =>
        if rhs.isVariable && rhs.head != name then constantBehind? steps rhs.head else none
      | none => none

/-- A literal, a term `const(number)`, or a variable that stands for a constant.  A chain
of names longer than the set of equations runs in a circle. -/
def parameter (name : Atom) (role : ParameterRole) : Arg → Except CompileError Parameter
  | .number value => .ok (.number value)
  | .node head tail =>
    match literal? ⟨head, tail⟩ with
    | some value => .ok (.number value)
    | none =>
      if !tail.isEmpty then .error (.shape name (.compoundParameter role ⟨head, tail⟩))
      else
        match a.constantBehind? (a.equations.size + 1) head with
        | some index => .ok (.constant index)
        | none => .error (.shape name (.variableParameter role ⟨head, tail⟩))

def describe (name : Atom) (rhs : Term) : String := toString name ++ " = " ++ toString rhs

/-- An evolved variable: its derivative, its step size and its initial value. -/
structure Evolution where
  derivative : Statement
  step : Parameter
  initial : Parameter

def evolution (name : Atom) : Except CompileError Evolution := do
  let rhs ← a.rhs name
  let element ← a.element name rhs
  match rhs.tail.reverse with
  | initial :: step :: input :: inputs =>
    let step ← a.parameter name .stepSize step
    let initial ← a.parameter name .initialValue initial
    let index ← fieldIndex a.layout.state name
    let args ← (input :: inputs).reverse.mapM (a.operand name)
    pure ⟨⟨⟨.derivative, index⟩, .apply element args, describe name rhs⟩, step, initial⟩
  | _ => throw (.shape name (.fewArguments element rhs))

def auxiliary (name : Atom) : Except CompileError Statement := do
  let rhs ← a.rhs name
  let expr ←
    if rhs.isVariable then Expr.copy <$> a.variableOperand rhs.head
    else do
      let element ← a.element name rhs
      let args ← rhs.tail.mapM (a.operand name)
      pure (.apply element args)
  let index ← fieldIndex a.layout.aux name
  pure ⟨⟨.aux, index⟩, expr, describe name rhs⟩

def auxBlock (part : Section) (names : List Atom) : Except CompileError Block := do
  pure ⟨part, ← names.mapM a.auxiliary⟩

end Assembly

/-- The layout that a classification asks for. -/
def Classification.layout (c : Classification) : Layout where
  state := .ofList c.evolved
  aux := .ofList c.auxiliaries
  constants := .ofList c.constants

/-- Assemble the program of classified equations. -/
def Program.assemble (v : Vocabulary) (s : EquationSet) (c : Classification) :
    Except CompileError Program := do
  match c.auxiliaries.find? fun name => !s.contains name with
  | some name => throw (.undefinedVariable name)
  | none =>
    let a : Assembly := ⟨v, s, c.layout⟩
    let constantValues ← c.constants.mapM a.constantValue
    let evolutions ← c.evolved.mapM a.evolution
    let sorted ← a.auxBlock .auxSorted c.auxSorted
    let cyclic ← a.auxBlock .auxCyclic c.auxCyclic
    let unneeded ← a.auxBlock .auxUnneeded c.auxUnneeded
    pure {
      layout := a.layout
      constantValues
      initial := evolutions.map Assembly.Evolution.initial
      steps := evolutions.map Assembly.Evolution.step
      blocks := [sorted, cyclic,
        ⟨.derivatives, evolutions.map Assembly.Evolution.derivative⟩, unneeded]
      vars := c.all }

end DiffAnalyzer
