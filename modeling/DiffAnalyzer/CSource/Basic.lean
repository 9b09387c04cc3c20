import DiffAnalyzer.Program.Basic

/-!
# Generated C programs

The parts of a generated C program that depend on the circuit: the fields of its three
records, the initialisation of constants and parameters, and the statements of its
derivative function.  Everything is named by C identifiers here; the names of the
circuit are kept beside them for look-ups at run time.
-/

namespace DiffAnalyzer

namespace CSource

/-- A member of a record: its identifier in C, and the variable it holds. -/
structure Field where
  name : Atom
  variableName : Atom
deriving DecidableEq, Repr

/-- What an expression reads: a literal or a member of a record. -/
inductive Value where
  | number (x : Number)
  | member (group : Group) (name : Atom)
deriving DecidableEq, Repr

/-- The fields of a program, state first, then auxiliaries and constants. -/
structure Fields where
  state : List Field
  aux : List Field
  constants : List Field
deriving DecidableEq, Repr

/-- The fields of a group; derivatives are laid out like the state. -/
def Fields.group (f : Fields) : Group → List Field
  | .state | .derivative => f.state
  | .aux => f.aux
  | .constant => f.constants

inductive Expr where
  | value (v : Value)
  | negatedSum (args : List Value)
  | product (args : List Value)
  /-- The operands of `const`, one behind the other. -/
  | sequence (args : List Value)
  /-- A call of the function that computes an element. -/
  | call (element : Element) (args : List Value)
deriving DecidableEq, Repr

/-- An assignment to a member, with a comment behind it. -/
structure Assignment where
  group : Group
  name : Atom
  expr : Expr
  comment : String
deriving DecidableEq, Repr

structure Block where
  part : Section
  assignments : List Assignment
deriving DecidableEq, Repr

/-- Initial value and step size of a state field. -/
structure ParameterInit where
  name : Atom
  initial : Value
  step : Value
deriving DecidableEq, Repr

end CSource

open CSource in
/-- A C program, up to what is the same in all of them. -/
structure CProgram where
  /-- Significant digits of printed numbers. -/
  precision : Nat
  fields : Fields
  /-- Variables that are printed unless others are asked for. -/
  vars : List Atom
  /-- The value that each constant starts with. -/
  constantInits : List (Atom × Number)
  parameterInits : List ParameterInit
  /-- The derivative function. -/
  blocks : List CSource.Block
deriving DecidableEq, Repr

end DiffAnalyzer
