import DiffAnalyzer.Element
import DiffAnalyzer.Number.Text

/-!
# Programs

A program computes the time derivatives of the evolved variables from their values.
Its variables live in three records: state, auxiliaries and constants; a statement
assigns an auxiliary or a derivative, and the blocks hold the statements of one
evaluation in the order in which they run.
-/

namespace DiffAnalyzer

theorem nodup_eraseDups {α : Type} [BEq α] [LawfulBEq α] (l : List α) : l.eraseDups.Nodup := by
  match l with
  | [] => simp
  | a :: rest =>
    rw [List.eraseDups_cons, List.nodup_cons]
    exact ⟨by simp, nodup_eraseDups _⟩
termination_by l.length
decreasing_by
  simp only [List.length_cons]
  exact Nat.lt_succ_of_le (List.length_filter_le _ _)

/-- Groups of fields.  Derivatives are laid out like the state. -/
inductive Group where
  | state
  | derivative
  | aux
  | constant
deriving DecidableEq, Repr

instance : ToString Group where
  toString
    | .state => "state"
    | .derivative => "dqdt"
    | .aux => "aux"
    | .constant => "constants"

/-- The fields of a group, in layout order. -/
@[ext]
structure Record where
  fields : List Atom
  nodup : fields.Nodup
deriving DecidableEq, Repr

namespace Record

/-- The fields with the given names; a repeated name is one field. -/
def ofList (names : List Atom) : Record := ⟨names.eraseDups, nodup_eraseDups names⟩

def indexOf? (r : Record) (name : Atom) : Option Nat := r.fields.idxOf? name

def size (r : Record) : Nat := r.fields.length

@[simp] theorem mem_fields_ofList {a : Atom} {names : List Atom} :
    a ∈ (ofList names).fields ↔ a ∈ names := List.mem_eraseDups

end Record

/-- A field of one of the groups. -/
structure Slot where
  group : Group
  index : Nat
deriving DecidableEq, Repr

instance : ToString Slot := ⟨fun s => toString s.group ++ "[" ++ toString s.index ++ "]"⟩

/-- What a statement reads. -/
inductive Operand where
  | number (value : Number)
  | slot (slot : Slot)
deriving DecidableEq, Repr

instance : ToString Operand where
  toString
    | .number value => toString value
    | .slot slot => toString slot

/-- The right-hand side of a statement.  The derivative of an integrator applies the
integrator to its inputs only, without step size and initial value. -/
inductive Expr where
  | copy (operand : Operand)
  | apply (element : Element) (args : List Operand)
deriving DecidableEq, Repr

/-- The text of an expression, given the text of its operands. -/
def Expr.textWith (operand : Operand → String) : Expr → String
  | .copy x => operand x
  | .apply element args => toString element ++ "(" ++ ", ".intercalate (args.map operand) ++ ")"

instance : ToString Expr := ⟨Expr.textWith toString⟩

/-- An assignment, with the equation it stems from. -/
structure Statement where
  target : Slot
  expr : Expr
  description : String
deriving DecidableEq, Repr

instance : ToString Statement where
  toString s := toString s.target ++ " = " ++ toString s.expr ++ "; // " ++ s.description

/-- The parts of an evaluation. -/
inductive Section where
  | auxSorted
  | auxCyclic
  | derivatives
  | auxUnneeded
deriving DecidableEq, Repr

instance : ToString Section where
  toString
    | .auxSorted => "auxiliaries, sorted by dependency"
    | .auxCyclic => "auxiliaries on a feedback loop, best effort order"
    | .derivatives => "time derivatives"
    | .auxUnneeded => "auxiliaries not needed for the time evolution"

structure Block where
  part : Section
  statements : List Statement
deriving DecidableEq, Repr

/-- Step size or initial value of an evolved variable: a literal or the index of a
constant. -/
inductive Parameter where
  | number (value : Number)
  | constant (index : Nat)
deriving DecidableEq, Repr

/-- The fields of a program. -/
structure Layout where
  state : Record
  aux : Record
  constants : Record
deriving DecidableEq, Repr

namespace Layout

/-- The slot of a variable; state comes before auxiliaries and constants. -/
def slot? (l : Layout) (name : Atom) : Option Slot :=
  ((l.state.indexOf? name).map (Slot.mk .state)).or
    (((l.aux.indexOf? name).map (Slot.mk .aux)).or
      ((l.constants.indexOf? name).map (Slot.mk .constant)))

def record (l : Layout) : Group → Record
  | .state | .derivative => l.state
  | .aux => l.aux
  | .constant => l.constants

def name? (l : Layout) (slot : Slot) : Option Atom := (l.record slot.group).fields[slot.index]?

end Layout

/-- A simulation program. -/
structure Program where
  layout : Layout
  /-- Values of the constants, by index. -/
  constantValues : List Number
  /-- Initial values of the evolved variables, by index. -/
  initial : List Parameter
  /-- Step sizes of the evolved variables, by index. -/
  steps : List Parameter
  /-- One evaluation. -/
  blocks : List Block
  /-- Every variable that can be asked for, sorted. -/
  vars : List Atom
deriving DecidableEq, Repr

namespace Program

/-- The slot of the variable with the given name. -/
def lookup? (p : Program) (name : String) : Option Slot :=
  (Atom.ofChars? name.toList).bind p.layout.slot?

/-- All statements of an evaluation, in the order in which they run. -/
def statements (p : Program) : List Statement := p.blocks.flatMap Block.statements

end Program

end DiffAnalyzer
