import DiffAnalyzer.Atom
import DiffAnalyzer.Number.Text

/-!
# Terms

A term is a head applied to a list of arguments; each argument is a literal or a term
again.  A term without arguments refers to a variable, one with arguments applies a
computing element.
-/

namespace DiffAnalyzer

/-- An argument: a literal, or a head with arguments of its own. -/
inductive Arg where
  | number (value : Number)
  | node (head : Atom) (tail : List Arg)
deriving Repr

/-- A head applied to arguments. -/
@[ext]
structure Term where
  head : Atom
  tail : List Arg
deriving Repr

namespace Arg

/-- Induction over arguments: a node may use what holds of all its arguments. -/
@[elab_as_elim]
theorem induct {motive : Arg → Prop} (number : ∀ x, motive (.number x))
    (node : ∀ h tail, (∀ a ∈ tail, motive a) → motive (.node h tail)) : ∀ a, motive a
  | .number x => number x
  | .node h tail => node h tail fun a _ => induct number node a

mutual

def decEq : (a b : Arg) → Decidable (a = b)
  | .number x, .number y => decidable_of_iff (x = y) (by simp)
  | .number _, .node _ _ => isFalse nofun
  | .node _ _, .number _ => isFalse nofun
  | .node h s, .node k t =>
    if hk : h = k then
      match decEqList s t with
      | isTrue hs => isTrue (by rw [hk, hs])
      | isFalse hs => isFalse fun e => hs (by injection e)
    else isFalse fun e => hk (by injection e)

def decEqList : (s t : List Arg) → Decidable (s = t)
  | [], [] => isTrue rfl
  | [], _ :: _ => isFalse nofun
  | _ :: _, [] => isFalse nofun
  | a :: s, b :: t =>
    match decEq a b, decEqList s t with
    | isTrue ha, isTrue hs => isTrue (by rw [ha, hs])
    | isFalse ha, _ => isFalse fun e => ha (List.cons.inj e).1
    | _, isFalse hs => isFalse fun e => hs (List.cons.inj e).2

end

instance : DecidableEq Arg := decEq

/-- The term an argument holds, if it is no literal. -/
def term? : Arg → Option Term
  | .number _ => none
  | .node head tail => some ⟨head, tail⟩

mutual

/-- Call notation, arguments separated by a comma and a blank. -/
def text : Arg → List Char
  | .number x => x.text
  | .node head [] => head.chars
  | .node head (a :: rest) => head.chars ++ '(' :: a.text ++ textRest rest ++ [')']

/-- The arguments after the first. -/
def textRest : List Arg → List Char
  | [] => []
  | a :: rest => ',' :: ' ' :: a.text ++ textRest rest

end

mutual

/-- Every variable an argument refers to, from left to right. -/
def references : Arg → List Atom
  | .number _ => []
  | .node head [] => [head]
  | .node _ (a :: rest) => a.references ++ referencesList rest

def referencesList : List Arg → List Atom
  | [] => []
  | a :: rest => a.references ++ referencesList rest

end

mutual

/-- Every application in an argument, outer ones before those inside. -/
def applications : Arg → List Term
  | .number _ => []
  | .node _ [] => []
  | .node head (a :: rest) => ⟨head, a :: rest⟩ :: (a.applications ++ applicationsList rest)

def applicationsList : List Arg → List Term
  | [] => []
  | a :: rest => a.applications ++ applicationsList rest

end

theorem referencesList_eq_flatMap (args : List Arg) :
    referencesList args = args.flatMap references := by
  induction args with
  | nil => rfl
  | cons a rest ih => rw [referencesList, ih, List.flatMap_cons]

theorem applicationsList_eq_flatMap (args : List Arg) :
    applicationsList args = args.flatMap applications := by
  induction args with
  | nil => rfl
  | cons a rest ih => rw [applicationsList, ih, List.flatMap_cons]

end Arg

namespace Term

instance : DecidableEq Term := fun s t =>
  decidable_of_iff (s.head = t.head ∧ s.tail = t.tail) Term.ext_iff.symm

def toArg (t : Term) : Arg := .node t.head t.tail

@[simp] theorem term?_toArg (t : Term) : t.toArg.term? = some t := rfl

/-- A reference to a variable. -/
def var (name : Atom) : Term := ⟨name, []⟩

def isVariable (t : Term) : Bool := t.tail.isEmpty

def isCompound (t : Term) : Bool := !t.isVariable

/-- The term has only literals and variables for arguments. -/
def isFlat (t : Term) : Bool := t.tail.all fun a => a.term?.all Term.isVariable

def text (t : Term) : List Char := t.toArg.text

instance : ToString Term := ⟨fun t => String.ofList t.text⟩

/-- The variables among the arguments themselves. -/
def directVars (t : Term) : List Atom :=
  ((t.tail.filterMap Arg.term?).filter Term.isVariable).map Term.head

/-- The variables below the root, each once, in order of appearance. -/
def vars (t : Term) : List Atom := (Arg.referencesList t.tail).eraseDups

/-- The applications below the root, each once, in order of appearance. -/
def applications (t : Term) : List Term := (Arg.applicationsList t.tail).eraseDups

/-- The variables a right-hand side depends on: its own name if it is a bare variable,
else the variables below its root. -/
def dependencies (t : Term) : List Atom :=
  if t.isVariable then [t.head] else t.vars

@[simp] theorem isVariable_var (a : Atom) : (Term.var a).isVariable = true := rfl

theorem eq_var_of_isVariable {t : Term} (h : t.isVariable = true) :
    t = Term.var t.head := by
  cases t
  simp_all [isVariable, Term.var]

@[simp] theorem mem_vars {a : Atom} {t : Term} :
    a ∈ t.vars ↔ ∃ b ∈ t.tail, a ∈ b.references := by
  simp [vars, Arg.referencesList_eq_flatMap]

end Term

end DiffAnalyzer
