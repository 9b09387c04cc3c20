import DiffAnalyzer.EquationSet.Basic

/-!
# Linear form

In linear form every right-hand side is a variable or applies one element to literals
and variables.  `EquationSet.linearize` reaches it by naming applications inside
others: the `n`-th application of a head `h` that gets a name becomes `h_n`, padded
until it is free.  Equal applications share one name, and one that an equation already
states is referred to by the name of that equation.

The strict form names the outermost application of an equation too, unless the
equation looks like one that naming made.
-/

namespace DiffAnalyzer

/-- The name is the head followed by an underscore, a number and padding. -/
def Atom.isNumbering (head name : Atom) : Bool :=
  match head.chars.isPrefixOf? name.chars with
  | some ('_' :: rest) =>
    !(rest.takeWhile Char.isDigit).isEmpty && (rest.dropWhile Char.isDigit).all (· == '_')
  | _ => false

/-- The names given so far. -/
structure Naming where
  /-- How many applications of each head have been named. -/
  counters : SortedMap Atom Nat
  /-- The name that stands for an application. -/
  names : List (Term × Atom)
  /-- The equations of the fresh names. -/
  fresh : EquationSet

/-- Give an application its name, a fresh one if it has none.  Variables stay. -/
def Naming.register (used : List Atom) (t : Term) : StateT Naming (Except CompileError) Term :=
  fun naming =>
    if t.isVariable then .ok (t, naming)
    else
      match naming.names.lookup t with
      | some name => .ok (.var name, naming)
      | none =>
        let count := (naming.counters.get? t.head).getD 0 + 1
        let base := t.head.numbered count
        match base.free? fun name => used.contains name || naming.fresh.contains name with
        | none => .error (.nameExhaustion base)
        | some name =>
          .ok (.var name, {
            counters := naming.counters.insert t.head count
            names := (t, name) :: naming.names
            fresh := naming.fresh.insert name t })

namespace EquationSet

/-- The equation keeps its outermost application when the set is linearized. -/
def keepsRoot (strict : Bool) (name : Atom) (rhs : Term) : Bool :=
  !strict || rhs.head.isNumbering name

/-- The applications that equations state in linear form already, with their names. -/
def statedNames (strict : Bool) (s : EquationSet) : List (Term × Atom) :=
  (s.toList.filter fun e => e.2.isCompound && e.2.isFlat && keepsRoot strict e.1 e.2).map
    fun e => (e.2, e.1)

/-- One equation in linear form. -/
def linearizeEquation (strict : Bool) (used : List Atom) (e : Atom × Term) :
    StateT Naming (Except CompileError) (Atom × Term) := do
  let rhs ←
    if e.2.isVariable then pure e.2
    else e.2.replaceM (Naming.register used) (!keepsRoot strict e.1 e.2)
  pure (e.1, rhs)

/-- The set in linear form. -/
def linearize (strict : Bool) (s : EquationSet) : Except CompileError EquationSet := do
  let start : Naming := ⟨∅, s.statedNames strict, ∅⟩
  let (entries, naming) ← (s.toList.mapM (linearizeEquation strict s.vars)).run start
  pure ((SortedMap.ofList entries).insertAll naming.fresh.toList)

end EquationSet

end DiffAnalyzer
