import DiffAnalyzer.Error
import DiffAnalyzer.SortedList
import DiffAnalyzer.SortedMap
import DiffAnalyzer.Term.Traversal

/-!
# Equation sets

A circuit is a set of equations `name = term`, kept in the order of their names.
Besides the traversals of its terms the module holds the two views that all analyses
start from: the dependency graph and the list of all variables.

Equations with equal right-hand sides say that their names are equal.  All but the first
can be dropped once every reference goes to the first (`EquationSet.removeDuplicates`).
-/

namespace DiffAnalyzer

/-- Equations `name = term`, sorted by name. -/
abbrev EquationSet := SortedMap Atom Term

namespace EquationSet

/-- The set with `name = name` added if `name` is not bound, and the term of `name`. -/
def getOrDeclare (s : EquationSet) (name : Atom) : EquationSet × Term :=
  match s.get? name with
  | some rhs => (s, rhs)
  | none => (s.insert name (.var name), .var name)

/-- Rename every head and every bound name. -/
def mapHeads (f : Atom → Atom) (s : EquationSet) : EquationSet :=
  .ofList (s.toList.map fun e => (f e.1, e.2.mapHeads f))

/-- Rename the variables that right-hand sides refer to. -/
def mapVariables (f : Atom → Atom) (s : EquationSet) : EquationSet :=
  s.mapValues fun _ rhs => rhs.mapVariables f

/-- Rename the heads of applications. -/
def mapElements (f : Atom → Atom) (s : EquationSet) : EquationSet :=
  s.mapValues fun _ rhs => rhs.mapElements f

/-- Replace every right-hand side in name order.  A bare variable goes to `f` as it is,
whether roots are replaced or not. -/
def replaceM {m : Type → Type} [Monad m] (f : Term → m Term) (root : Bool)
    (s : EquationSet) : m EquationSet := do
  let entries ← s.toList.mapM fun e => do
    let rhs ← if e.2.isVariable then f e.2 else e.2.replaceM f root
    pure (e.1, rhs)
  pure (.ofList entries)

/-- Replace every right-hand side with a function that always answers and may keep a state. -/
def replaceState {σ : Type} (f : Term → StateM σ Term) (root : Bool) (s : EquationSet) :
    StateM σ EquationSet :=
  SortedMap.ofList <$> s.toList.mapM fun e =>
    Prod.mk e.1 <$> if e.2.isVariable then f e.2 else e.2.replaceState f root

/-- The first name with the right-hand side of `name`; a name that is not bound stands
for itself. -/
def representative (s : EquationSet) (name : Atom) : Atom :=
  match s.get? name with
  | none => name
  | some rhs => ((s.toList.find? fun e => e.2 == rhs).map Prod.fst).getD name

/-- The equations of the representatives, referring to representatives only. -/
def removeDuplicates (s : EquationSet) : EquationSet :=
  mapVariables s.representative (s.filter fun name _ => s.representative name == name)

/-- The edges from a bound name to each variable its right-hand side depends on, in
order. -/
def dependencyGraph (s : EquationSet) : List (Atom × Atom) :=
  s.toList.flatMap fun e => (sortDistinct e.2.dependencies).map fun v => (e.1, v)

/-- Every variable that is bound or referred to, in order. -/
def vars (s : EquationSet) : List Atom :=
  sortDistinct (s.toList.flatMap fun e => e.1 :: e.2.dependencies)

/-- How many right-hand sides have each head. -/
def statistics (s : EquationSet) : SortedMap Atom Nat :=
  s.values.foldl (fun counts rhs => counts.insert rhs.head ((counts.get? rhs.head).getD 0 + 1)) ∅

/-- One equation per line. -/
def text (s : EquationSet) : List Char :=
  s.toList.flatMap fun e => e.1.chars ++ " = ".toList ++ e.2.text ++ ['\n']

instance : ToString EquationSet := ⟨fun s => String.ofList s.text⟩

/-- The dependency graph in the dot format. -/
def dot (s : EquationSet) : String :=
  let node (name : Atom) : String := "    \x22" ++ toString name ++ "\x22;\n"
  let edge (e : Atom × Atom) : String :=
    "    \x22" ++ toString e.1 ++ "\x22 -> \x22" ++ toString e.2 ++ "\x22;\n"
  "digraph \x22dependencies\x22 \x7b\n" ++ "".intercalate (s.keys.map node) ++
    "".intercalate (s.dependencyGraph.map edge) ++ "\x7d\n"

@[simp] theorem mem_dependencyGraph {s : EquationSet} {u v : Atom} :
    (u, v) ∈ s.dependencyGraph ↔ ∃ rhs, (u, rhs) ∈ s.toList ∧ v ∈ rhs.dependencies := by
  simp only [dependencyGraph, List.mem_flatMap, List.mem_map, mem_sortDistinct, Prod.mk.injEq]
  constructor
  · rintro ⟨e, he, w, hw, rfl, rfl⟩
    exact ⟨e.2, he, hw⟩
  · rintro ⟨rhs, he, hv⟩
    exact ⟨(u, rhs), he, v, hv, rfl, rfl⟩

theorem mem_vars {s : EquationSet} {v : Atom} :
    v ∈ s.vars ↔ v ∈ s.keys ∨ ∃ u, (u, v) ∈ s.dependencyGraph := by
  simp only [vars, mem_sortDistinct, List.mem_flatMap, List.mem_cons, mem_dependencyGraph,
    SortedMap.keys, List.mem_map]
  constructor
  · rintro ⟨e, he, rfl | h⟩
    · exact .inl ⟨e, he, rfl⟩
    · exact .inr ⟨e.1, e.2, he, h⟩
  · rintro (⟨e, he, rfl⟩ | ⟨u, rhs, he, h⟩)
    · exact ⟨e, he, .inl rfl⟩
    · exact ⟨(u, rhs), he, .inr h⟩

theorem vars_sorted (s : EquationSet) :
    s.vars.Pairwise fun a b => compare a b = .lt :=
  sorted_sortDistinct _

end EquationSet

end DiffAnalyzer
