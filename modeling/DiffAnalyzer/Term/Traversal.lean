import DiffAnalyzer.Term.Basic

/-!
# Traversals

Three traversals rename: all heads, variables only, or heads of applications only.
The fourth, `Term.replaceM`, replaces terms bottom-up and from left to right with an
effectful function; it reaches the root last, and only when asked to.
-/

namespace DiffAnalyzer

namespace Arg

variable (f : Atom → Atom)

mutual

def mapHeads : Arg → Arg
  | .number x => .number x
  | .node head tail => .node (f head) (mapHeadsList tail)

def mapHeadsList : List Arg → List Arg
  | [] => []
  | a :: rest => mapHeads a :: mapHeadsList rest

end

mutual

def mapVariables : Arg → Arg
  | .number x => .number x
  | .node head [] => .node (f head) []
  | .node head (a :: rest) => .node head (mapVariables a :: mapVariablesList rest)

def mapVariablesList : List Arg → List Arg
  | [] => []
  | a :: rest => mapVariables a :: mapVariablesList rest

end

mutual

def mapElements : Arg → Arg
  | .number x => .number x
  | .node head [] => .node head []
  | .node head (a :: rest) => .node (f head) (mapElements a :: mapElementsList rest)

def mapElementsList : List Arg → List Arg
  | [] => []
  | a :: rest => mapElements a :: mapElementsList rest

end

variable {f}

theorem mapHeadsList_eq_map (args : List Arg) : mapHeadsList f args = args.map (mapHeads f) := by
  induction args with
  | nil => rfl
  | cons a rest ih => rw [mapHeadsList, ih, List.map_cons]

theorem mapVariablesList_eq_map (args : List Arg) :
    mapVariablesList f args = args.map (mapVariables f) := by
  induction args with
  | nil => rfl
  | cons a rest ih => rw [mapVariablesList, ih, List.map_cons]

theorem mapElementsList_eq_map (args : List Arg) :
    mapElementsList f args = args.map (mapElements f) := by
  induction args with
  | nil => rfl
  | cons a rest ih => rw [mapElementsList, ih, List.map_cons]

variable {m : Type → Type} [Monad m] (g : Term → m Term)

mutual

/-- Replace the terms of an argument, arguments before the term they belong to. -/
def replaceM : Arg → m Arg
  | .number x => pure (.number x)
  | .node head tail => do
    let tail ← replaceListM tail
    let term ← g ⟨head, tail⟩
    pure term.toArg

def replaceListM : List Arg → m (List Arg)
  | [] => pure []
  | a :: rest => do
    let a ← replaceM a
    let rest ← replaceListM rest
    pure (a :: rest)

end

end Arg

namespace Term

/-- Rename every head. -/
def mapHeads (f : Atom → Atom) (t : Term) : Term := ⟨f t.head, t.tail.map (Arg.mapHeads f)⟩

/-- Rename variables, a bare variable at the root included. -/
def mapVariables (f : Atom → Atom) (t : Term) : Term :=
  if t.isVariable then .var (f t.head) else ⟨t.head, t.tail.map (Arg.mapVariables f)⟩

/-- Rename the heads of applications. -/
def mapElements (f : Atom → Atom) (t : Term) : Term :=
  if t.isVariable then t else ⟨f t.head, t.tail.map (Arg.mapElements f)⟩

/-- Replace every term below the root, and then the root itself if `root` is set. -/
def replaceM {m : Type → Type} [Monad m] (f : Term → m Term) (root : Bool) (t : Term) :
    m Term := do
  let tail ← Arg.replaceListM f t.tail
  if root then f ⟨t.head, tail⟩ else pure ⟨t.head, tail⟩

def replace (f : Term → Term) (root : Bool) (t : Term) : Term :=
  Id.run (t.replaceM (fun s => pure (f s)) root)

/-- Replace with a function that always answers and may keep a state from call to call. -/
def replaceState {σ : Type} (f : Term → StateM σ Term) (root : Bool) (t : Term) :
    StateM σ Term := do
  let answer : Except Empty Term ← (t.replaceM (fun s => ExceptT.lift (f s)) root).run
  match answer with
  | .ok s => pure s
  | .error never => never.elim

theorem toArg_mapHeads (f : Atom → Atom) (t : Term) :
    (t.mapHeads f).toArg = t.toArg.mapHeads f := by
  rw [toArg, toArg, Arg.mapHeads, Arg.mapHeadsList_eq_map]
  rfl

end Term

end DiffAnalyzer
