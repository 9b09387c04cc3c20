import DiffAnalyzer.Atom

/-!
# Computing elements

The elements a circuit can be built from, how many arguments each accepts, and
vocabularies, which say what the head of an application stands for.
-/

namespace DiffAnalyzer

/-- What the head of an application means. -/
inductive Element where
  | const | neg | div | int | diff | sum | mult | deadUpper | deadLower | min | max
  | lt | le | gt | ge | sqrt | abs | exp | floor | sign | noise | logicalXor
  | funcgen | arcsin
  /-- A head the vocabulary in use does not know. -/
  | unknown (head : Atom)
deriving DecidableEq, Repr

namespace Element

/-- The head an element is written with. -/
def name : Element → Atom
  | .const => ⟨"const".toList, by decide⟩
  | .neg => ⟨"neg".toList, by decide⟩
  | .div => ⟨"div".toList, by decide⟩
  | .int => ⟨"int".toList, by decide⟩
  | .diff => ⟨"diff".toList, by decide⟩
  | .sum => ⟨"sum".toList, by decide⟩
  | .mult => ⟨"mult".toList, by decide⟩
  | .deadUpper => ⟨"dead_upper".toList, by decide⟩
  | .deadLower => ⟨"dead_lower".toList, by decide⟩
  | .min => ⟨"min".toList, by decide⟩
  | .max => ⟨"max".toList, by decide⟩
  | .lt => ⟨"lt".toList, by decide⟩
  | .le => ⟨"le".toList, by decide⟩
  | .gt => ⟨"gt".toList, by decide⟩
  | .ge => ⟨"ge".toList, by decide⟩
  | .sqrt => ⟨"sqrt".toList, by decide⟩
  | .abs => ⟨"abs".toList, by decide⟩
  | .exp => ⟨"exp".toList, by decide⟩
  | .floor => ⟨"floor".toList, by decide⟩
  | .sign => ⟨"sign".toList, by decide⟩
  | .noise => ⟨"noise".toList, by decide⟩
  | .logicalXor => ⟨"logical_xor".toList, by decide⟩
  | .funcgen => ⟨"funcgen".toList, by decide⟩
  | .arcsin => ⟨"arcsin".toList, by decide⟩
  | .unknown head => head

instance : ToString Element := ⟨fun e => toString e.name⟩

/-- Integration and differentiation: the variables they define are evolved in time. -/
def isEvolving : Element → Bool
  | .int | .diff => true
  | _ => false

/-- The wrapper of an explicit constant. -/
def isConstant : Element → Bool
  | .const => true
  | _ => false

def isUnknown : Element → Bool
  | .unknown _ => true
  | _ => false

end Element

/-- How many arguments an element accepts. -/
inductive Arity where
  | exactly (n : Nat)
  | atLeast (n : Nat)
deriving DecidableEq, Repr

namespace Arity

def accepts : Arity → Nat → Bool
  | .exactly n, count => count == n
  | .atLeast n, count => n ≤ count

instance : ToString Arity where
  toString
    | .exactly n => s!"exactly {n}"
    | .atLeast n => s!"at least {n}"

end Arity

/-- The elements in use with their arities, in the order of registration, each under its
own name. -/
structure Vocabulary where
  entries : List (Element × Arity)
deriving Repr

namespace Vocabulary

def empty : Vocabulary := ⟨[]⟩

def entry? (v : Vocabulary) (name : Atom) : Option (Element × Arity) :=
  v.entries.find? fun e => e.1.name == name

/-- Register an element, in place of an entry of the same name. -/
def register (v : Vocabulary) (element : Element) (arity : Arity) : Vocabulary :=
  if (v.entry? element.name).isSome then
    ⟨v.entries.map fun e => if e.1.name == element.name then (element, arity) else e⟩
  else ⟨v.entries ++ [(element, arity)]⟩

/-- The well-known elements. -/
def standard : Vocabulary where
  entries := [
    (.const, .exactly 1), (.neg, .exactly 1), (.div, .exactly 2), (.int, .atLeast 3),
    (.diff, .atLeast 3), (.sum, .atLeast 1), (.mult, .atLeast 1), (.deadUpper, .exactly 2),
    (.deadLower, .exactly 2), (.min, .exactly 2), (.max, .exactly 2), (.lt, .exactly 4),
    (.le, .exactly 4), (.gt, .exactly 4), (.ge, .exactly 4), (.sqrt, .exactly 1),
    (.abs, .exactly 1), (.exp, .exactly 1), (.floor, .exactly 1), (.sign, .exactly 1),
    (.noise, .exactly 1), (.logicalXor, .exactly 2), (.funcgen, .atLeast 1),
    (.arcsin, .exactly 1)]

instance : Inhabited Vocabulary := ⟨standard⟩

/-- The element a head stands for. -/
def resolve (v : Vocabulary) (head : Atom) : Element :=
  match v.entry? head with
  | some (element, _) => element
  | none => .unknown head

def arity? (v : Vocabulary) (element : Element) : Option Arity :=
  (v.entry? element.name).map Prod.snd

def names (v : Vocabulary) : List Atom := v.entries.map fun e => e.1.name

@[simp] theorem resolve_empty (head : Atom) : empty.resolve head = .unknown head := rfl

theorem name_resolve (v : Vocabulary) (head : Atom) : (v.resolve head).name = head := by
  unfold resolve
  split
  · rename_i h
    simpa using List.find?_some h
  · rfl

end Vocabulary

end DiffAnalyzer
