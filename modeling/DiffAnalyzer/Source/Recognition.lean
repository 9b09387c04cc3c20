/-!
# Recognition

A recognizer reads a value off the front of a text or refuses it, and records which
rules of the grammar it attempted on the way, those of refused alternatives included.
From the record of a refused text, `Furthest.ofAttempts` tells how far recognition got
and what would have been accepted there.
-/

namespace DiffAnalyzer

/-- The rules that messages speak of. -/
inductive Rule where
  | endOfInput
  | program
  | equation
  | application
  | reference
  | identifier
  | number
deriving DecidableEq, Repr

namespace Rule

/-- All rules, in the order in which messages list them. -/
def all : List Rule :=
  [endOfInput, program, equation, application, reference, identifier, number]

instance : ToString Rule where
  toString
    | .endOfInput => "EOI"
    | .program => "Program"
    | .equation => "Equation"
    | .application => "Application"
    | .reference => "Variable"
    | .identifier => "Ident"
    | .number => "Number"

end Rule

/-- An attempt at a rule: the text it was made on, whether it was accepted, and the
attempts made inside it. -/
inductive Attempt where
  | mk (rule : Rule) (text : List Char) (accepted : Bool) (inside : List Attempt)

/-- The value read and the rest of the text, if any, with all attempts in order. -/
structure Outcome (α : Type) where
  result : Option (α × List Char)
  attempts : List Attempt

/-- A way to read a value off the front of a text. -/
def Recognizer (α : Type) := List Char → Outcome α

namespace Recognizer

variable {α β : Type}

instance : Monad Recognizer where
  pure a := fun text => ⟨some (a, text), []⟩
  bind x f := fun text =>
    match x text with
    | ⟨none, attempts⟩ => ⟨none, attempts⟩
    | ⟨some (a, rest), attempts⟩ =>
      let next := f a rest
      ⟨next.result, attempts ++ next.attempts⟩

/-- The second recognizer reads what the first refuses. -/
instance : OrElse (Recognizer α) where
  orElse x y := fun text =>
    match x text with
    | ⟨some read, attempts⟩ => ⟨some read, attempts⟩
    | ⟨none, attempts⟩ =>
      let other := y () text
      ⟨other.result, attempts ++ other.attempts⟩

/-- Read with a function that leaves no record. -/
def ofFunction (read : List Char → Option (α × List Char)) : Recognizer α :=
  fun text => ⟨read text, []⟩

/-- Refuse every text. -/
def refuse : Recognizer α := ofFunction fun _ => none

/-- The text that is left. -/
def remaining : Recognizer (List Char) := ofFunction fun text => some (text, text)

/-- Skip a part of the text; nothing is refused. -/
def skip (drop : List Char → List Char) : Recognizer Unit := ofFunction fun text =>
  some ((), drop text)

/-- Read one character of a kind. -/
def oneOf (p : Char → Bool) : Recognizer Unit := ofFunction fun text =>
  match text with
  | c :: rest => if p c then some ((), rest) else none
  | [] => none

/-- Read an exact character. -/
def symbol (c : Char) : Recognizer Unit := oneOf (· == c)

/-- Record an attempt at a rule. -/
def attempt (rule : Rule) (x : Recognizer α) : Recognizer α := fun text =>
  let outcome := x text
  ⟨outcome.result, [.mk rule text outcome.result.isSome outcome.attempts]⟩

/-- Accept only the end of the text. -/
def endOfInput : Recognizer Unit := attempt .endOfInput <| ofFunction fun text =>
  if text.isEmpty then some ((), []) else none

variable (x : Recognizer α) (f : α → Recognizer β) (text : List Char)

@[simp] theorem result_pure (a : α) :
    (pure a : Recognizer α) text = ⟨some (a, text), []⟩ := rfl

theorem result_bind :
    ((x >>= f) text).result = (x text).result.bind fun r => (f r.1 r.2).result := by
  show Outcome.result (match x text with | ⟨none, _⟩ => _ | ⟨some (_, _), _⟩ => _) = _
  rcases x text with ⟨_ | ⟨a, rest⟩, attempts⟩ <;> rfl

theorem result_orElse (y : Unit → Recognizer α) :
    ((OrElse.orElse x y) text).result = (x text).result.or (y () text).result := by
  show Outcome.result (match x text with | ⟨some _, _⟩ => _ | ⟨none, _⟩ => _) = _
  rcases x text with ⟨_ | r, attempts⟩ <;> rfl

@[simp] theorem result_attempt (rule : Rule) :
    (attempt rule x text).result = (x text).result := rfl

end Recognizer

/-- The furthest position at which a rule was refused, and the rules refused there. -/
structure Furthest where
  position : Nat
  rules : List Rule
deriving DecidableEq, Repr

namespace Furthest

/-- How many rules are refused at a position. -/
def countAt (s : Furthest) (position : Nat) : Nat :=
  if s.position = position then s.rules.length else 0

/-- A rule is refused.  At the furthest position it stands for the rules refused inside
it, of which `before` were there already, unless there is just one of those. -/
def refuse (s : Furthest) (rule : Rule) (position before : Nat) : Furthest :=
  if s.countAt position = before + 1 then s
  else if s.position < position then ⟨position, [rule]⟩
  else if s.position = position then ⟨position, s.rules.take before ++ [rule]⟩
  else s

mutual

/-- Take an attempt into account; positions are counted in a text of `length`
characters. -/
def add (length : Nat) (s : Furthest) : Attempt → Furthest
  | .mk rule text accepted inside =>
    let position := length - text.length
    let after := addAll length s inside
    if accepted then after else after.refuse rule position (s.countAt position)

def addAll (length : Nat) (s : Furthest) : List Attempt → Furthest
  | [] => s
  | attempt :: rest => addAll length (add length s attempt) rest

end

def ofAttempts (length : Nat) (attempts : List Attempt) : Furthest :=
  addAll length ⟨0, []⟩ attempts

/-- The refused rules, each once. -/
def expected (s : Furthest) : List Rule := Rule.all.filter s.rules.contains

end Furthest

/-- Alternatives in words. -/
def alternatives : List String → String
  | [] => ""
  | [a] => a
  | [a, b] => a ++ " or " ++ b
  | names => ", ".intercalate names.dropLast ++ ", or " ++ names.getLastD ""

end DiffAnalyzer
