import DiffAnalyzer.EquationSet.Basic
import DiffAnalyzer.Source.Diagnostic
import DiffAnalyzer.Source.Grammar

/-!
# Reading circuits

`EquationSet.parse` reads a source text.  It fails where the text leaves the grammar,
or else at the first name that is defined a second time.
-/

namespace DiffAnalyzer

/-- Why a source text is no circuit, with the region at fault. -/
inductive SourceFault where
  | unexpected (region : Region) (expected : List Rule)
  | redefined (region : Region) (name : Atom) (line : Nat)
deriving DecidableEq, Repr

namespace SourceFault

def region : SourceFault → Region
  | .unexpected region _ => region
  | .redefined region _ _ => region

def title : SourceFault → String
  | .unexpected _ _ => "syntax error"
  | .redefined _ _ _ => "duplicate definition"

def message : SourceFault → String
  | .unexpected _ expected => "expected " ++ alternatives (expected.map toString)
  | .redefined _ name line => s!"`{name}` is already defined on line {line}"

def diagnostic (filename : String) (fault : SourceFault) : Diagnostic :=
  ⟨fault.title, fault.message, filename, fault.region⟩

end SourceFault

namespace Grammar

/-- The first definition of a name that is defined before, with the earlier one. -/
def redefinition? : (earlier : List Definition) → List Definition →
    Option (Definition × Definition)
  | _, [] => none
  | earlier, d :: rest =>
    match earlier.find? fun e => e.name == d.name with
    | some e => some (e, d)
    | none => redefinition? (d :: earlier) rest

/-- The name of a definition in its text. -/
def Definition.region (text : List Char) (d : Definition) : Region :=
  .ofPosition text (text.length - d.site.length) d.name.chars.length

/-- The definitions of a text, or where it leaves the grammar. -/
def definitions (text : List Char) : Except SourceFault (List Definition) :=
  let outcome := recognize text
  match outcome.result with
  | some (definitions, _) => .ok definitions
  | none =>
    let furthest := Furthest.ofAttempts text.length outcome.attempts
    .error (.unexpected (.ofPosition text furthest.position 0) furthest.expected)

end Grammar

open Grammar in
/-- The equations of a source text. -/
def EquationSet.parse (text : List Char) : Except SourceFault EquationSet := do
  let definitions ← definitions text
  match redefinition? [] definitions with
  | some (earlier, d) =>
    throw (.redefined (d.region text) d.name (earlier.region text).excerpt.lineNumber)
  | none => pure (.ofList (definitions.map fun d => (d.name, d.rhs)))

end DiffAnalyzer
