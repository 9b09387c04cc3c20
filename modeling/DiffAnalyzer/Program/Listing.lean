import DiffAnalyzer.Program.Basic

/-!
# Listings

A program as pseudo-code, for a reader.  Fields go by name; one that its record lacks
goes by its index.
-/

namespace DiffAnalyzer

namespace Program

def slotName (p : Program) (slot : Slot) : String :=
  match p.layout.name? slot with
  | some name => toString slot.group ++ "." ++ toString name
  | none => toString slot

def operandName (p : Program) : Operand → String
  | .number value => toString value
  | .slot slot => p.slotName slot

def parameterName (p : Program) : Parameter → String
  | .number value => toString value
  | .constant index => p.slotName ⟨.constant, index⟩

private def constantLine (name : Atom) (value : Number) : String :=
  "const " ++ toString name ++ " = " ++ toString value ++ ";\n"

private def stateLine (p : Program) (name : Atom) (index : Nat) : String :=
  "state " ++ toString name ++ " = " ++ (p.initial[index]?.map p.parameterName).getD "" ++
    "; // dt = " ++ (p.steps[index]?.map p.parameterName).getD "" ++ "\n"

private def auxLine (name : Atom) : String := "aux " ++ toString name ++ ";\n"

private def statementLine (p : Program) (s : Statement) : String :=
  "    " ++ p.slotName s.target ++ " = " ++ s.expr.textWith p.operandName ++ ";\n"

private def blockLines (p : Program) (b : Block) : String :=
  "    // " ++ toString b.part ++ "\n" ++ "".intercalate (b.statements.map p.statementLine)

def listing (p : Program) : String :=
  "// Constants\n" ++
    "".intercalate (p.layout.constants.fields.zipWith constantLine p.constantValues) ++
    "\n// Evolved variables\n" ++
    "".intercalate (p.layout.state.fields.zipIdx.map fun e => p.stateLine e.1 e.2) ++
    "\n// Auxiliary variables\n" ++
    "".intercalate (p.layout.aux.fields.map auxLine) ++
    "\nfunction f(state) \x7b\n" ++
    "".intercalate (p.blocks.map p.blockLines) ++
    "    return dqdt;\n\x7d\n"

end Program

end DiffAnalyzer
