import DiffAnalyzer.CSource.Basic
import DiffAnalyzer.CSource.ElementFunction
import DiffAnalyzer.CSource.Fixed
import DiffAnalyzer.CSource.Integrator
import DiffAnalyzer.CSource.Realisation

/-!
# The text of generated C programs

`CProgram.text` writes a whole program: element functions, records, look-up by name,
initialisation, vector operations, the derivative function, the integrator, and the
fixed part.
-/

namespace DiffAnalyzer

namespace CSource

def numberText (x : Number) : String := String.ofList x.sourceText

/-- How the members of a group are reached. -/
def memberText (group : Group) (name : Atom) : String :=
  let record := match group with
    | .state => "state->"
    | .derivative => "dqdt->"
    | .aux => "aux->"
    | .constant => "constants."
  record ++ toString name

def Value.text : Value → String
  | .number x => numberText x
  | .member group name => memberText group name

def joinValues (separator : String) (args : List Value) : String :=
  separator.intercalate (args.map Value.text)

def Expr.text : Expr → String
  | .value v => v.text
  | .negatedSum args => "-(" ++ joinValues " + " args ++ ")"
  | .product args => "(" ++ joinValues " * " args ++ ")"
  | .sequence args => joinValues "" args
  | .call element args =>
    ElementFunction.nameOf element ++ "(" ++ joinValues ", " args ++ ")"

/-- A string literal. -/
def quoted (text : String) : String :=
  let escape (c : Char) : List Char := if c = '\\' ∨ c = '\x22' then ['\\', c] else [c]
  "\"" ++ String.ofList (text.toList.flatMap escape) ++ "\""

def quotedName (name : Atom) : String := quoted (toString name)

/-- The elements of an array of names, with the null pointer at its end. -/
def nameArray (names : List Atom) : String := ", ".intercalate (names.map quotedName ++ ["NULL"])

/-- The members of a record as laid out, a placeholder if there is none. -/
def memberNames (fields : List Field) : List String :=
  if fields.isEmpty then [placeholder] else fields.map fun field => toString field.name

def recordText (typeName : String) (fields : List Field) : String :=
  "\ntypedef struct \x7b\n" ++
    linesText ((memberNames fields).map fun name => "    double " ++ name ++ ";") ++
    "\x7d " ++ typeName ++ ";\n"

/-- The number of names in an array, and the array. -/
def arrayText (size array : String) (names : List Atom) : String :=
  "#define " ++ size ++ " " ++ toString names.length ++ "\n" ++
    "static const char *" ++ array ++ "[] = \x7b " ++ nameArray names ++ " \x7d;\n"

/-- The function that finds a member by the name of its variable. -/
def lookupText (record : String) (fields : List Field) : String :=
  "\nstatic double *" ++ record ++ "_by_name(" ++ record ++
      "_t *record, const char *name) \x7b\n" ++
    "    (void) record;\n" ++
    linesText (fields.map fun field =>
      "    if (!strcmp(name, " ++ quotedName field.variableName ++ ")) return &record->" ++
        toString field.name ++ ";") ++
    "    return NULL;\n" ++
    "\x7d\n"

/-- A function from states to a state, member by member. -/
def stateFunctionText (signature : String) (fields : List Field) (member : String → String) :
    String :=
  "\nstatic state_t " ++ signature ++ " \x7b\n" ++
    "    state_t r;\n" ++
    linesText ((memberNames fields).map fun name =>
      "    r." ++ name ++ " = " ++ member name ++ ";") ++
    "    return r;\n" ++
    "\x7d\n"

def Assignment.text (a : Assignment) : String :=
  "    " ++ memberText a.group a.name ++ " = " ++ a.expr.text ++ ";  // " ++ a.comment

/-- The comment above the statements of a block. -/
def blockHead (part : Section) : String := "\n    // " ++ toString part ++ "\n"

def Block.text (b : Block) : String :=
  if b.assignments.isEmpty then ""
  else blockHead b.part ++ linesText (b.assignments.map Assignment.text)

/-- Headers and element functions. -/
def preludeText : String :=
  "// Generated by ddac. Build with: cc -std=c99 -O2 <file> -lm\n" ++
    "\n" ++
    "#include <math.h>\n" ++
    "#include <stdio.h>\n" ++
    "#include <stdlib.h>\n" ++
    "#include <string.h>\n" ++
    "\n" ++
    "".intercalate (ElementFunction.all.map ElementFunction.text)

namespace Fields

variable (f : Fields)

def recordsText (precision : Nat) (vars : List Atom) : String :=
  "\n#define OUTPUT_PRECISION " ++ toString precision ++ "\n" ++
    recordText "state_t" f.state ++
    recordText "aux_t" f.aux ++
    recordText "const_t" f.constants ++
    "\nstatic const_t constants;\n" ++
    "static state_t initial, dt;\n\n" ++
    arrayText "N_STATE" "state_names" (f.state.map Field.variableName) ++
    arrayText "N_AUX" "aux_names" (f.aux.map Field.variableName) ++
    arrayText "N_CONST" "const_names" (f.constants.map Field.variableName) ++
    arrayText "N_VARIABLES" "all_variables" vars

def lookupsText : String :=
  lookupText "state" f.state ++ lookupText "aux" f.aux ++ lookupText "const" f.constants ++
    "\nstatic void aux_set_nan(aux_t *aux) \x7b\n" ++
    linesText ((memberNames f.aux).map fun name => "    aux->" ++ name ++ " = NAN;") ++
    "\x7d\n"

/-- Sum of states, scaling of a state, and product with the step sizes. -/
def vectorText : String :=
  stateFunctionText "state_add(state_t a, state_t b)" f.state
      (fun name => "a." ++ name ++ " + b." ++ name) ++
    stateFunctionText "state_scale(state_t a, double s)" f.state
      (fun name => "a." ++ name ++ " * s") ++
    stateFunctionText "state_mul_dt(state_t a)" f.state
      (fun name => "a." ++ name ++ " * dt." ++ name)

end Fields

/-- The function that sets the constants. -/
def constantsText (inits : List (Atom × Number)) : String :=
  "\nstatic void init_constants(void) \x7b\n" ++
    linesText (inits.map fun e =>
      "    constants." ++ toString e.1 ++ " = " ++ numberText e.2 ++ ";") ++
    "\x7d\n"

/-- The function that sets the parameters, up to its first statement. -/
def parametersHead : String := "\nstatic void init_parameters(void) \x7b\n"

def initialLine (name : Atom) (x : Value) : String :=
  "    initial." ++ toString name ++ " = " ++ x.text ++ ";"

def stepLine (name : Atom) (x : Value) : String :=
  "    dt." ++ toString name ++ " = " ++ x.text ++ ";"

def ParameterInit.text (e : ParameterInit) : String :=
  linesText [initialLine e.name e.initial, stepLine e.name e.step]

/-- Constants come before parameters, which may refer to them. -/
def initText (constants : List (Atom × Number)) (inits : List ParameterInit) : String :=
  constantsText constants ++ parametersHead ++ "".intercalate (inits.map ParameterInit.text) ++
    "\x7d\n"

/-- The derivative function up to its first block. -/
def derivativeHead : String :=
  "\nstatic void f(const state_t *state, state_t *dqdt, aux_t *aux) \x7b\n" ++
    "    (void) state;\n" ++
    "    memset(dqdt, 0, sizeof *dqdt);\n"

def derivativeText (blocks : List Block) : String :=
  derivativeHead ++ "".intercalate (blocks.map Block.text) ++ "\x7d\n"

end CSource

open CSource in
/-- The whole program. -/
def CProgram.text (p : CProgram) : String :=
  preludeText ++ p.fields.recordsText p.precision p.vars ++ p.fields.lookupsText ++
    initText p.constantInits p.parameterInits ++ p.fields.vectorText ++
    derivativeText p.blocks ++ integratorText ++ fixedText

end DiffAnalyzer
