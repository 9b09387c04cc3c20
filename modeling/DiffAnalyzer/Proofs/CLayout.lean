import DiffAnalyzer.Proofs.CItems
import DiffAnalyzer.Proofs.CStatements
import Mathlib

/-!
# The layout of a generated program

Names, numbers and terms are written without line feeds, so every statement of a generated
program is a line of its own.  `CProgram.exists_items_text` lists the items of a program up to
the integrator; what is neither a record nor one of three functions is left open
(`CSource.Item.IsOther`).
-/

namespace DiffAnalyzer

section Characters

theorem newline_not_mem_of_isDigit {digits : List Char} (h : ∀ d ∈ digits, d.isDigit = true) :
    '\n' ∉ digits := fun hd => Bool.false_ne_true (h _ hd)

@[simp] theorem newline_not_mem_toDigits (n : Nat) : '\n' ∉ Nat.toDigits 10 n :=
  newline_not_mem_of_isDigit fun _ => Number.isDigit_of_mem_toDigits

@[simp] theorem Atom.newline_not_mem_chars (a : Atom) : '\n' ∉ a.chars := by
  intro h
  have hvalid := a.valid
  cases hchars : a.chars with
  | nil =>
    rw [hchars] at h
    cases h
  | cons c rest =>
    rw [hchars] at h hvalid
    simp only [isName, Bool.and_eq_true, List.all_eq_true] at hvalid
    rcases List.mem_cons.mp h with rfl | h
    · exact absurd hvalid.1 (by decide)
    · exact absurd (hvalid.2 _ h) (by decide)

namespace Number

@[simp] theorem newline_not_mem_minus (x : Number) : '\n' ∉ x.minus := by
  rw [minus]
  split <;> simp

@[simp] theorem newline_not_mem_positional (c : Nat) (e : Int) : '\n' ∉ positional c e := by
  by_cases he : 0 ≤ e
  · obtain ⟨whole, -, hwhole, htext, -⟩ := positional_of_nonneg c he
    rw [htext]
    exact newline_not_mem_of_isDigit hwhole
  · obtain ⟨whole, fraction, -, hwhole, hfraction, htext, -⟩ := positional_of_neg c he
    rw [htext]
    simp [newline_not_mem_of_isDigit hwhole, newline_not_mem_of_isDigit hfraction]

@[simp] theorem newline_not_mem_text (x : Number) : '\n' ∉ x.text := by
  rw [text]
  split
  · simp
  · split <;> simp

@[simp] theorem newline_not_mem_scientific (c : Nat) (e : Int) : '\n' ∉ scientific c e := by
  have hfront : '\n' ∉ (Nat.toDigits 10 c).take 1 := fun h =>
    newline_not_mem_toDigits c (List.mem_of_mem_take h)
  have hback : '\n' ∉ (Nat.toDigits 10 c).tail := fun h =>
    newline_not_mem_toDigits c (List.mem_of_mem_tail h)
  rw [scientific]
  split <;> split <;> simp [hfront, hback]

@[simp] theorem newline_not_mem_sourceText (x : Number) : '\n' ∉ x.sourceText := by
  rw [sourceText]
  split
  · simp
  · split
    · split <;> simp
    · dsimp only
      split
      · simp
      · split <;> simp

end Number

theorem Arg.newline_not_mem_textRest {args : List Arg} (h : ∀ a ∈ args, '\n' ∉ a.text) :
    '\n' ∉ textRest args := by
  induction args with
  | nil => simp [textRest]
  | cons a args ih =>
    obtain ⟨ha, h⟩ := List.forall_mem_cons.mp h
    simp [textRest, ha, ih h]

theorem Arg.newline_not_mem_text (a : Arg) : '\n' ∉ a.text := by
  induction a using Arg.induct with
  | number x => simp [text]
  | node head tail ih =>
    cases tail with
    | nil => simp [text]
    | cons a rest =>
      obtain ⟨ha, hrest⟩ := List.forall_mem_cons.mp ih
      simp [text, ha, newline_not_mem_textRest hrest]

theorem Assembly.newline_not_mem_describe (name : Atom) (rhs : Term) :
    '\n' ∉ (describe name rhs).toList := by
  have hrhs : '\n' ∉ (toString rhs).toList := by
    show '\n' ∉ (String.ofList rhs.text).toList
    rw [String.toList_ofList]
    exact rhs.toArg.newline_not_mem_text
  simp [describe, hrhs]

end Characters

namespace CSource

section Lines

@[simp] theorem newline_not_mem_numberText (x : Number) : '\n' ∉ (numberText x).toList := by
  rw [numberText, String.toList_ofList]
  exact x.newline_not_mem_sourceText

@[simp] theorem newline_not_mem_memberText (group : Group) (name : Atom) :
    '\n' ∉ (memberText group name).toList := by
  cases group <;> simp [memberText]

@[simp] theorem Value.newline_not_mem_text (v : Value) : '\n' ∉ v.text.toList := by
  cases v <;> simp [text]

theorem newline_not_mem_intercalate {separator : String} (hseparator : '\n' ∉ separator.toList)
    {texts : List String} (h : ∀ text ∈ texts, '\n' ∉ text.toList) :
    '\n' ∉ (separator.intercalate texts).toList := by
  induction texts with
  | nil => simp
  | cons text texts ih =>
    obtain ⟨htext, h⟩ := List.forall_mem_cons.mp h
    cases texts with
    | nil => simpa using htext
    | cons next texts =>
      rw [String.intercalate_cons_cons]
      simpa [htext, hseparator] using ih h

@[simp] theorem ElementFunction.newline_not_mem_nameOf (element : Element) :
    '\n' ∉ (nameOf element).toList := by
  have hname : '\n' ∉ (toString element).toList := by
    show '\n' ∉ (toString element.name).toList
    simp
  simp [nameOf, hname]

@[simp] theorem Expr.newline_not_mem_text (e : Expr) : '\n' ∉ e.text.toList := by
  have hjoin : ∀ {separator : String} (args : List Value), '\n' ∉ separator.toList →
      '\n' ∉ (joinValues separator args).toList := by
    intro separator args hseparator
    refine newline_not_mem_intercalate hseparator ?_
    rw [List.forall_mem_map]
    exact fun v _ => v.newline_not_mem_text
  cases e <;> simp [text, hjoin]

theorem newline_not_mem_quotedName (name : Atom) : '\n' ∉ (quotedName name).toList := by
  have hescaped : ∀ c ∈ name.chars, '\n' ∉ if c = '\\' ∨ c = '\x22' then ['\\', c] else [c] := by
    intro c hc
    have hne : '\n' ≠ c := by
      rintro rfl
      exact name.newline_not_mem_chars hc
    split <;> simp [hne]
  simpa [quotedName, quoted] using hescaped

theorem newline_not_mem_nameArray (names : List Atom) : '\n' ∉ (nameArray names).toList := by
  refine newline_not_mem_intercalate (by simp) fun text htext => ?_
  rcases List.mem_append.mp htext with htext | htext
  · obtain ⟨name, -, rfl⟩ := List.mem_map.mp htext
    exact newline_not_mem_quotedName name
  · rw [List.mem_singleton.mp htext]
    simp

/-- Members have names of C. -/
theorem isIdentifier_of_mem_memberNames {fields : List Field}
    (hplain : ∀ field ∈ fields, field.name.isPlain = true) {name : String}
    (h : name ∈ memberNames fields) : isIdentifier name.toList = true := by
  unfold memberNames at h
  split at h
  · rw [List.mem_singleton.mp h]
    decide
  · obtain ⟨field, hfield, rfl⟩ := List.mem_map.mp h
    rw [Atom.toList_toString]
    exact Atom.isIdentifier_chars (hplain field hfield)

theorem newline_not_mem_of_mem_memberNames {fields : List Field} {name : String}
    (h : name ∈ memberNames fields) : '\n' ∉ name.toList := by
  unfold memberNames at h
  split at h
  · rw [List.mem_singleton.mp h]
    decide
  · obtain ⟨field, -, rfl⟩ := List.mem_map.mp h
    simp

end Lines

section Blocks

/-- The first line of a record. -/
def recordHead : String := "typedef struct \x7b"

/-- The last line of a record. -/
def recordFoot (typeName : String) : String := "\x7d " ++ typeName ++ ";"

/-- The first lines of the functions that set the constants and the parameters, and of the
derivative function. -/
def constantsSignature : String := "static void init_constants(void) \x7b"

def parametersSignature : String := "static void init_parameters(void) \x7b"

def derivativeSignature : String :=
  "static void f(const state_t *state, state_t *dqdt, aux_t *aux) \x7b"

/-- First and last lines of the blocks whose bodies matter. -/
def outlineBlocks : List (String × String) :=
  [(recordHead, recordFoot "state_t"), (recordHead, recordFoot "aux_t"),
    (recordHead, recordFoot "const_t"), (constantsSignature, "\x7d"), (parametersSignature, "\x7d"),
    (derivativeSignature, "\x7d")]

/-- The body of the item, if it is a block with these first and last lines. -/
def Item.body? (head foot : String) : Item → Option (List (List Char))
  | .line _ => none
  | .block first body last => if first = head.toList ∧ last = foot.toList then some body else none

/-- The body of the first block with these first and last lines. -/
def body? (head foot : String) (is : List Item) : Option (List (List Char)) :=
  is.findSome? (Item.body? head foot)

theorem body?_cons {head foot : String} {i : Item} {is : List Item} :
    body? head foot (i :: is) = (i.body? head foot).or (body? head foot is) := by
  rw [body?, body?, List.findSome?_cons]
  cases i.body? head foot <;> rfl

/-- No block whose body matters. -/
def Item.IsOther : Item → Prop
  | .line _ => True
  | .block head _ foot => ∀ e ∈ outlineBlocks, ¬(head = e.1.toList ∧ foot = e.2.toList)

theorem Item.IsOther.body?_eq_none {i : Item} (h : i.IsOther) {head foot : String}
    (hmem : (head, foot) ∈ outlineBlocks) : i.body? head foot = none := by
  cases i with
  | line => rfl
  | block => exact if_neg (h _ hmem)

theorem Item.body?_self (head foot : String) (body : List (List Char)) :
    (block head.toList body foot.toList).body? head foot = some body := if_pos ⟨rfl, rfl⟩

theorem Item.body?_of_ne {head foot head' foot' : String} (h : (head', foot') ≠ (head, foot))
    (body : List (List Char)) : (block head'.toList body foot'.toList).body? head foot = none := by
  refine if_neg ?_
  rintro ⟨hhead, hfoot⟩
  exact h (Prod.ext (String.toList_inj.mp hhead) (String.toList_inj.mp hfoot))

theorem opens_of_not_mem {line : List Char} (h : '\x7b' ∉ line) : opens line = false := by
  rw [opens, beq_eq_false_iff_ne]
  exact fun hlast => h (List.mem_of_getLast? hlast)

theorem opens_append {front back : List Char} (h : back ≠ []) :
    opens (front ++ back) = opens back := by
  rw [opens, List.getLast?_append_of_ne_nil _ h]
  rfl

/-- The text has no block whose body matters. -/
def HasOther (text : String) : Prop := ∃ is, HasItems text is ∧ ∀ i ∈ is, i.IsOther

namespace HasOther

variable {text text' : String}

theorem append (h : HasOther text) (h' : HasOther text') : HasOther (text ++ text') := by
  obtain ⟨is, his, hother⟩ := h
  obtain ⟨js, hjs, hother'⟩ := h'
  exact ⟨is ++ js, his.append hjs, List.forall_mem_append.mpr ⟨hother, hother'⟩⟩

theorem congr (h : HasOther text) (htext : text.toList = text'.toList) : HasOther text' := by
  obtain ⟨is, his, hother⟩ := h
  exact ⟨is, his.congr htext, hother⟩

theorem lines {lines : List String}
    (h : ∀ line ∈ lines, '\n' ∉ line.toList ∧ opens line.toList = false) :
    HasOther (linesText lines) := by
  refine ⟨_, .lines h, ?_⟩
  rw [List.forall_mem_map]
  exact fun line _ => trivial

theorem topBlock {head foot : String} {body : List String}
    (hhead : '\n' ∉ head.toList ∧ opens head.toList = true)
    (hbody : ∀ line ∈ body, '\n' ∉ line.toList ∧ closes line.toList = false)
    (hfoot : '\n' ∉ foot.toList ∧ closes foot.toList = true)
    (hother : (head, foot) ∉ outlineBlocks)
    (htext : text.toList = '\n' :: (head.toList ++
      '\n' :: ((linesText body).toList ++ (foot.toList ++ ['\n'])))) : HasOther text := by
  refine ⟨_, .topBlock hhead hbody hfoot htext, ?_⟩
  rw [List.forall_mem_cons, List.forall_mem_singleton]
  refine ⟨trivial, fun e he heq => hother ?_⟩
  rw [String.toList_inj, String.toList_inj] at heq
  obtain ⟨rfl, rfl⟩ := heq
  exact he

end HasOther

end Blocks

section Records

theorem not_mem_brace : '\n' ∉ "\x7d".toList ∧ closes "\x7d".toList = true := by decide

/-- The declaration of a member. -/
def memberLine (name : String) : String := "    double " ++ name ++ ";"

def recordItem (typeName : String) (fields : List Field) : Item :=
  .block recordHead.toList (((memberNames fields).map memberLine).map String.toList)
    (recordFoot typeName).toList

theorem hasItems_recordText {typeName : String} (htype : '\n' ∉ typeName.toList)
    (fields : List Field) :
    HasItems (recordText typeName fields) [.line [], recordItem typeName fields] := by
  refine .topBlock (by decide) ?_ ?_ ?_
  · rw [List.forall_mem_map]
    intro name hname
    simp [memberLine, newline_not_mem_of_mem_memberNames hname, closes]
  · simp [recordFoot, htype, closes]
  · delta recordText
    simp [recordHead, recordFoot]
    rfl

theorem hasOther_arrayText {size array : String} (hsize : '\n' ∉ size.toList ∧ '\x7b' ∉ size.toList)
    (harray : '\n' ∉ array.toList) (names : List Atom) : HasOther (arrayText size array names) := by
  have hbrace : '\x7b' ∉ Nat.toDigits 10 names.length := fun h =>
    Bool.false_ne_true (Number.isDigit_of_mem_toDigits h)
  have hlines : ∀ line ∈ ["#define " ++ size ++ " " ++ toString names.length,
      "static const char *" ++ array ++ "[] = \x7b " ++ nameArray names ++ " \x7d;"],
      '\n' ∉ line.toList ∧ opens line.toList = false := by
    rw [List.forall_mem_cons, List.forall_mem_singleton]
    refine ⟨⟨?_, opens_of_not_mem ?_⟩, ?_, ?_⟩
    · simp [hsize.1]
    · simp [hsize.2, hbrace]
    · simp [harray, newline_not_mem_nameArray]
    · rw [String.toList_append, opens_append (by simp)]
      decide
  refine (HasOther.lines hlines).congr ?_
  delta arrayText
  simp

/-- The first line of a look-up by name. -/
def lookupHead (record : String) : String :=
  "static double *" ++ record ++ "_by_name(" ++ record ++ "_t *record, const char *name) \x7b"

theorem hasOther_lookupText {record : String} (hrecord : record ∈ ["state", "aux", "const"])
    (fields : List Field) : HasOther (lookupText record fields) := by
  have hhead : ∀ record ∈ ["state", "aux", "const"],
      ('\n' ∉ (lookupHead record).toList ∧ opens (lookupHead record).toList = true) ∧
        (lookupHead record, "\x7d") ∉ outlineBlocks := by decide +kernel
  have hbody : ∀ line ∈ "    (void) record;" :: (fields.map (fun field =>
      "    if (!strcmp(name, " ++ quotedName field.variableName ++ ")) return &record->" ++
        toString field.name ++ ";") ++ ["    return NULL;"]),
      '\n' ∉ line.toList ∧ closes line.toList = false := by
    rw [List.forall_mem_cons, List.forall_mem_append, List.forall_mem_map,
      List.forall_mem_singleton]
    refine ⟨by decide, fun field _ => ?_, by decide⟩
    simp [newline_not_mem_quotedName, closes]
  obtain ⟨hhead, hother⟩ := hhead record hrecord
  refine .topBlock hhead hbody not_mem_brace hother ?_
  delta lookupText lookupHead
  simp

theorem hasOther_setNan (fields : List Field) :
    HasOther ("\nstatic void aux_set_nan(aux_t *aux) \x7b\n" ++
      linesText ((memberNames fields).map fun name => "    aux->" ++ name ++ " = NAN;") ++
        "\x7d\n") := by
  have hhead : ('\n' ∉ "static void aux_set_nan(aux_t *aux) \x7b".toList ∧
      opens "static void aux_set_nan(aux_t *aux) \x7b".toList = true) ∧
        ("static void aux_set_nan(aux_t *aux) \x7b", "\x7d") ∉ outlineBlocks := by decide +kernel
  have hbody : ∀ line ∈ (memberNames fields).map fun name => "    aux->" ++ name ++ " = NAN;",
      '\n' ∉ line.toList ∧ closes line.toList = false := by
    rw [List.forall_mem_map]
    intro name hname
    simp [newline_not_mem_of_mem_memberNames hname, closes]
  exact .topBlock hhead.1 hbody not_mem_brace hhead.2 (by simp)

/-- The functions that compute states. -/
def stateSignatures : List String :=
  ["state_add(state_t a, state_t b)", "state_scale(state_t a, double s)", "state_mul_dt(state_t a)"]

theorem hasOther_stateFunctionText {signature : String} (hsignature : signature ∈ stateSignatures)
    (fields : List Field) {member : String → String}
    (hmember : ∀ name ∈ memberNames fields, '\n' ∉ (member name).toList) :
    HasOther (stateFunctionText signature fields member) := by
  have hheads : ∀ signature ∈ stateSignatures,
      ('\n' ∉ ("static state_t " ++ signature ++ " \x7b").toList ∧
        opens ("static state_t " ++ signature ++ " \x7b").toList = true) ∧
        ("static state_t " ++ signature ++ " \x7b", "\x7d") ∉ outlineBlocks := by decide +kernel
  have hbody : ∀ line ∈ "    state_t r;" :: ((memberNames fields).map (fun name =>
      "    r." ++ name ++ " = " ++ member name ++ ";") ++ ["    return r;"]),
      '\n' ∉ line.toList ∧ closes line.toList = false := by
    rw [List.forall_mem_cons, List.forall_mem_append, List.forall_mem_map,
      List.forall_mem_singleton]
    refine ⟨by decide, fun name hname => ?_, by decide⟩
    simp [newline_not_mem_of_mem_memberNames hname, hmember name hname, closes]
  obtain ⟨hhead, hother⟩ := hheads signature hsignature
  refine .topBlock hhead hbody not_mem_brace hother ?_
  delta stateFunctionText
  simp

theorem hasOther_vectorText (f : Fields) : HasOther f.vectorText := by
  have hmembers : ∀ name ∈ memberNames f.state, '\n' ∉ name.toList := fun _ =>
    newline_not_mem_of_mem_memberNames
  refine .append (.append ?_ ?_) ?_
  · refine hasOther_stateFunctionText (by simp [stateSignatures]) _ fun name hname => ?_
    simp [hmembers name hname]
  · refine hasOther_stateFunctionText (by simp [stateSignatures]) _ fun name hname => ?_
    simp [hmembers name hname]
  · refine hasOther_stateFunctionText (by simp [stateSignatures]) _ fun name hname => ?_
    simp [hmembers name hname]

theorem hasOther_lookupsText (f : Fields) : HasOther f.lookupsText := by
  have hlookups : HasOther (lookupText "state" f.state ++ lookupText "aux" f.aux ++
      lookupText "const" f.constants) :=
    .append (.append (hasOther_lookupText (by simp) _) (hasOther_lookupText (by simp) _))
      (hasOther_lookupText (by simp) _)
  refine (hlookups.append (hasOther_setNan f.aux)).congr ?_
  delta Fields.lookupsText
  simp

end Records

section Functions

def functionItem (signature : String) (body : List String) : Item :=
  .block signature.toList (body.map String.toList) "\x7d".toList

/-- The statement that sets a constant. -/
def constantLine (e : Atom × Number) : String :=
  "    constants." ++ toString e.1 ++ " = " ++ numberText e.2 ++ ";"

def parameterLines (e : ParameterInit) : List String :=
  [initialLine e.name e.initial, stepLine e.name e.step]

theorem hasItems_initText (constants : List (Atom × Number)) (inits : List ParameterInit) :
    HasItems (initText constants inits)
      [.line [], functionItem constantsSignature (constants.map constantLine), .line [],
        functionItem parametersSignature (inits.flatMap parameterLines)] := by
  have hconstants : HasItems (constantsText constants)
      [.line [], functionItem constantsSignature (constants.map constantLine)] := by
    refine .topBlock (by decide) ?_ not_mem_brace ?_
    · rw [List.forall_mem_map]
      intro e _
      delta constantLine
      simp [closes]
    · delta constantsText constantsSignature
      simp
      rfl
  have hinits : HasItems (parametersHead ++ linesText (inits.flatMap parameterLines) ++ "\x7d\n")
      [.line [], functionItem parametersSignature (inits.flatMap parameterLines)] := by
    refine .topBlock (by decide) ?_ not_mem_brace ?_
    · rw [List.forall_mem_flatMap]
      intro e _
      rw [parameterLines, List.forall_mem_cons, List.forall_mem_singleton]
      delta initialLine stepLine
      simp [closes]
    · delta parametersHead parametersSignature
      simp
  have htext : "".intercalate (inits.map ParameterInit.text) =
      linesText (inits.flatMap parameterLines) := linesText_flatMap parameterLines inits
  refine (hconstants.append hinits).congr ?_
  delta initText
  rw [htext]
  simp

/-- The lines of a block of the derivative function. -/
def Block.lines (b : Block) : List String :=
  if b.assignments.isEmpty then []
  else "" :: ("    // " ++ toString b.part) :: b.assignments.map Assignment.text

theorem Block.text_eq (b : Block) : b.text = linesText b.lines := by
  unfold text lines
  split
  · rfl
  · refine String.toList_inj.mp ?_
    delta blockHead
    simp

def derivativeLines (blocks : List Block) : List String :=
  "    (void) state;" :: "    memset(dqdt, 0, sizeof *dqdt);" :: blocks.flatMap Block.lines

theorem hasItems_derivativeText (blocks : List Block)
    (hcomments : ∀ b ∈ blocks, ∀ a ∈ b.assignments, '\n' ∉ a.comment.toList) :
    HasItems (derivativeText blocks)
      [.line [], functionItem derivativeSignature (derivativeLines blocks)] := by
  have hblock : ∀ b ∈ blocks, ∀ line ∈ b.lines,
      '\n' ∉ line.toList ∧ closes line.toList = false := by
    intro b hb line hline
    have hpart : '\n' ∉ (toString b.part).toList := by cases b.part <;> decide
    unfold Block.lines at hline
    split at hline
    · cases hline
    rcases List.mem_cons.mp hline with rfl | hline
    · decide
    rcases List.mem_cons.mp hline with rfl | hline
    · simp [hpart, closes]
    · obtain ⟨a, ha, rfl⟩ := List.mem_map.mp hline
      simp [Assignment.text, hcomments b hb a ha, closes]
  have htext : "".intercalate (blocks.map Block.text) = linesText (blocks.flatMap Block.lines) := by
    rw [← linesText_flatMap]
    exact congrArg _ (List.map_congr_left fun b _ => b.text_eq)
  refine .topBlock (by decide) ?_ not_mem_brace ?_
  · rw [derivativeLines, List.forall_mem_cons, List.forall_mem_cons, List.forall_mem_flatMap]
    exact ⟨by decide, by decide, hblock⟩
  · delta derivativeText derivativeHead derivativeLines derivativeSignature
    rw [htext]
    simp

end Functions

section Programs

/-- The definition of an element function. -/
def ElementFunction.line (f : ElementFunction) : String :=
  "static inline double " ++ nameOf f.element ++ "(" ++
    ", ".intercalate ((parameterNames.take f.parameters).map ("double " ++ ·)) ++
    ") \x7b return " ++ f.body ++ "; \x7d"

def headerLines : List String :=
  ["// Generated by ddac. Build with: cc -std=c99 -O2 <file> -lm", "", "#include <math.h>",
    "#include <stdio.h>", "#include <stdlib.h>", "#include <string.h>", ""]

def preludeLines : List String := headerLines ++ ElementFunction.all.map ElementFunction.line

theorem ElementFunction.text_eq (f : ElementFunction) : f.text = f.line ++ "\n" := by
  refine String.toList_inj.mp ?_
  delta text line
  simp

theorem preludeText_eq : preludeText = linesText preludeLines := by
  have htext : "".intercalate (ElementFunction.all.map ElementFunction.text) =
      linesText (ElementFunction.all.map ElementFunction.line) := by
    rw [linesText, List.map_map]
    exact congrArg _ (List.map_congr_left fun f _ => f.text_eq)
  refine String.toList_inj.mp ?_
  delta preludeText preludeLines headerLines
  rw [htext]
  simp

theorem ElementFunction.newline_not_mem_line {f : ElementFunction} (hf : f ∈ all) :
    '\n' ∉ f.line.toList ∧ opens f.line.toList = false := by
  have hbodies : ∀ f ∈ all, '\n' ∉ f.body.toList := by decide +kernel
  have hnames : ∀ name ∈ parameterNames, '\n' ∉ name.toList := by decide
  have hparameters : ∀ text ∈ (parameterNames.take f.parameters).map ("double " ++ ·),
      '\n' ∉ text.toList := by
    rw [List.forall_mem_map]
    intro name hname
    simp [hnames name (List.mem_of_mem_take hname)]
  have hlist := newline_not_mem_intercalate (by decide : '\n' ∉ ", ".toList) hparameters
  delta line
  constructor
  · simp [hlist, hbodies f hf, -String.toList_intercalate, -List.map_take]
  · rw [String.toList_append, opens_append (by simp)]
    decide

theorem hasItems_preludeText :
    HasItems preludeText (preludeLines.map fun line => .line line.toList) := by
  rw [preludeText_eq]
  refine .lines ?_
  rw [preludeLines, List.forall_mem_append, List.forall_mem_map]
  exact ⟨by decide, fun f => ElementFunction.newline_not_mem_line⟩

def precisionLine (precision : Nat) : String := "#define OUTPUT_PRECISION " ++ toString precision

theorem hasItems_recordsText (f : Fields) (precision : Nat) (vars : List Atom) : ∃ others,
    (∀ i ∈ others, i.IsOther) ∧ HasItems (f.recordsText precision vars)
      (.line [] :: .line (precisionLine precision).toList ::
        .line [] :: recordItem "state_t" f.state :: .line [] :: recordItem "aux_t" f.aux ::
        .line [] :: recordItem "const_t" f.constants :: others) := by
  have hprecision : HasItems (linesText ["", precisionLine precision])
      [.line [], .line (precisionLine precision).toList] := by
    refine .lines ?_
    have hbrace : '\x7b' ∉ Nat.toDigits 10 precision := fun h =>
      Bool.false_ne_true (Number.isDigit_of_mem_toDigits h)
    rw [List.forall_mem_cons, List.forall_mem_singleton]
    delta precisionLine
    exact ⟨by decide, by simp, opens_of_not_mem (by simp [hbrace])⟩
  have hvariables : HasOther (linesText ["", "static const_t constants;",
      "static state_t initial, dt;", ""]) := .lines (by decide)
  have harrays : HasOther (arrayText "N_STATE" "state_names" (f.state.map Field.variableName) ++
      arrayText "N_AUX" "aux_names" (f.aux.map Field.variableName) ++
      arrayText "N_CONST" "const_names" (f.constants.map Field.variableName) ++
      arrayText "N_VARIABLES" "all_variables" vars) :=
    .append (.append (.append (hasOther_arrayText (by decide) (by decide) _)
      (hasOther_arrayText (by decide) (by decide) _))
      (hasOther_arrayText (by decide) (by decide) _))
      (hasOther_arrayText (by decide) (by decide) _)
  obtain ⟨others, hothers, hother⟩ := hvariables.append harrays
  refine ⟨others, hother, (hprecision.append ((hasItems_recordText (by decide) f.state).append
    ((hasItems_recordText (by decide) f.aux).append
      ((hasItems_recordText (by decide) f.constants).append hothers)))).congr ?_⟩
  delta Fields.recordsText precisionLine
  simp

end Programs

end CSource

open CSource

/-- The items of a program up to the integrator, some of the others left open. -/
theorem CProgram.exists_items_text (q : CProgram)
    (hcomments : ∀ b ∈ q.blocks, ∀ a ∈ b.assignments, '\n' ∉ a.comment.toList) :
    ∃ others others' rest, (∀ i ∈ others, i.IsOther) ∧ (∀ i ∈ others', i.IsOther) ∧
      items q.text.toList = (preludeLines.map fun line => .line line.toList) ++
        (.line [] :: .line (precisionLine q.precision).toList ::
          .line [] :: recordItem "state_t" q.fields.state ::
          .line [] :: recordItem "aux_t" q.fields.aux ::
          .line [] :: recordItem "const_t" q.fields.constants :: (others ++
          .line [] :: functionItem constantsSignature (q.constantInits.map constantLine) ::
          .line [] :: functionItem parametersSignature (q.parameterInits.flatMap parameterLines) ::
          (others' ++ .line [] ::
            functionItem derivativeSignature (derivativeLines q.blocks) :: rest))) := by
  obtain ⟨records, hrecords, hrecordsText⟩ :=
    hasItems_recordsText q.fields q.precision q.vars
  obtain ⟨lookups, hlookupsText, hlookups⟩ := hasOther_lookupsText q.fields
  obtain ⟨vectors, hvectorText, hvectors⟩ := hasOther_vectorText q.fields
  have htext := ((((hasItems_preludeText.append hrecordsText).append hlookupsText).append
    (hasItems_initText q.constantInits q.parameterInits)).append hvectorText).append
      (hasItems_derivativeText q.blocks hcomments)
  refine ⟨records ++ lookups, vectors, items (integratorText ++ fixedText).toList,
    List.forall_mem_append.mpr ⟨hrecords, hlookups⟩, hvectors, ?_⟩
  rw [text, String.append_assoc, String.toList_append, htext]
  simp

end DiffAnalyzer
