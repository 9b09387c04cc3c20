import DiffAnalyzer.Proofs.CLayout
import Mathlib

/-!
# Outlines of generated programs

`Outline.read?` reads from the text of a C program which members its records have, which
functions it starts with, and the statements of three of its functions.  Reading the text of a
`CProgram` gives back what the program has (`Outline.read?_text`, `Outline.Shows`), so a
program that is written as a whole is well scoped as a text, too
(`Target.isWellScoped_write_c`).
-/

namespace DiffAnalyzer

namespace CSource

/-- The member that a line declares as a number. -/
def member? (line : List Char) : Option (List Char) :=
  match lex line with
  | [.word type, .word name, .symbol ';'] => if type = "double".toList then some name else none
  | _ => none

/-- The members of a record. -/
def record? (typeName : String) (is : List Item) : Option (List (List Char)) :=
  body? recordHead (recordFoot typeName) is >>= fun body => body.mapM member?

/-- The statements of a function. -/
def function? (signature : String) (is : List Item) : Option (List (List Token)) :=
  (body? signature "\x7d" is).map fun body => body.map lex

/-- The function that a line defines, with the number of its parameters. -/
def definition? (line : List Char) : Option (List Char × Nat) :=
  match lex line with
  | .word storage :: .word kind :: .word type :: .word name :: .symbol '(' :: rest =>
    if storage = "static".toList ∧ kind = "inline".toList ∧ type = "double".toList then
      some (name, argumentCount rest)
    else none
  | _ => none

/-- The lines before the first block. -/
def prelude : List Item → List (List Char)
  | .line line :: rest => line :: prelude rest
  | _ => []

end CSource

open CSource

/-- What is read of a generated program: the members of its records, the functions it starts
with, and the statements of three functions. -/
structure Outline where
  state : List (List Char)
  aux : List (List Char)
  constants : List (List Char)
  functions : List (List Char × Nat)
  initConstants : List (List Token)
  initParameters : List (List Token)
  derivative : List (List Token)

namespace Outline

/-- The outline of a text, if all of it is there. -/
def read? (text : String) : Option Outline := do
  let is := items text.toList
  return {
    state := ← record? "state_t" is
    aux := ← record? "aux_t" is
    constants := ← record? "const_t" is
    functions := (prelude is).filterMap definition?
    initConstants := ← function? constantsSignature is
    initParameters := ← function? parametersSignature is
    derivative := ← function? derivativeSignature is }

variable (c : Outline)

/-- The statements of the three functions. -/
def statements : List (List Token) := c.initConstants ++ c.initParameters ++ c.derivative

/-- Names of the members of all records.  The placeholder of an empty record is no field. -/
def fieldNames : List (List Char) :=
  [c.state, c.aux, c.constants].flatMap fun names =>
    if names = [placeholder.toList] then [] else names

/-- The members of the record that is reached by a name. -/
def membersOf (record : List Char) : List (List Char) :=
  if record ∈ ["state".toList, "dqdt".toList, "initial".toList, "dt".toList] then c.state
  else if record = "aux".toList then c.aux
  else if record = "constants".toList then c.constants
  else []

/-- Fields have different names that C allows, whatever is accessed is declared, calls are calls
of functions that are defined with that many parameters, and no list of operands is empty. -/
structure IsWellScoped : Prop where
  nodup : c.fieldNames.Nodup
  plain : ∀ name ∈ c.fieldNames, isIdentifier name = true
  usable : ∀ name ∈ c.fieldNames, name ∉ unusableNames.map String.toList
  declared : ∀ line ∈ c.statements, ∀ m ∈ accesses line, m.2 ∈ c.membersOf m.1
  defined : ∀ line ∈ c.derivative, ∀ f ∈ calls line, f ∈ c.functions
  operands : ∀ line ∈ c.derivative, ¬[.symbol '(', .symbol ')'] <:+: line

/-- What is read is what the program has. -/
structure Shows (q : CProgram) : Prop where
  state : c.state = (memberNames q.fields.state).map String.toList
  aux : c.aux = (memberNames q.fields.aux).map String.toList
  constants : c.constants = (memberNames q.fields.constants).map String.toList
  functions : c.functions = ElementFunction.all.map fun f =>
    ((ElementFunction.nameOf f.element).toList, f.parameters)
  initConstants : c.initConstants.flatMap accesses =
    q.constantInits.map fun e => accessOf (.constant, e.1)
  initParameters : c.initParameters.flatMap accesses = q.parameterInits.flatMap fun e =>
    ("initial".toList, e.name.chars) :: e.initial.members.map accessOf ++
      ("dt".toList, e.name.chars) :: e.step.members.map accessOf
  derivative : c.derivative.flatMap accesses =
    (q.blocks.flatMap Block.assignments).flatMap fun a => a.members.map accessOf
  called : c.derivative.flatMap calls =
    (q.blocks.flatMap Block.assignments).flatMap fun a => a.expr.called

end Outline

namespace CSource

section Reading

variable {head foot : String} {is : List Item}

theorem body?_append {front : List Item} (h : ∀ i ∈ front, i.body? head foot = none) :
    body? head foot (front ++ is) = body? head foot is := by
  rw [body?, List.findSome?_append, List.findSome?_eq_none_iff.mpr h]
  rfl

theorem body?_lines {lines : List String} :
    body? head foot ((lines.map fun line => .line line.toList) ++ is) = body? head foot is := by
  refine body?_append ?_
  rw [List.forall_mem_map]
  exact fun _ _ => rfl

theorem body?_recordItem {typeName : String} {fields : List Field}
    (h : (recordHead, recordFoot typeName) ≠ (head, foot)) :
    body? head foot (recordItem typeName fields :: is) = body? head foot is := by
  rw [body?_cons, recordItem, Item.body?_of_ne h, Option.none_or]

theorem body?_functionItem {signature : String} {body : List String}
    (h : (signature, "\x7d") ≠ (head, foot)) :
    body? head foot (functionItem signature body :: is) = body? head foot is := by
  rw [body?_cons, functionItem, Item.body?_of_ne h, Option.none_or]

theorem member?_memberLine {name : String} (h : isIdentifier name.toList = true) :
    member? (memberLine name).toList = some name.toList := by
  have htext : (memberLine name).toList =
      ' ' :: ' ' :: ' ' :: ' ' :: ("double".toList ++ ' ' :: (name.toList ++ [';'])) := by
    simp [memberLine]
  have hends : isPlainPart ';' = false := rfl
  rw [member?, htext, lex_indentedWord (by decide), lex_name h (not_isPlainPart_head hends),
    lex_symbol rfl]
  rfl

theorem mapM_member?_eq_some {names : List String}
    (h : ∀ name ∈ names, isIdentifier name.toList = true) :
    ((names.map memberLine).map String.toList).mapM member? = some (names.map String.toList) := by
  induction names with
  | nil => rfl
  | cons name names ih =>
    obtain ⟨hname, h⟩ := List.forall_mem_cons.mp h
    rw [List.map_cons, List.map_cons, List.mapM_cons, member?_memberLine hname, ih h]
    rfl

theorem record?_recordItem {typeName : String} {fields : List Field}
    (hplain : ∀ field ∈ fields, field.name.isPlain = true) :
    record? typeName (recordItem typeName fields :: is) =
      some ((memberNames fields).map String.toList) := by
  rw [record?, body?_cons, recordItem, Item.body?_self, Option.some_or]
  exact mapM_member?_eq_some fun _ => isIdentifier_of_mem_memberNames hplain

theorem function?_functionItem {signature : String} {body : List String} :
    function? signature (functionItem signature body :: is) =
      some (body.map fun line => lex line.toList) := by
  rw [function?, body?_cons, functionItem, Item.body?_self, Option.some_or, Option.map_some,
    List.map_map]
  rfl

end Reading

section Definitions

/-- Only the list of parameters is looked at. -/
theorem argumentCount_parameters {count : Nat} (h : count ∈ [1, 2, 4]) (rest : List Char) :
    argumentCount (lex ((", ".intercalate ((ElementFunction.parameterNames.take count).map
      ("double " ++ ·))).toList ++ ')' :: ' ' :: rest)) = count := by
  fin_cases h
  all_goals
    simp [ElementFunction.parameterNames]
    rfl

theorem definition?_line {f : ElementFunction} (hf : f ∈ ElementFunction.all) :
    definition? f.line.toList = some ((ElementFunction.nameOf f.element).toList, f.parameters) := by
  have htable : ∀ f ∈ ElementFunction.all,
      isIdentifier (ElementFunction.nameOf f.element).toList = true ∧
        f.parameters ∈ [1, 2, 4] := by decide +kernel
  obtain ⟨hname, hcount⟩ := htable f hf
  have htext : f.line.toList = "static inline double ".toList ++
      ((ElementFunction.nameOf f.element).toList ++ '(' ::
        ((", ".intercalate ((ElementFunction.parameterNames.take f.parameters).map
          ("double " ++ ·))).toList ++ ')' :: ' ' ::
            ("\x7b return ".toList ++ (f.body.toList ++ "; \x7d".toList)))) := by
    delta ElementFunction.line
    simp
  have hlex : ∀ rest, lex ("static inline double ".toList ++ rest) =
      .word "static".toList :: .word "inline".toList :: .word "double".toList :: lex rest := by
    intro rest
    simp
    rfl
  have hopen : isPlainPart '(' = false := rfl
  rw [definition?, htext, hlex, lex_name hname (not_isPlainPart_head hopen), lex_symbol rfl]
  simp [argumentCount_parameters hcount, -String.toList_intercalate, -List.map_take]

/-- The functions that every program starts with. -/
def definedFunctions : List (List Char × Nat) :=
  ElementFunction.all.map fun f => ((ElementFunction.nameOf f.element).toList, f.parameters)

theorem definition?_preludeLines :
    (preludeLines.map String.toList).filterMap definition? = definedFunctions := by
  have hheaders : (headerLines.map String.toList).filterMap definition? = [] := by decide +kernel
  have hfunctions : ((ElementFunction.all.map ElementFunction.line).map String.toList).filterMap
      definition? = definedFunctions := by
    rw [List.map_map, List.filterMap_map, definedFunctions, ← List.filterMap_eq_map]
    refine List.filterMap_congr fun f hf => ?_
    simp only [Function.comp_apply]
    exact definition?_line hf
  rw [preludeLines, List.map_append, List.filterMap_append, hheaders, hfunctions]
  rfl

theorem definition?_precisionLine (precision : Nat) :
    definition? (precisionLine precision).toList = none := by
  have htext : (precisionLine precision).toList =
      '#' :: ("define OUTPUT_PRECISION ".toList ++ (toString precision).toList) := by
    delta precisionLine
    simp
  rw [definition?, htext, lex_symbol rfl]

theorem mem_definedFunctions {e : Expr} (hformed : e.IsWellFormed) {f : List Char × Nat}
    (hf : f ∈ e.called) : f ∈ definedFunctions := by
  have htable : ∀ f ∈ ElementFunction.all,
      (ElementFunction.parameterNames.take f.parameters).length = f.parameters := by decide
  cases e with
  | call element args =>
    obtain ⟨g, hg, hname, hcount⟩ := hformed
    rw [Expr.called, List.mem_singleton] at hf
    refine List.mem_map.mpr ⟨g, hg, ?_⟩
    rw [hf, ← hname, ← hcount, htable g hg]
  | _ => cases hf

theorem prelude_lines (lines : List String) (is : List Item) :
    prelude ((lines.map fun line => .line line.toList) ++ is) =
      lines.map String.toList ++ prelude is := by
  induction lines with
  | nil => rfl
  | cons line lines ih => exact congrArg (line.toList :: ·) ih

end Definitions

end CSource

open CSource

/-- The outline of a program. -/
def CProgram.outline (q : CProgram) : Outline where
  state := (memberNames q.fields.state).map String.toList
  aux := (memberNames q.fields.aux).map String.toList
  constants := (memberNames q.fields.constants).map String.toList
  functions := definedFunctions
  initConstants := (q.constantInits.map constantLine).map fun line => lex line.toList
  initParameters := (q.parameterInits.flatMap parameterLines).map fun line => lex line.toList
  derivative := (derivativeLines q.blocks).map fun line => lex line.toList

namespace Outline

variable {q : CProgram}

/-- The text of a program has its outline. -/
theorem read?_text (hplain : ∀ field ∈ q.fields.all, field.name.isPlain = true)
    (hcomments : ∀ b ∈ q.blocks, ∀ a ∈ b.assignments, '\n' ∉ a.comment.toList) :
    read? q.text = some q.outline := by
  obtain ⟨others, others', rest, hothers, hothers', hitems⟩ := q.exists_items_text hcomments
  obtain ⟨hstate, haux, hconstants⟩ :
      (∀ field ∈ q.fields.state, field.name.isPlain = true) ∧
        (∀ field ∈ q.fields.aux, field.name.isPlain = true) ∧
          ∀ field ∈ q.fields.constants, field.name.isPlain = true := by
    rwa [Fields.all, List.append_assoc, List.forall_mem_append, List.forall_mem_append] at hplain
  -- Only six blocks are looked for, and each of them is found before the integrator.
  have hblocks : ∀ {head foot : String}, (head, foot) ∈ outlineBlocks →
      body? head foot (items q.text.toList) = body? head foot
        (recordItem "state_t" q.fields.state :: recordItem "aux_t" q.fields.aux ::
          recordItem "const_t" q.fields.constants ::
          functionItem constantsSignature (q.constantInits.map constantLine) ::
          functionItem parametersSignature (q.parameterInits.flatMap parameterLines) ::
          functionItem derivativeSignature (derivativeLines q.blocks) :: rest) := by
    intro head foot hmem
    have hskip : ∀ {others is : List Item}, (∀ i ∈ others, i.IsOther) →
        body? head foot (others ++ is) = body? head foot is :=
      fun hothers => body?_append fun i hi => (hothers i hi).body?_eq_none hmem
    rw [hitems, body?_lines]
    simp only [body?_cons, Item.body?, Option.none_or, hskip hothers, hskip hothers']
  have hrecords : record? "state_t" (items q.text.toList) = some q.outline.state ∧
      record? "aux_t" (items q.text.toList) = some q.outline.aux ∧
      record? "const_t" (items q.text.toList) = some q.outline.constants := by
    refine ⟨?_, ?_, ?_⟩
    · rw [record?, hblocks (by decide)]
      exact record?_recordItem hstate
    · rw [record?, hblocks (by decide), body?_recordItem (by decide)]
      exact record?_recordItem haux
    · rw [record?, hblocks (by decide), body?_recordItem (by decide),
        body?_recordItem (by decide)]
      exact record?_recordItem hconstants
  have hfunctions : (prelude (items q.text.toList)).filterMap definition? =
      q.outline.functions := by
    have hempty : definition? [] = none := rfl
    rw [hitems, prelude_lines, List.filterMap_append, definition?_preludeLines]
    simp [prelude, recordItem, hempty, definition?_precisionLine]
    rfl
  have hbodies : function? constantsSignature (items q.text.toList) =
        some q.outline.initConstants ∧
      function? parametersSignature (items q.text.toList) = some q.outline.initParameters ∧
      function? derivativeSignature (items q.text.toList) = some q.outline.derivative := by
    refine ⟨?_, ?_, ?_⟩
    · rw [function?, hblocks (by decide), body?_recordItem (by decide),
        body?_recordItem (by decide), body?_recordItem (by decide)]
      exact function?_functionItem
    · rw [function?, hblocks (by decide), body?_recordItem (by decide),
        body?_recordItem (by decide), body?_recordItem (by decide),
        body?_functionItem (by decide)]
      exact function?_functionItem
    · rw [function?, hblocks (by decide), body?_recordItem (by decide),
        body?_recordItem (by decide), body?_recordItem (by decide),
        body?_functionItem (by decide), body?_functionItem (by decide)]
      exact function?_functionItem
  simp only [read?, hrecords, hfunctions, hbodies]
  rfl

end Outline

namespace CSource

theorem Fields.Declares.isPlain {f : Fields} {m : Group × Atom}
    (hplain : ∀ field ∈ f.all, field.name.isPlain = true) (h : f.Declares m) :
    m.2.isPlain = true := by
  have hgroup : ∀ field ∈ f.group m.1, field.name.isPlain = true := by
    obtain ⟨g, name⟩ := m
    intro field hfield
    refine hplain field ?_
    simp only [Fields.all, List.mem_append]
    cases g with
    | state | derivative => exact .inl (.inl hfield)
    | aux => exact .inl (.inr hfield)
    | constant => exact .inr hfield
  have hname := isIdentifier_of_mem_memberNames hgroup h
  rw [Atom.toList_toString] at hname
  unfold isIdentifier at hname
  unfold Atom.isPlain
  exact hname

section Blocks

/-- Lines of a block that are no statements are not read. -/
theorem blockLines_eq (b : Block) : b.assignments = [] ∧ b.lines = [] ∨ ∃ comment,
    lex comment.toList = [] ∧ b.lines = "" :: comment :: b.assignments.map Assignment.text := by
  unfold Block.lines
  split
  · rename_i hempty
    exact .inl ⟨List.isEmpty_iff.mp hempty, rfl⟩
  · exact .inr ⟨_, by simp, rfl⟩

/-- What is found in the lines of a block is found in its statements. -/
theorem flatMap_blockLines {β : Type} {find : List Token → List β} (hnil : find [] = [])
    {b : Block} {g : Assignment → List β}
    (hg : ∀ a ∈ b.assignments, find (lex a.text.toList) = g a) :
    (b.lines.map fun line => lex line.toList).flatMap find = b.assignments.flatMap g := by
  obtain ⟨hempty, hlines⟩ | ⟨comment, hcomment, hlines⟩ := blockLines_eq b
  · rw [hlines, hempty]
    rfl
  · have hblank : lex "".toList = [] := by simp
    rw [hlines, List.map_cons, List.map_cons, List.flatMap_cons, List.flatMap_cons, hblank,
      hcomment, hnil, List.map_map, List.flatMap_map]
    exact List.flatMap_congr hg

theorem flatMap_derivativeLines {β : Type} {find : List Token → List β} (hnil : find [] = [])
    (hhead : ["    (void) state;", "    memset(dqdt, 0, sizeof *dqdt);"].flatMap
      (fun line => find (lex line.toList)) = []) {blocks : List Block} {g : Assignment → List β}
    (hg : ∀ a ∈ blocks.flatMap Block.assignments, find (lex a.text.toList) = g a) :
    ((derivativeLines blocks).map fun line => lex line.toList).flatMap find =
      (blocks.flatMap Block.assignments).flatMap g := by
  show ((["    (void) state;", "    memset(dqdt, 0, sizeof *dqdt);"] ++
    blocks.flatMap Block.lines).map fun line => lex line.toList).flatMap find = _
  rw [List.map_append, List.flatMap_append, List.flatMap_map, hhead, List.nil_append,
    List.map_flatMap, List.flatMap_assoc, List.flatMap_assoc]
  exact List.flatMap_congr fun b hb => flatMap_blockLines hnil fun a ha =>
    hg a (List.mem_flatMap.mpr ⟨b, hb, ha⟩)

/-- A property of the lines of the derivative function that its statements have. -/
theorem forall_mem_derivativeLines {P : List Token → Prop} (hnil : P [])
    (hhead : ∀ line ∈ ["    (void) state;", "    memset(dqdt, 0, sizeof *dqdt);"],
      P (lex line.toList)) {blocks : List Block}
    (h : ∀ a ∈ blocks.flatMap Block.assignments, P (lex a.text.toList)) :
    ∀ line ∈ derivativeLines blocks, P (lex line.toList) := by
  have hblocks : ∀ line ∈ blocks.flatMap Block.lines, P (lex line.toList) := by
    intro line hline
    obtain ⟨b, hb, hline⟩ := List.mem_flatMap.mp hline
    obtain ⟨-, hlines⟩ | ⟨comment, hcomment, hlines⟩ := blockLines_eq b
    · rw [hlines] at hline
      cases hline
    rw [hlines, List.mem_cons, List.mem_cons, List.mem_map] at hline
    obtain rfl | rfl | ⟨a, ha, rfl⟩ := hline
    · exact hnil
    · rw [hcomment]
      exact hnil
    · exact h a (List.mem_flatMap.mpr ⟨b, hb, ha⟩)
  exact List.forall_mem_append.mpr ⟨hhead, hblocks⟩

end Blocks

section Statements

variable {q : CProgram} (h : q.IsWellScoped)
include h

theorem shows_assignment {a : Assignment} (ha : a ∈ q.blocks.flatMap Block.assignments) :
    Shows (lex a.text.toList) (a.members.map accessOf) a.expr.called := by
  obtain ⟨b, hb, ha⟩ := List.mem_flatMap.mp ha
  exact a.shows (h.exprs b hb a ha) fun m hm => (h.assignments b hb a ha m hm).isPlain h.plain

theorem shows_constantLine {e : Atom × Number} (he : e ∈ q.constantInits) :
    Shows (lex (constantLine e).toList) [accessOf (.constant, e.1)] [] := by
  have hname := (h.constants e he).isPlain h.plain
  have hrecord : isIdentifier "constants".toList = true := by decide
  have hmembers : ∀ m ∈ (Value.number e.2).members, m.2.isPlain = true := by simp [Value.members]
  have hline := shows_pointLine hrecord hname hmembers
  have htext : (constantLine e).toList = ' ' :: ' ' :: ' ' :: ' ' :: ("constants".toList ++
      '.' :: (e.1.chars ++ ' ' :: '=' :: ' ' :: ((Value.number e.2).text.toList ++ [';']))) := by
    delta constantLine
    simp [Value.text]
  rw [htext]
  exact hline

theorem shows_parameterLine {e : ParameterInit} (he : e ∈ q.parameterInits) (record : List Char)
    (hrecord : isIdentifier record = true) (v : Value) (hv : v ∈ [e.initial, e.step]) :
    Shows (lex (' ' :: ' ' :: ' ' :: ' ' :: (record ++ '.' :: (e.name.chars ++
      ' ' :: '=' :: ' ' :: (v.text.toList ++ [';']))))) ((record, e.name.chars) ::
        v.members.map accessOf) [] := by
  have hmembers : ∀ m ∈ e.members, m.2.isPlain = true := fun m hm =>
    (h.parameters e he m hm).isPlain h.plain
  obtain ⟨hname, hvalues⟩ := List.forall_mem_cons.mp hmembers
  obtain ⟨hinitial, hstep⟩ := List.forall_mem_append.mp hvalues
  refine shows_pointLine hrecord hname ?_
  rcases List.mem_pair.mp hv with rfl | rfl
  · exact hinitial
  · exact hstep

theorem accesses_parameterLines {e : ParameterInit} (he : e ∈ q.parameterInits) :
    ((parameterLines e).map fun line => lex line.toList).flatMap accesses =
      ("initial".toList, e.name.chars) :: e.initial.members.map accessOf ++
        ("dt".toList, e.name.chars) :: e.step.members.map accessOf := by
  have hinitial := shows_parameterLine h he "initial".toList (by decide) e.initial (by simp)
  have hstep := shows_parameterLine h he "dt".toList (by decide) e.step (by simp)
  have hinitialText : (initialLine e.name e.initial).toList = ' ' :: ' ' :: ' ' :: ' ' ::
      ("initial".toList ++ '.' :: (e.name.chars ++ ' ' :: '=' :: ' ' ::
        (e.initial.text.toList ++ [';']))) := by
    delta initialLine
    simp
  have hstepText : (stepLine e.name e.step).toList = ' ' :: ' ' :: ' ' :: ' ' ::
      ("dt".toList ++ '.' :: (e.name.chars ++ ' ' :: '=' :: ' ' ::
        (e.step.text.toList ++ [';']))) := by
    delta stepLine
    simp
  rw [parameterLines, List.map_cons, List.map_singleton, List.flatMap_cons, List.flatMap_singleton,
    hinitialText, hstepText, hinitial.accesses_eq, hstep.accesses_eq]

end Statements

end CSource

namespace Outline

section Programs

variable {q : CProgram} (h : q.IsWellScoped)

theorem membersOf_recordName (group : Group) :
    q.outline.membersOf (recordName group).toList =
      (memberNames (q.fields.group group)).map String.toList := by
  unfold membersOf
  cases group
  · exact if_pos (by decide)
  · exact if_pos (by decide)
  · exact (if_neg (by decide)).trans (if_pos rfl)
  · exact (if_neg (by decide)).trans ((if_neg (by decide)).trans (if_pos rfl))

theorem mem_membersOf_of_declares {m : Group × Atom} (hm : q.fields.Declares m) :
    (accessOf m).2 ∈ q.outline.membersOf (accessOf m).1 := by
  rw [accessOf, membersOf_recordName]
  exact List.mem_map.mpr ⟨toString m.2, hm, Atom.toList_toString _⟩

/-- Initial values and step sizes are laid out like the state. -/
theorem membersOf_parameter {record : List Char}
    (hrecord : record ∈ ["initial".toList, "dt".toList]) :
    q.outline.membersOf record = q.outline.membersOf (recordName .state).toList := by
  have htable : ∀ record ∈ ["initial".toList, "dt".toList],
      record ∈ ["state".toList, "dqdt".toList, "initial".toList, "dt".toList] := by decide
  unfold membersOf
  rw [if_pos (htable record hrecord), if_pos (by decide)]

include h

theorem withoutPlaceholder {fields : List Field}
    (hfields : ∀ field ∈ fields, field ∈ q.fields.all) :
    (if (memberNames fields).map String.toList = [placeholder.toList] then []
      else (memberNames fields).map String.toList) = fields.map fun field => field.name.chars := by
  cases fields with
  | nil => exact if_pos rfl
  | cons field fields =>
    have hnames : (memberNames (field :: fields)).map String.toList =
        (field :: fields).map fun field => field.name.chars := by
      simp [memberNames]
    rw [hnames, if_neg]
    intro hplaceholder
    have hname : field.name.chars = placeholder.toList := (List.cons.inj hplaceholder).1
    rw [← Atom.toList_toString, String.toList_inj] at hname
    refine h.usable field (hfields field List.mem_cons_self) ?_
    rw [hname]
    decide

theorem fieldNames_outline :
    q.outline.fieldNames = q.fields.all.map fun field => field.name.chars := by
  have hall : ∀ field, field ∈ q.fields.state ∨ field ∈ q.fields.aux ∨ field ∈ q.fields.constants →
      field ∈ q.fields.all := by simp [Fields.all]
  rw [fieldNames, List.flatMap_cons, List.flatMap_cons, List.flatMap_singleton, CProgram.outline]
  dsimp only
  rw [withoutPlaceholder h fun field hfield => hall field (.inl hfield),
    withoutPlaceholder h fun field hfield => hall field (.inr (.inl hfield)),
    withoutPlaceholder h fun field hfield => hall field (.inr (.inr hfield)), Fields.all]
  simp

theorem shows_outline : q.outline.Shows q where
  state := rfl
  aux := rfl
  constants := rfl
  functions := rfl
  initConstants := by
    rw [CProgram.outline, List.map_map, List.flatMap_map, List.map_eq_flatMap]
    exact List.flatMap_congr fun e he => (shows_constantLine h he).accesses_eq
  initParameters := by
    rw [CProgram.outline, List.map_flatMap, List.flatMap_assoc]
    exact List.flatMap_congr fun e he => accesses_parameterLines h he
  derivative := flatMap_derivativeLines rfl (by decide) fun a ha =>
    (shows_assignment h ha).accesses_eq
  called := flatMap_derivativeLines rfl (by decide) fun a ha => (shows_assignment h ha).calls_eq

/-- Members of records are accessed, and no others. -/
theorem forall_mem_statements :
    ∀ m ∈ q.outline.statements.flatMap accesses, m.2 ∈ q.outline.membersOf m.1 := by
  have hshows := shows_outline h
  have hstate : ∀ record ∈ ["initial".toList, "dt".toList], ∀ e ∈ q.parameterInits,
      e.name.chars ∈ q.outline.membersOf record := by
    intro record hrecord e he
    have hmember :=
      mem_membersOf_of_declares (h.parameters e he (.state, e.name) List.mem_cons_self)
    dsimp only [accessOf] at hmember
    rw [membersOf_parameter hrecord]
    exact hmember
  rw [statements, List.flatMap_append, List.flatMap_append, hshows.initConstants,
    hshows.initParameters, hshows.derivative, List.forall_mem_append, List.forall_mem_append,
    List.forall_mem_map, List.forall_mem_flatMap, List.forall_mem_flatMap]
  refine ⟨⟨fun e he => mem_membersOf_of_declares (h.constants e he), fun e he => ?_⟩,
    fun a ha => ?_⟩
  · have hmembers := h.parameters e he
    rw [ParameterInit.members, List.forall_mem_cons, List.forall_mem_append] at hmembers
    rw [List.forall_mem_append, List.forall_mem_cons, List.forall_mem_cons, List.forall_mem_map,
      List.forall_mem_map]
    exact ⟨⟨hstate _ List.mem_cons_self e he,
        fun m hm => mem_membersOf_of_declares (hmembers.2.1 m hm)⟩,
      hstate _ (List.mem_cons_of_mem _ List.mem_cons_self) e he,
        fun m hm => mem_membersOf_of_declares (hmembers.2.2 m hm)⟩
  · obtain ⟨b, hb, ha⟩ := List.mem_flatMap.mp ha
    rw [List.forall_mem_map]
    exact fun m hm => mem_membersOf_of_declares (h.assignments b hb a ha m hm)

theorem isWellScoped_outline : q.outline.IsWellScoped := by
  constructor
  case nodup =>
    rw [fieldNames_outline h]
    have hnodup := h.nodup.map fun a b hab => Atom.ext hab
    rwa [List.map_map] at hnodup
  case plain =>
    rw [fieldNames_outline h, List.forall_mem_map]
    exact fun field hfield => Atom.isIdentifier_chars (h.plain field hfield)
  case usable =>
    rw [fieldNames_outline h, List.forall_mem_map]
    intro field hfield hname
    obtain ⟨name, hunusable, hname⟩ := List.mem_map.mp hname
    rw [← Atom.toList_toString, String.toList_inj] at hname
    exact h.usable field hfield (hname ▸ hunusable)
  case declared =>
    intro line hline m hm
    refine forall_mem_statements h m ?_
    exact List.mem_flatMap.mpr ⟨line, hline, hm⟩
  case defined =>
    intro line hline f hf
    have hread : f ∈ q.outline.derivative.flatMap calls := List.mem_flatMap.mpr ⟨line, hline, hf⟩
    rw [(shows_outline h).called] at hread
    obtain ⟨a, ha, hf⟩ := List.mem_flatMap.mp hread
    obtain ⟨b, hb, ha⟩ := List.mem_flatMap.mp ha
    exact mem_definedFunctions (h.exprs b hb a ha) hf
  case operands =>
    rw [CProgram.outline, List.forall_mem_map]
    refine forall_mem_derivativeLines (P := fun line => ¬[.symbol '(', .symbol ')'] <:+: line)
      (by simp) (by decide) ?_
    exact fun a ha => not_infix_of_isChain (shows_assignment h ha).lists

end Programs

end Outline

namespace Program

variable {p : Program}

/-- A statement is described by its equation, which is a single line. -/
theorem IsAssembled.newline_not_mem_description {v : Vocabulary} {s : EquationSet}
    {evolutions : List Assembly.Evolution} {sorted cyclic unneeded : List Statement}
    (h : p.IsAssembled v s (s.groups v) evolutions sorted cyclic unneeded) {st : Statement}
    (hst : st ∈ p.statements) : '\n' ∉ st.description.toList := by
  obtain ⟨name, -, hst⟩ | ⟨e, ⟨name, -, he⟩, rfl⟩ := h.mem_statements_iff.mp hst
  · obtain ⟨rhs, expr, index, -, -, -, rfl⟩ := Assembly.auxiliary_eq_ok_iff.mp hst
    exact Assembly.newline_not_mem_describe name rhs
  · obtain ⟨rhs, _, _, _, _, _, -, -, -, -, -, -, -, -, hderivative⟩ :=
      Assembly.evolution_eq_ok_iff.mp he
    rw [hderivative]
    exact Assembly.newline_not_mem_describe name rhs

end Program

/-- A C program that is written as a whole is well scoped, and so is what is read of its text. -/
theorem Target.isWellScoped_write_c {s : EquationSet} {c : Classification} {p : Program}
    (hclassify : s.classify .standard = .ok c) (hassemble : Program.assemble .standard s c = .ok p)
    {o : CompileOptions} {out out' : String}
    (hrun : (Target.c.write o p).run out = (.ok (), out')) :
    ∃ q code, p.toC o.precision = .ok q ∧ out' = out ++ q.text ∧ q.IsWellScoped ∧
      Outline.read? q.text = some code ∧ code.Shows q ∧ code.IsWellScoped := by
  have hconsistent := Program.isConsistent_of_assemble hclassify hassemble
  obtain rfl := s.groups_of_classify .standard hclassify
  obtain ⟨_, _, _, _, hp⟩ := Program.assemble_eq_ok_iff.mp hassemble
  obtain ⟨q, hq, htext⟩ := hconsistent.exists_toC_of_run hrun
  have hscoped := hp.isWellScoped hq
  have hcomments : ∀ b ∈ q.blocks, ∀ a ∈ b.assignments, '\n' ∉ a.comment.toList := by
    intro b hb a ha
    obtain ⟨st, hst, hassignment⟩ := Program.exists_statement_of_toC hq hb ha
    obtain ⟨-, hcomment, -⟩ := Fields.assignment_eq_ok_iff.mp hassignment
    rw [hcomment]
    exact hp.newline_not_mem_description hst
  exact ⟨q, q.outline, hq, htext, hscoped, Outline.read?_text hscoped.plain hcomments,
    Outline.shows_outline hscoped, Outline.isWellScoped_outline hscoped⟩

/-- A keyword of C as a constant, and two names that are one without their punctuation. -/
def clashingNames : EquationSet :=
  let double : Atom := ⟨"double".toList, by decide⟩
  let point : Atom := ⟨['x', '.', '1'], by decide⟩
  let prime : Atom := ⟨['x', '\x27', '1'], by decide⟩
  let y : Atom := ⟨['y'], .refl true⟩
  .ofList [(double, ⟨Element.const.name, [.number ⟨0x3ff0000000000000⟩]⟩),
    (point, ⟨Element.min.name, [.node y [], .node double []]⟩),
    (prime, ⟨Element.sum.name, [.node point [], .node y []]⟩),
    (y, ⟨Element.int.name, [.node prime [], .node double [], .node double []]⟩)]

theorem Target.isWellScoped_write_c_clashingNames :
    ∃ c p q code, clashingNames.classify .standard = .ok c ∧
      Program.assemble .standard clashingNames c = .ok p ∧ p.toC none = .ok q ∧
      (Target.c.write {} p).run "" = (.ok (), q.text) ∧ Outline.read? q.text = some code ∧
      code.IsWellScoped ∧ code.state = [['y']] ∧ code.aux = [['x', '1'], ['x', '1', '_']] ∧
      code.constants = ["double_".toList] ∧
      code.initConstants.flatMap accesses = [("constants".toList, "double_".toList)] ∧
      code.initParameters.flatMap accesses =
        [("initial".toList, ['y']), ("constants".toList, "double_".toList),
          ("dt".toList, ['y']), ("constants".toList, "double_".toList)] ∧
      code.derivative.flatMap accesses =
        [("aux".toList, ['x', '1', '_']), ("state".toList, ['y']),
          ("constants".toList, "double_".toList), ("aux".toList, ['x', '1']),
          ("aux".toList, ['x', '1', '_']), ("state".toList, ['y']), ("dqdt".toList, ['y']),
          ("aux".toList, ['x', '1'])] ∧
      code.derivative.flatMap calls = [("dda_min".toList, 2)] := by
  obtain ⟨c, hclassify⟩ : ∃ c, clashingNames.classify .standard = .ok c := ⟨_, rfl⟩
  obtain ⟨p, hassemble, hrecords, haccesses, hcalled⟩ :
      ∃ p, Program.assemble .standard clashingNames c = .ok p ∧
        (p.toC none).map (fun q => [q.fields.state, q.fields.aux, q.fields.constants].map
          fun fields => (memberNames fields).map String.toList) =
            .ok [[['y']], [['x', '1'], ['x', '1', '_']], ["double_".toList]] ∧
        (p.toC none).map (fun q => [q.constantInits.map fun e => accessOf (.constant, e.1),
          q.parameterInits.flatMap fun e =>
            ("initial".toList, e.name.chars) :: e.initial.members.map accessOf ++
              ("dt".toList, e.name.chars) :: e.step.members.map accessOf,
          (q.blocks.flatMap Block.assignments).flatMap fun a => a.members.map accessOf]) =
          .ok [[("constants".toList, "double_".toList)],
            [("initial".toList, ['y']), ("constants".toList, "double_".toList),
              ("dt".toList, ['y']), ("constants".toList, "double_".toList)],
            [("aux".toList, ['x', '1', '_']), ("state".toList, ['y']),
              ("constants".toList, "double_".toList), ("aux".toList, ['x', '1']),
              ("aux".toList, ['x', '1', '_']), ("state".toList, ['y']), ("dqdt".toList, ['y']),
              ("aux".toList, ['x', '1'])]] ∧
        (p.toC none).map (fun q => (q.blocks.flatMap Block.assignments).flatMap fun a =>
          a.expr.called) = .ok [("dda_min".toList, 2)] := by
    cases hclassify
    exact ⟨_, rfl, by decide +kernel, by decide +kernel, by decide +kernel⟩
  obtain ⟨q, hq, hmembers⟩ := map_eq_ok_iff.mp hrecords
  have hrun : (Target.c.write {} p).run "" = (.ok (), "" ++ q.text) := Program.writes_of_toC hq ""
  obtain ⟨q', code, hq', -, -, hread, hshows, hscoped⟩ :=
    Target.isWellScoped_write_c hclassify hassemble hrun
  cases hq.symm.trans hq'
  rw [String.empty_append] at hrun
  rw [hq] at haccesses hcalled
  simp only [Except.map, Except.ok.injEq, List.map_cons, List.map_nil, List.cons.injEq, and_true]
    at hmembers haccesses hcalled
  refine ⟨c, p, q, code, hclassify, hassemble, hq, hrun, hread, hscoped, ?_⟩
  rw [hshows.state, hshows.aux, hshows.constants, hshows.initConstants, hshows.initParameters,
    hshows.derivative, hshows.called]
  exact ⟨hmembers.1, hmembers.2.1, hmembers.2.2, haccesses.1, haccesses.2.1, haccesses.2.2, hcalled⟩

end DiffAnalyzer
