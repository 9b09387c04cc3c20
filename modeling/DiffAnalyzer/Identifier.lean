import DiffAnalyzer.EquationSet.Basic

/-!
# Identifiers

A list of names is written with commas between them and white space around them
(`Atom.ofNameList`).  `cleanName` turns any text into an identifier of letters, digits
and underscores, and a `Renamer` does so for one name after another, keeping distinct
names distinct and out of the way of reserved words.
-/

namespace DiffAnalyzer

/-- Unicode white space. -/
def isBlankChar (c : Char) : Bool :=
  let n := c.toNat
  (9 ≤ n && n ≤ 13) || n == 0x20 || n == 0x85 || n == 0xA0 || n == 0x1680 ||
    (0x2000 ≤ n && n ≤ 0x200A) || n == 0x2028 || n == 0x2029 || n == 0x202F || n == 0x205F ||
    n == 0x3000

/-- A text without the white space at its ends. -/
def trimBlanks (text : List Char) : List Char :=
  ((text.dropWhile isBlankChar).reverse.dropWhile isBlankChar).reverse

/-- The atoms of a comma separated list. -/
def Atom.ofNameList (query : String) : Except CompileError (List Atom) :=
  (query.toList.splitOn ',').mapM fun name => Atom.ofString (String.ofList (trimBlanks name))

/-- What becomes of a character in a plain identifier. -/
def cleanChar? (c : Char) : Option Char :=
  if c = '^' ∨ c = '-' then some '_'
  else if c.isAlphanum ∨ c = '_' then some c
  else none

theorem isNamePart_of_cleanChar? {c d : Char} (h : cleanChar? c = some d) :
    isNamePart d = true := by
  unfold cleanChar? at h
  split at h
  · cases h
    decide
  · split at h
    · rename_i hc
      cases h
      rcases hc with hc | hc <;> simp [isNamePart, hc]
    · cases h

/-- Letters, digits and underscores, with an underscore before a leading digit. -/
def cleanChars (name : List Char) : List Char :=
  match name.filterMap cleanChar? with
  | [] => []
  | c :: rest => if c.isDigit then '_' :: c :: rest else c :: rest

theorem isName_cleanChars {name : List Char} (h : cleanChars name ≠ []) :
    isName (cleanChars name) = true := by
  have hparts : ∀ d ∈ name.filterMap cleanChar?, isNamePart d = true := fun d hd => by
    obtain ⟨c, _, hc⟩ := List.mem_filterMap.mp hd
    exact isNamePart_of_cleanChar? hc
  have hplain : ∀ d ∈ name.filterMap cleanChar?, d.isDigit = false → isNameStart d = true :=
    fun d hd hdigit => by
      obtain ⟨c, _, hc⟩ := List.mem_filterMap.mp hd
      unfold cleanChar? at hc
      split at hc
      · cases hc
        decide
      · split at hc
        · rename_i hp
          cases hc
          rcases hp with hp | hp
          · simp_all [isNameStart, Char.isAlphanum]
          · simp [isNameStart, hp]
        · cases hc
  unfold cleanChars at h ⊢
  split
  · simp_all
  · rename_i c rest hc
    rw [hc] at hparts hplain
    split
    · simp only [isName, List.all_cons, Bool.and_eq_true, List.all_eq_true]
      exact ⟨by decide, hparts c List.mem_cons_self,
        fun d hd => hparts d (List.mem_cons_of_mem _ hd)⟩
    · rename_i hdigit
      simp only [isName, Bool.and_eq_true, List.all_eq_true]
      exact ⟨hplain c List.mem_cons_self (by simpa using hdigit),
        fun d hd => hparts d (List.mem_cons_of_mem _ hd)⟩

/-- The plain identifier of a name. -/
def cleanName (name : String) : Except CompileError Atom :=
  if h : cleanChars name.toList = [] then .error (.emptyIdentifier name)
  else .ok ⟨cleanChars name.toList, isName_cleanChars h⟩

/-- Words that C keeps for itself. -/
def reservedWords : List String := [
  "auto", "break", "case", "char", "const", "continue", "default", "do", "double", "else",
  "enum", "extern", "float", "for", "goto", "if", "inline", "int", "long", "register",
  "restrict", "return", "short", "signed", "sizeof", "static", "struct", "switch", "typedef",
  "union", "unsigned", "void", "volatile", "while", "main", "_Bool", "_Complex"]

/-- Identifiers handed out so far, none of them reserved. -/
structure Renamer where
  reserved : List String
  table : List (String × Atom)

namespace Renamer

def ofReserved (reserved : List String) : Renamer := ⟨reserved, []⟩

/-- The identifier handed out for a name. -/
def get? (r : Renamer) (name : String) : Option Atom := r.table.lookup name

/-- An identifier that may not be handed out any more. -/
def occupied (r : Renamer) (a : Atom) : Bool :=
  r.reserved.contains (toString a) || r.table.any fun e => e.2 == a

/-- The identifier of a name, the same one on every call. -/
def rename (name : String) : StateT Renamer (Except CompileError) Atom := fun r =>
  match r.get? name with
  | some a => .ok (a, r)
  | none => do
    let base ← cleanName name
    match base.free? r.occupied with
    | none => .error (.nameExhaustion base)
    | some a => .ok (a, { r with table := (name, a) :: r.table })

/-- `rename` on a renamer that stays in use, whether a name is found or not. -/
def call (name : String) : ExceptT CompileError (StateM Renamer) Atom := do
  let r ← get
  match r.get? name with
  | some a => pure a
  | none =>
    let base ← cleanName name
    match base.free? r.occupied with
    | none => throw (.nameExhaustion base)
    | some a =>
      set { r with table := (name, a) :: r.table }
      pure a

end Renamer

namespace EquationSet

/-- The heads of all applications, those inside an equation before its outermost one. -/
def elementHeads (s : EquationSet) : List Atom :=
  s.values.flatMap fun rhs =>
    ((rhs.applications ++ [rhs]).filter Term.isCompound).map Term.head

/-- Turn every name into a plain identifier.  Variables stay distinct; an element whose
head is no variable is only cleaned. -/
def cleanIdentifiers (s : EquationSet) : Except CompileError EquationSet := do
  let (identifiers, _) ←
    (s.vars.mapM fun v => Renamer.rename (toString v)).run (.ofReserved [])
  let renamed := s.vars.zip identifiers
  let elements ← (s.elementHeads.filter fun head => !s.vars.contains head).mapM fun head => do
    pure (head, ← cleanName (toString head))
  let table := renamed ++ elements
  pure (s.mapHeads fun head => (table.lookup head).getD head)

end EquationSet

end DiffAnalyzer
