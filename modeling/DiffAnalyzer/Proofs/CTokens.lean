import DiffAnalyzer.CSource.Text
import DiffAnalyzer.Proofs.Renaming
import DiffAnalyzer.Proofs.SourceNumbers
import Mathlib

/-!
# Tokens of C

`CSource.lex` reads a line of C: names and numbers go as far as they can, and a comment ends
the line.  What a generated program writes for a name or a literal is read as such, in front
of anything that neither goes on with (`CSource.lex_name`, `CSource.exists_lex_sourceText`).

`CSource.accesses` and `CSource.calls` look at every place of a line: at members that are
reached through `->` or a point, and at calls of element functions with the number of their
arguments.
-/

namespace DiffAnalyzer

/-- A letter or an underscore, and then letters, digits and underscores. -/
def isIdentifier : List Char → Bool
  | [] => false
  | c :: rest => isNameStart c && rest.all isPlainPart

theorem Atom.isIdentifier_chars {a : Atom} (h : a.isPlain = true) :
    isIdentifier a.chars = true := by
  unfold isPlain at h
  unfold isIdentifier
  exact h

namespace CSource

inductive Token where
  | word (name : List Char)
  | number (text : List Char)
  | symbol (c : Char)
deriving DecidableEq, Repr

namespace Token

/-- A number goes on with letters, digits and points, and with a sign behind the mark of an
exponent. -/
def numberGoesOn (text : List Char) (c : Char) : Bool :=
  isPlainPart c || c == '.' ||
    (c == '-' || c == '+') && (text.getLast? == some 'e' || text.getLast? == some 'E')

/-- The token with one more character, if it goes on. -/
def extend? : Token → Char → Option Token
  | .word name, c => if isPlainPart c then some (.word (name ++ [c])) else none
  | .number text, c => if numberGoesOn text c then some (.number (text ++ [c])) else none
  | .symbol _, _ => none

/-- The token that starts with a character; a blank starts none. -/
def start? (c : Char) : Option Token :=
  if c = ' ' then none
  else if isNameStart c then some (.word [c])
  else if c.isDigit then some (.number [c])
  else some (.symbol c)

end Token

/-- The tokens of a line whose first token has been read in part. -/
def lexFrom : Option Token → List Char → List Token
  | pending, [] => pending.toList
  | pending, '/' :: '/' :: _ => pending.toList
  | pending, c :: rest =>
    match pending.bind (·.extend? c) with
    | some token => lexFrom (some token) rest
    | none => pending.toList ++ lexFrom (Token.start? c) rest

def lex (line : List Char) : List Token := lexFrom none line

section Lexing

variable {t u : Token} {c : Char} {rest : List Char}

theorem lexFrom_extend (hc : c ≠ '/') (h : t.extend? c = some u) :
    lexFrom (some t) (c :: rest) = lexFrom (some u) rest := by
  rw [lexFrom]
  · simp [h]
  · rintro _ rfl
    exact absurd rfl hc

theorem lex_cons (hc : c ≠ '/') : lex (c :: rest) = lexFrom (Token.start? c) rest := by
  rw [lex, lexFrom]
  · rfl
  · rintro _ rfl
    exact absurd rfl hc

/-- A token that does not go on is read. -/
theorem lexFrom_of_ends (h : ∀ c ∈ rest.head?, t.extend? c = none) :
    lexFrom (some t) rest = t :: lex rest := by
  unfold lex lexFrom
  split
  · rfl
  · rfl
  · rename_i c rest _
    simp [h c rfl]

@[simp] theorem lex_nil : lex [] = [] := rfl

@[simp] theorem lex_blank : lex (' ' :: rest) = lex rest := rfl

@[simp] theorem lex_comment : lex ('/' :: '/' :: rest) = [] := rfl

/-- The punctuation of generated programs. -/
def isPunctuation (c : Char) : Bool := "()[]\x7b\x7d,;=+-*>.&#:".toList.contains c

theorem lex_symbol (h : isPunctuation c = true) : lex (c :: rest) = .symbol c :: lex rest := by
  have hstart : c ≠ '/' ∧ Token.start? c = some (.symbol c) := by
    simp only [isPunctuation, List.contains_eq_mem, decide_eq_true_eq] at h
    fin_cases h <;> exact ⟨by decide, rfl⟩
  rw [lex_cons hstart.1, hstart.2]
  exact lexFrom_of_ends fun _ _ => rfl

theorem ne_slash_of_isPlainPart (h : isPlainPart c = true) : c ≠ '/' := by
  rintro rfl
  exact absurd h (by decide)

theorem lexFrom_word {name part : List Char} (hpart : ∀ c ∈ part, isPlainPart c = true) :
    lexFrom (some (.word name)) (part ++ rest) = lexFrom (some (.word (name ++ part))) rest := by
  induction part generalizing name with
  | nil => simp
  | cons c part ih =>
    obtain ⟨hc, hpart⟩ := List.forall_mem_cons.mp hpart
    have hextend : (Token.word name).extend? c = some (.word (name ++ [c])) := if_pos hc
    rw [List.cons_append, lexFrom_extend (ne_slash_of_isPlainPart hc) hextend, ih hpart,
      List.append_assoc, List.singleton_append]

/-- A name is read as a word. -/
theorem lex_name {name : List Char} (hname : isIdentifier name = true)
    (hrest : ∀ c ∈ rest.head?, isPlainPart c = false) :
    lex (name ++ rest) = .word name :: lex rest := by
  cases name with
  | nil => cases hname
  | cons c part =>
    rw [isIdentifier, Bool.and_eq_true, List.all_eq_true] at hname
    have hc : c ≠ '/' ∧ c ≠ ' ' := by
      constructor
      all_goals rintro rfl; exact absurd hname.1 (by decide)
    have hstart : Token.start? c = some (.word [c]) := by
      rw [Token.start?, if_neg hc.2, if_pos hname.1]
    rw [List.cons_append, lex_cons hc.1, hstart, lexFrom_word hname.2]
    refine lexFrom_of_ends fun d hd => ?_
    simp [Token.extend?, hrest d hd]

theorem lexFrom_number {text part : List Char}
    (hpart : ∀ c ∈ part, isPlainPart c = true ∨ c = '.') :
    lexFrom (some (.number text)) (part ++ rest) =
      lexFrom (some (.number (text ++ part))) rest := by
  induction part generalizing text with
  | nil => simp
  | cons c part ih =>
    obtain ⟨hc, hpart⟩ := List.forall_mem_cons.mp hpart
    have hslash : c ≠ '/' := by
      rcases hc with hc | rfl
      · exact ne_slash_of_isPlainPart hc
      · decide
    have hextend : (Token.number text).extend? c = some (.number (text ++ [c])) := by
      refine if_pos ?_
      rcases hc with hc | rfl
      · simp [Token.numberGoesOn, hc]
      · simp [Token.numberGoesOn]
    rw [List.cons_append, lexFrom_extend hslash hextend, ih hpart, List.append_assoc,
      List.singleton_append]

/-- What comes next belongs neither to a name nor to a number. -/
def EndsToken (rest : List Char) : Prop :=
  ∀ c ∈ rest.head?, isPlainPart c = false ∧ c ≠ '.' ∧ c ≠ '-' ∧ c ≠ '+'

theorem EndsToken.extend?_eq_none (h : EndsToken rest) (t : Token) :
    ∀ c ∈ rest.head?, t.extend? c = none := by
  intro c hc
  obtain ⟨hpart, hpoint, hminus, hplus⟩ := h c hc
  cases t with
  | word name => simp [Token.extend?, hpart]
  | number text => simp [Token.extend?, Token.numberGoesOn, hpart, hpoint, hminus, hplus]
  | symbol d => rfl

theorem EndsToken.head (h : EndsToken rest) : ∀ c ∈ rest.head?, isPlainPart c = false :=
  fun c hc => (h c hc).1

theorem not_isPlainPart_head (hc : isPlainPart c = false) :
    ∀ d ∈ (c :: rest).head?, isPlainPart d = false := by
  rintro _ ⟨⟩
  exact hc

/-- The first word of an indented line. -/
theorem lex_indentedWord {name : List Char} (hname : isIdentifier name = true) :
    lex (' ' :: ' ' :: ' ' :: ' ' :: (name ++ ' ' :: rest)) = .word name :: lex rest := by
  have hblank : isPlainPart ' ' = false := rfl
  rw [lex_blank, lex_blank, lex_blank, lex_blank, lex_name hname (not_isPlainPart_head hblank),
    lex_blank]

theorem endsToken_cons (hc : isPlainPart c = false) (h : c ≠ '.' ∧ c ≠ '-' ∧ c ≠ '+') :
    EndsToken (c :: rest) := by
  rintro _ ⟨⟩
  exact ⟨hc, h⟩

theorem isPlainPart_of_isDigit (h : c.isDigit = true) : isPlainPart c = true := by
  simp [isPlainPart, Char.isAlphanum, h]

theorem start?_of_isDigit (h : c.isDigit = true) : Token.start? c = some (.number [c]) := by
  have hblank : c ≠ ' ' := by
    rintro rfl
    cases h
  have hname : isNameStart c = false := by
    simp only [Char.isDigit, ge_iff_le, Bool.and_eq_true, decide_eq_true_eq,
      UInt32.le_iff_toNat_le] at h
    simp only [isNameStart, Char.isAlpha, Char.isUpper, Char.isLower, ge_iff_le,
      UInt32.le_iff_toNat_le, ← UInt32.toNat_inj, Bool.or_eq_false_iff, Bool.and_eq_false_iff,
      decide_eq_false_iff_not, beq_eq_false_iff_ne, ne_eq, Char.ext_iff]
    have hbounds : 48 ≤ c.val.toNat ∧ c.val.toNat ≤ 57 := h
    show (¬(65 ≤ c.val.toNat ∧ c.val.toNat ≤ 90) ∧ (¬97 ≤ c.val.toNat ∨ ¬c.val.toNat ≤ 122)) ∧
      ¬c.val.toNat = 95
    omega
  rw [Token.start?, if_neg hblank, hname, if_neg Bool.false_ne_true, if_pos h]

/-- Digits and points, and perhaps an exponent, are read as one number. -/
theorem lex_numeral {front back : List Char} (hc : c.isDigit = true)
    (hfront : ∀ d ∈ front, d.isDigit = true ∨ d = '.')
    (hback : back = [] ∨ ∃ power, (∀ d ∈ power, d.isDigit = true) ∧
      (back = 'e' :: power ∨ back = 'e' :: '-' :: power))
    (hrest : EndsToken rest) :
    lex (c :: (front ++ back) ++ rest) = .number (c :: (front ++ back)) :: lex rest := by
  have hpart : ∀ {part : List Char}, (∀ d ∈ part, d.isDigit = true) →
      ∀ d ∈ part, isPlainPart d = true ∨ d = '.' :=
    fun h d hd => .inl (isPlainPart_of_isDigit (h d hd))
  have hslash : c ≠ '/' := ne_slash_of_isPlainPart (isPlainPart_of_isDigit hc)
  rw [List.cons_append, lex_cons hslash, start?_of_isDigit hc, List.append_assoc, lexFrom_number
    fun d hd => (hfront d hd).imp_left isPlainPart_of_isDigit]
  have hplain : ∀ part : List Char, (∀ d ∈ part, isPlainPart d = true ∨ d = '.') →
      ∀ text, lexFrom (some (.number text)) (part ++ rest) = .number (text ++ part) :: lex rest :=
    fun part h text => (lexFrom_number h).trans (lexFrom_of_ends (hrest.extend?_eq_none _))
  rcases hback with rfl | ⟨power, hpower, rfl | rfl⟩
  · exact (hplain [] (by simp) _).trans (by simp)
  · refine (hplain ('e' :: power) ?_ _).trans (by simp)
    exact List.forall_mem_cons.mpr ⟨.inl rfl, hpart hpower⟩
  · -- the sign goes on with the number because it follows the mark
    have hmark : ∀ text, lexFrom (some (.number text)) ('e' :: '-' :: power ++ rest) =
        lexFrom (some (.number (text ++ ['e', '-']))) (power ++ rest) := by
      intro text
      have he : (Token.number text).extend? 'e' = some (.number (text ++ ['e'])) :=
        rfl
      have hsign : (Token.number (text ++ ['e'])).extend? '-' =
          some (.number (text ++ ['e'] ++ ['-'])) := by simp [Token.extend?, Token.numberGoesOn]
      rw [List.cons_append, List.cons_append, lexFrom_extend (by decide) he,
        lexFrom_extend (by decide) hsign, List.append_assoc]
      rfl
    rw [hmark, hplain power (hpart hpower)]
    simp

end Lexing

section Literals

/-- The tokens of a literal: a word for what is not finite, else a number with its sign. -/
inductive IsLiteral (x : Number) : List Token → Prop where
  | nan (h : x.isNaN = true) : IsLiteral x [.word "NAN".toList]
  | infinity (h : x.isInfinite = true) (hpositive : x.negative = false) :
    IsLiteral x [.word "INFINITY".toList]
  | negativeInfinity (h : x.isInfinite = true) (hnegative : x.negative = true) :
    IsLiteral x [.symbol '(', .symbol '-', .word "INFINITY".toList, .symbol ')']
  | positive (h : x.isFinite = true) : IsLiteral x [.number x.sourceText]
  | negative (h : x.isFinite = true) {digits : List Char} (htext : x.sourceText = '-' :: digits) :
    IsLiteral x [.symbol '-', .number digits]

theorem exists_lex_sourceText (x : Number) : ∃ ts, IsLiteral x ts ∧
    ∀ rest, EndsToken rest → lex (x.sourceText ++ rest) = ts ++ lex rest := by
  by_cases hnan : x.isNaN = true
  · refine ⟨_, .nan hnan, fun rest hrest => ?_⟩
    rw [Number.sourceText, if_pos hnan]
    exact lex_name (by decide) hrest.head
  by_cases hinfinite : x.isInfinite = true
  · cases hnegative : x.negative with
    | true =>
      refine ⟨_, .negativeInfinity hinfinite hnegative, fun rest _ => ?_⟩
      rw [Number.sourceText, if_neg hnan, if_pos hinfinite, hnegative, if_pos rfl]
      show lex ('(' :: '-' :: ("INFINITY".toList ++ ')' :: rest)) = _
      rw [lex_symbol rfl, lex_symbol rfl, lex_name rfl (not_isPlainPart_head rfl),
        lex_symbol rfl]
      rfl
    | false =>
      refine ⟨_, .infinity hinfinite hnegative, fun rest hrest => ?_⟩
      rw [Number.sourceText, if_neg hnan, if_pos hinfinite, hnegative, if_neg Bool.false_ne_true]
      exact lex_name (by decide) hrest.head
  · have hfinite : x.isFinite = true := by
      simp only [Number.isNaN, Number.isInfinite, Number.isFinite, decide_eq_true_eq,
        beq_iff_eq] at hnan hinfinite ⊢
      omega
    obtain ⟨d, front, back, htext, hd, hfront, hback⟩ := Number.exists_sourceText_eq hfinite
    cases hnegative : x.negative with
    | true =>
      have htext' : x.sourceText = '-' :: d :: (front ++ back) := by
        rw [htext, Number.minus, hnegative]
        rfl
      refine ⟨_, .negative hfinite htext', fun rest hrest => ?_⟩
      rw [htext', List.cons_append, lex_symbol rfl, lex_numeral hd hfront hback hrest]
      rfl
    | false =>
      have htext' : x.sourceText = d :: (front ++ back) := by
        rw [htext, Number.minus, hnegative]
        rfl
      refine ⟨_, .positive hfinite, fun rest hrest => ?_⟩
      rw [htext', lex_numeral hd hfront hback hrest]
      rfl

end Literals

section Places

/-- What is found at the places of a line. -/
def everywhere {α : Type} (find? : List Token → Option α) : List Token → List α
  | [] => []
  | t :: rest => (find? (t :: rest)).toList ++ everywhere find? rest

/-- The access to a member at the front: the name it is reached by, and the member. -/
def access? : List Token → Option (List Char × List Char)
  | .word record :: .symbol '-' :: .symbol '>' :: .word member :: _ => some (record, member)
  | .word record :: .symbol '.' :: .word member :: _ => some (record, member)
  | _ => none

/-- The members that a line accesses. -/
def accesses (line : List Token) : List (List Char × List Char) := everywhere access? line

/-- The commas up to the parenthesis that closes, those of inner lists apart. -/
def separators : (depth : Nat) → List Token → Nat
  | _, [] => 0
  | depth, t :: rest =>
    if t = .symbol '(' then separators (depth + 1) rest
    else if t = .symbol ')' then if depth = 0 then 0 else separators (depth - 1) rest
    else if t = .symbol ',' ∧ depth = 0 then separators depth rest + 1
    else separators depth rest

/-- The number of arguments, read behind the parenthesis that opens. -/
def argumentCount (rest : List Token) : Nat :=
  if rest.head? = some (.symbol ')') then 0 else separators 0 rest + 1

/-- The call of an element function at the front: its name and the number of arguments. -/
def call? : List Token → Option (List Char × Nat)
  | .word name :: .symbol '(' :: rest =>
    if "dda_".toList.isPrefixOf name then some (name, argumentCount rest) else none
  | _ => none

/-- The element functions that a line calls. -/
def calls (line : List Token) : List (List Char × Nat) := everywhere call? line

/-- The mark is not part of an access. -/
def Divides (c : Char) : Prop := c ≠ '-' ∧ c ≠ '>' ∧ c ≠ '.'

variable {c : Char}

theorem access?_append (hc : Divides c) (xs ys : List Token) :
    access? (xs ++ .symbol c :: ys) = access? xs := by
  obtain ⟨hminus, hgreater, hpoint⟩ := hc
  -- no access has more than four tokens
  rcases xs with _ | ⟨_ | _ | _, _ | ⟨_ | _ | _, _ | ⟨_ | _ | _, _ | ⟨_ | _ | _, xs⟩⟩⟩⟩ <;>
    simp only [access?, List.nil_append, List.cons_append] <;> grind

@[simp] theorem accesses_symbol (ys : List Token) :
    accesses (.symbol c :: ys) = accesses ys := rfl

theorem accesses_append (hc : Divides c) (xs ys : List Token) :
    accesses (xs ++ .symbol c :: ys) = accesses xs ++ accesses ys := by
  induction xs with
  | nil => rfl
  | cons x xs ih =>
    show (access? (x :: xs ++ .symbol c :: ys)).toList ++ accesses (xs ++ .symbol c :: ys) =
      (access? (x :: xs)).toList ++ accesses xs ++ accesses ys
    rw [access?_append hc, ih, List.append_assoc]

/-- A list in parentheses does not end as soon as it starts. -/
def NotEmptyList (a b : Token) : Prop := ¬(a = .symbol '(' ∧ b = .symbol ')')

/-- Besides, no name has a list of arguments. -/
def NoCall (a b : Token) : Prop := NotEmptyList a b ∧ (b = .symbol '(' → ∀ name, a ≠ .word name)

theorem not_infix_of_isChain {line : List Token} (h : line.IsChain NotEmptyList) :
    ¬[.symbol '(', .symbol ')'] <:+: line := by
  intro hinfix
  have hpair := List.IsChain.infix h hinfix
  exact List.isChain_pair.mp hpair ⟨rfl, rfl⟩

theorem calls_eq_nil {line : List Token} (h : line.IsChain NoCall) : calls line = [] := by
  induction line with
  | nil => rfl
  | cons t rest ih =>
    have hcall : call? (t :: rest) = none := by
      unfold call?
      split
      · rename_i name _ heq
        rw [heq] at h
        exact absurd rfl ((List.isChain_cons_cons.mp h).1.2 rfl name)
      · rfl
    show (call? (t :: rest)).toList ++ calls rest = []
    rw [hcall, ih h.tail]
    rfl

end Places

end CSource

end DiffAnalyzer
