import DiffAnalyzer.Proofs.CTokens
import DiffAnalyzer.Proofs.Scoping
import Mathlib

/-!
# Reading statements of C

The text of an operand is read as the literal or the member that it is
(`CSource.Value.exists_isReadAs`).  So the text of an assignment shows the members that the
assignment refers to and the function that it calls (`CSource.Assignment.shows`): marks
between operands belong to no access, and no operand looks like a call.
-/

namespace DiffAnalyzer

namespace CSource

/-- The name by which the members of a group are reached. -/
def recordName : Group → String
  | .state => "state"
  | .derivative => "dqdt"
  | .aux => "aux"
  | .constant => "constants"

/-- The access to a member as it is read. -/
def accessOf (m : Group × Atom) : List Char × List Char := ((recordName m.1).toList, m.2.chars)

def memberTokens (group : Group) (name : Atom) : List Token :=
  .word (recordName group).toList ::
    ((if group = .constant then [.symbol '.'] else [.symbol '-', .symbol '>']) ++
      [.word name.chars])

section Operands

/-- The tokens of an operand. -/
inductive IsOperand : Value → List Token → Prop where
  | number {x : Number} {ts : List Token} (h : IsLiteral x ts) : IsOperand (.number x) ts
  | member (group : Group) (name : Atom) :
    IsOperand (.member group name) (memberTokens group name)

theorem isIdentifier_recordName (group : Group) :
    isIdentifier (recordName group).toList = true := by
  cases group <;> decide

theorem toList_memberText (group : Group) (name : Atom) :
    (memberText group name).toList = (recordName group).toList ++
      ((if group = .constant then ['.'] else ['-', '>']) ++ name.chars) := by
  cases group <;> simp [memberText, recordName]

theorem lex_member (group : Group) {name : Atom} (hplain : name.isPlain = true) {rest : List Char}
    (hrest : ∀ c ∈ rest.head?, isPlainPart c = false) :
    lex ((memberText group name).toList ++ rest) = memberTokens group name ++ lex rest := by
  have hrecord := isIdentifier_recordName group
  have hname := lex_name (Atom.isIdentifier_chars hplain) hrest
  have hminus : isPlainPart '-' = false := rfl
  have hpoint : isPlainPart '.' = false := rfl
  rw [toList_memberText, List.append_assoc, List.append_assoc, memberTokens]
  split
  · show lex (_ ++ '.' :: (name.chars ++ rest)) = _
    rw [lex_name hrecord (not_isPlainPart_head hpoint), lex_symbol rfl, hname]
    rfl
  · show lex (_ ++ '-' :: '>' :: (name.chars ++ rest)) = _
    rw [lex_name hrecord (not_isPlainPart_head hminus), lex_symbol rfl, lex_symbol rfl, hname]
    rfl

variable {v : Value} {ts : List Token}

/-- An operand is read in front of what cannot go on with it. -/
def Value.IsReadAs (v : Value) (ts : List Token) : Prop :=
  IsOperand v ts ∧ ∀ rest, EndsToken rest → lex (v.text.toList ++ rest) = ts ++ lex rest

theorem Value.exists_isReadAs (v : Value) (hplain : ∀ m ∈ v.members, m.2.isPlain = true) :
    ∃ ts, v.IsReadAs ts := by
  cases v with
  | number x =>
    obtain ⟨ts, hts, hlex⟩ := exists_lex_sourceText x
    exact ⟨ts, .number hts, fun rest hrest => by
      rw [text, numberText, String.toList_ofList, hlex rest hrest]⟩
  | member group name =>
    exact ⟨_, .member group name, fun rest hrest =>
      lex_member group (hplain _ (List.mem_singleton_self _)) hrest.head⟩

theorem IsOperand.accesses (h : IsOperand v ts) : accesses ts = v.members.map accessOf := by
  cases h with
  | number h => cases h <;> rfl
  | member group name => cases group <;> rfl

/-- No comma of an operand counts, and its parentheses are balanced. -/
theorem IsOperand.separators (h : IsOperand v ts) (rest : List Token) :
    separators 0 (ts ++ rest) = separators 0 rest := by
  cases h with
  | number h => cases h <;> simp [CSource.separators]
  | member group name => cases group <;> simp [memberTokens, CSource.separators]

theorem IsOperand.exists_eq_cons (h : IsOperand v ts) :
    ∃ t rest, ts = t :: rest ∧ t ≠ .symbol ')' := by
  cases h with
  | number h => cases h <;> exact ⟨_, _, rfl, by simp⟩
  | member group name => cases group <;> exact ⟨_, _, rfl, by simp⟩

/-- An operand between marks looks neither like a call nor like an empty list. -/
theorem IsOperand.isChain (h : IsOperand v ts) {c d : Char} (hd : d ≠ '(') {rest : List Token}
    (hrest : (.symbol d :: rest).IsChain NoCall) :
    (.symbol c :: (ts ++ .symbol d :: rest)).IsChain NoCall := by
  cases h with
  | number h => cases h <;> simpa [NoCall, NotEmptyList, hd] using hrest
  | member group name => cases group <;> simpa [memberTokens, NoCall, NotEmptyList, hd] using hrest

end Operands

section Lists

variable {vs : List Value} {tss : List (List Token)}

/-- Operands with a mark between any two. -/
def listTokens (mark : Char) (tss : List (List Token)) : List Token :=
  List.intercalate [.symbol mark] tss

theorem listTokens_cons_cons (mark : Char) (ts ts' : List Token) (tss : List (List Token)) :
    listTokens mark (ts :: ts' :: tss) = ts ++ .symbol mark :: listTokens mark (ts' :: tss) := by
  rw [listTokens, List.intercalate_cons_cons, List.append_assoc, List.singleton_append]
  rfl

/-- The text between two operands is read as a mark that belongs to neither. -/
structure IsSeparator (separator : String) (mark : Char) : Prop where
  lex : ∀ rest, lex (separator.toList ++ rest) = .symbol mark :: lex rest
  ends : ∀ rest, EndsToken (separator.toList ++ rest)
  divides : Divides mark
  ne : mark ≠ '('

theorem isSeparator_operator {separator : String} {mark : Char} (hmark : mark = '+' ∨ mark = '*')
    (h : separator.toList = [' ', mark, ' ']) : IsSeparator separator mark where
  lex rest := by
    have hpunctuation : isPunctuation mark = true := by
      rcases hmark with rfl | rfl <;> decide
    rw [h]
    show CSource.lex (' ' :: mark :: ' ' :: rest) = _
    rw [lex_blank, lex_symbol hpunctuation, lex_blank]
  ends rest := by
    rw [h]
    exact endsToken_cons rfl (by decide)
  divides := by rcases hmark with rfl | rfl <;> simp [Divides]
  ne := by rcases hmark with rfl | rfl <;> decide

theorem isSeparator_comma : IsSeparator ", " ',' where
  lex rest := by
    show CSource.lex (',' :: ' ' :: rest) = _
    rw [lex_symbol rfl, lex_blank]
  ends rest := endsToken_cons rfl (by decide)
  divides := by simp [Divides]
  ne := by decide

theorem lex_joinValues {separator : String} {mark : Char} (hmark : IsSeparator separator mark)
    (h : List.Forall₂ Value.IsReadAs vs tss) {rest : List Char} (hrest : EndsToken rest) :
    lex ((joinValues separator vs).toList ++ rest) = listTokens mark tss ++ lex rest := by
  induction h with
  | nil => simp [joinValues, listTokens]
  | @cons v ts vs tss hv h ih =>
    cases h with
    | nil => simpa [joinValues, listTokens] using hv.2 rest hrest
    | @cons v' ts' vs tss hv' h =>
      have hjoin : (joinValues separator (v :: v' :: vs)).toList ++ rest =
          v.text.toList ++ (separator.toList ++ ((joinValues separator (v' :: vs)).toList ++
            rest)) := by
        simp [joinValues, String.intercalate_cons_cons]
      rw [hjoin, hv.2 _ (hmark.ends _), hmark.lex, ih, listTokens_cons_cons, List.append_assoc,
        List.cons_append]

theorem accesses_listTokens {mark : Char} (hmark : Divides mark)
    (h : List.Forall₂ Value.IsReadAs vs tss) (rest : List Token) :
    accesses (listTokens mark tss ++ .symbol ')' :: rest) =
      (vs.flatMap Value.members).map accessOf ++ accesses rest := by
  have hclose : Divides ')' := by simp [Divides]
  induction h with
  | nil => rfl
  | @cons v ts vs tss hv h ih =>
    cases h with
    | nil =>
      rw [listTokens, List.intercalate_singleton, accesses_append hclose, hv.1.accesses]
      simp
    | cons hv' h =>
      rw [listTokens_cons_cons, List.append_assoc, List.cons_append, accesses_append hmark, ih,
        hv.1.accesses]
      simp

theorem isChain_listTokens {mark : Char} (hmark : mark ≠ '(')
    (h : List.Forall₂ Value.IsReadAs vs tss) (hne : vs ≠ []) {rest : List Token}
    (hrest : (.symbol ')' :: rest).IsChain NoCall) (c : Char) :
    (.symbol c :: (listTokens mark tss ++ .symbol ')' :: rest)).IsChain NoCall := by
  induction h generalizing c with
  | nil => exact absurd rfl hne
  | @cons v ts vs tss hv h ih =>
    cases h with
    | nil =>
      rw [listTokens, List.intercalate_singleton]
      exact hv.1.isChain (by decide) hrest
    | cons hv' h =>
      rw [listTokens_cons_cons, List.append_assoc, List.cons_append]
      exact hv.1.isChain hmark (ih (List.cons_ne_nil _ _) mark)

/-- Each argument but the first has a comma before it. -/
theorem separators_listTokens (h : List.Forall₂ Value.IsReadAs vs tss) (rest : List Token) :
    separators 0 (listTokens ',' tss ++ .symbol ')' :: rest) = vs.length - 1 := by
  induction h with
  | nil => rfl
  | @cons v ts vs tss hv h ih =>
    cases h with
    | nil =>
      rw [listTokens, List.intercalate_singleton, hv.1.separators]
      rfl
    | @cons v' ts' vs tss hv' h =>
      rw [listTokens_cons_cons, List.append_assoc, List.cons_append, hv.1.separators]
      show separators 0 _ + 1 = _
      rw [ih]
      simp

theorem argumentCount_listTokens (h : List.Forall₂ Value.IsReadAs vs tss) (hne : vs ≠ [])
    (rest : List Token) :
    argumentCount (listTokens ',' tss ++ .symbol ')' :: rest) = vs.length := by
  have hhead : (listTokens ',' tss ++ .symbol ')' :: rest).head? ≠ some (.symbol ')') := by
    cases h with
    | nil => exact absurd rfl hne
    | @cons v ts vs tss hv h =>
      obtain ⟨t, ts, rfl, ht⟩ := hv.1.exists_eq_cons
      cases h with
      | nil => simpa [listTokens] using ht
      | cons hv' h => simpa [listTokens_cons_cons] using ht
  rw [argumentCount, if_neg hhead, separators_listTokens h]
  exact Nat.sub_add_cancel (List.length_pos_iff.mpr hne)

end Lists

section Statements

/-- The function that an expression calls, with the number of arguments. -/
def Expr.called : Expr → List (List Char × Nat)
  | .call element args => [((ElementFunction.nameOf element).toList, args.length)]
  | _ => []

/-- What is read of a statement: the members that it accesses and the functions that it
calls; no list in parentheses is empty. -/
structure Shows (line : List Token) (accessed : List (List Char × List Char))
    (called : List (List Char × Nat)) : Prop where
  accesses_eq : accesses line = accessed
  calls_eq : calls line = called
  lists : line.IsChain NotEmptyList

variable {accessed : List (List Char × List Char)} {called : List (List Char × Nat)}

/-- Operands between marks call nothing. -/
theorem Shows.of_isChain {line : List Token} (haccesses : accesses line = accessed)
    (h : line.IsChain NoCall) : Shows line accessed [] where
  accesses_eq := haccesses
  calls_eq := calls_eq_nil h
  lists := h.imp fun _ _ => And.left

/-- A member of a record before the assignment sign. -/
theorem Shows.assign {record member : List Char} {mark rest : List Token}
    (hmark : mark = [.symbol '.'] ∨ mark = [.symbol '-', .symbol '>'])
    (h : Shows (.symbol '=' :: rest) accessed called) :
    Shows (.word record :: (mark ++ [.word member]) ++ .symbol '=' :: rest)
      ((record, member) :: accessed) called := by
  have haccesses := h.accesses_eq
  have hequals : Divides '=' := by simp [Divides]
  rw [accesses_symbol] at haccesses
  constructor
  case accesses_eq =>
    rw [accesses_append hequals, haccesses]
    rcases hmark with rfl | rfl <;> rfl
  case calls_eq => rcases hmark with rfl | rfl <;> exact h.calls_eq
  case lists =>
    have hlists := h.lists
    rcases hmark with rfl | rfl <;> simpa [NotEmptyList] using hlists

/-- The functions that programs start with have names of C. -/
theorem ElementFunction.isIdentifier_nameOf {element : Element} {count : Nat}
    (h : IsDefined (nameOf element) count) : isIdentifier (nameOf element).toList = true := by
  have htable : ∀ f ∈ all, isIdentifier (nameOf f.element).toList = true := by decide +kernel
  obtain ⟨f, hf, hname, -⟩ := h
  rw [← hname]
  exact htable f hf

theorem ElementFunction.not_isDefined_zero {name : String} : ¬ IsDefined name 0 := by
  have htable : ∀ f ∈ all, (parameterNames.take f.parameters).length ≠ 0 := by decide
  rintro ⟨f, hf, -, hcount⟩
  exact htable f hf hcount

theorem Value.exists_forall₂_isReadAs {vs : List Value}
    (hplain : ∀ m ∈ vs.flatMap Value.members, m.2.isPlain = true) :
    ∃ tss, List.Forall₂ Value.IsReadAs vs tss := by
  induction vs with
  | nil => exact ⟨[], .nil⟩
  | cons v vs ih =>
    rw [List.flatMap_cons, List.forall_mem_append] at hplain
    obtain ⟨ts, hts⟩ := v.exists_isReadAs hplain.1
    obtain ⟨tss, htss⟩ := ih hplain.2
    exact ⟨ts :: tss, .cons hts htss⟩

/-- The expression is read as these tokens, which show its operands and its call when it ends
a statement. -/
def Expr.IsReadAs (e : Expr) (ts : List Token) : Prop :=
  (∀ rest, EndsToken rest → lex (e.text.toList ++ rest) = ts ++ lex rest) ∧
    Shows (.symbol '=' :: (ts ++ [.symbol ';'])) ((e.values.flatMap Value.members).map accessOf)
      e.called

theorem Value.IsReadAs.value {v : Value} {ts : List Token} (h : v.IsReadAs ts) :
    (Expr.value v).IsReadAs ts := by
  have hends : Divides ';' := by simp [Divides]
  refine ⟨h.2, .of_isChain ?_ (h.1.isChain (by decide) (List.isChain_singleton _))⟩
  rw [accesses_symbol, accesses_append hends, h.1.accesses]
  simp [Expr.values]
  rfl

section Lists

variable {vs : List Value} {tss : List (List Token)} {separator : String} {mark : Char}
  (hmark : IsSeparator separator mark) (h : List.Forall₂ Value.IsReadAs vs tss)
include hmark h

theorem lex_list (rest : List Char) :
    lex ('(' :: ((joinValues separator vs).toList ++ ')' :: rest)) =
      .symbol '(' :: (listTokens mark tss ++ .symbol ')' :: lex rest) := by
  have hclose : EndsToken (')' :: rest) := endsToken_cons rfl (by decide)
  rw [lex_symbol rfl, lex_joinValues hmark h hclose, lex_symbol rfl]

theorem isChain_list (hne : vs ≠ []) :
    (.symbol '(' :: (listTokens mark tss ++ [.symbol ')', .symbol ';'])).IsChain NoCall :=
  isChain_listTokens hmark.ne h hne (by simp [NoCall, NotEmptyList]) '('

theorem accesses_list :
    accesses (.symbol '(' :: (listTokens mark tss ++ [.symbol ')', .symbol ';'])) =
      (vs.flatMap Value.members).map accessOf := by
  rw [accesses_symbol, accesses_listTokens hmark.divides h]
  exact List.append_nil _

end Lists

section Compound

variable {args : List Value} {tss : List (List Token)} (h : List.Forall₂ Value.IsReadAs args tss)
  (hne : args ≠ [])
include h hne

theorem Expr.isReadAs_negatedSum : (negatedSum args).IsReadAs
    (.symbol '-' :: .symbol '(' :: (listTokens '+' tss ++ [.symbol ')'])) := by
  have hmark : IsSeparator " + " '+' := isSeparator_operator (.inl rfl) (by simp)
  constructor
  · intro rest _
    have htext : (negatedSum args).text.toList ++ rest =
        '-' :: '(' :: ((joinValues " + " args).toList ++ ')' :: rest) := by simp [text]
    rw [htext, lex_symbol rfl, lex_list hmark h]
    simp
  · have hchain := isChain_list hmark h hne
    rw [List.cons_append, List.cons_append, List.append_assoc, List.singleton_append]
    exact .of_isChain (accesses_list hmark h) (by simpa [NoCall, NotEmptyList] using hchain)

theorem Expr.isReadAs_product : (product args).IsReadAs
    (.symbol '(' :: (listTokens '*' tss ++ [.symbol ')'])) := by
  have hmark : IsSeparator " * " '*' := isSeparator_operator (.inr rfl) (by simp)
  constructor
  · intro rest _
    have htext : (product args).text.toList ++ rest =
        '(' :: ((joinValues " * " args).toList ++ ')' :: rest) := by simp [text]
    rw [htext, lex_list hmark h]
    simp
  · have hchain := isChain_list hmark h hne
    rw [List.cons_append, List.append_assoc, List.singleton_append]
    exact .of_isChain (accesses_list hmark h) (by simpa [NoCall, NotEmptyList] using hchain)

theorem Expr.isReadAs_call {element : Element}
    (hname : isIdentifier (ElementFunction.nameOf element).toList = true) :
    (call element args).IsReadAs (.word (ElementFunction.nameOf element).toList :: .symbol '(' ::
      (listTokens ',' tss ++ [.symbol ')'])) := by
  have hopen : isPlainPart '(' = false := rfl
  constructor
  · intro rest _
    have htext : (call element args).text.toList ++ rest =
        (ElementFunction.nameOf element).toList ++
          '(' :: ((joinValues ", " args).toList ++ ')' :: rest) := by simp [text]
    rw [htext, lex_name hname (not_isPlainPart_head hopen), lex_list isSeparator_comma h]
    simp
  have hchain := isChain_list isSeparator_comma h hne
  have hcount := argumentCount_listTokens h hne [.symbol ';']
  have hprefix : "dda_".toList.isPrefixOf (ElementFunction.nameOf element).toList = true := by
    simp [ElementFunction.nameOf]
  rw [List.cons_append, List.cons_append, List.append_assoc, List.singleton_append]
  constructor
  case accesses_eq => exact accesses_list isSeparator_comma h
  case calls_eq =>
    -- the call is found at its name, and nowhere behind it
    show (if _ then _ else _ : Option (List Char × Nat)).toList ++ calls (.symbol '(' :: _) = _
    rw [if_pos hprefix, calls_eq_nil hchain, hcount]
    rfl
  case lists =>
    have hlists := hchain.imp fun _ _ => And.left
    simpa [NotEmptyList] using hlists

end Compound

theorem Expr.exists_isReadAs {e : Expr} (hformed : e.IsWellFormed)
    (hplain : ∀ m ∈ e.values.flatMap Value.members, m.2.isPlain = true) :
    ∃ ts, e.IsReadAs ts := by
  obtain ⟨tss, htss⟩ := Value.exists_forall₂_isReadAs hplain
  cases e with
  | value v =>
    obtain ⟨ts, _, hv, -, rfl⟩ := List.forall₂_cons_left_iff.mp htss
    exact ⟨ts, hv.value⟩
  | sequence args =>
    obtain ⟨v, rfl⟩ := List.length_eq_one_iff.mp hformed
    obtain ⟨ts, _, hv, -, rfl⟩ := List.forall₂_cons_left_iff.mp htss
    exact ⟨ts, hv.value⟩
  | negatedSum args => exact ⟨_, isReadAs_negatedSum htss hformed⟩
  | product args => exact ⟨_, isReadAs_product htss hformed⟩
  | call element args =>
    have hne : args ≠ [] := by
      rintro rfl
      exact ElementFunction.not_isDefined_zero hformed
    exact ⟨_, isReadAs_call htss hne (ElementFunction.isIdentifier_nameOf hformed)⟩

/-- The four blanks before a statement are skipped, and what is assigned is read up to the
semicolon. -/
theorem lex_statement {target : List Char} {targetTokens : List Token}
    (htarget : ∀ rest, lex (target ++ ' ' :: rest) = targetTokens ++ lex rest) {e : Expr}
    {ts : List Token} (he : e.IsReadAs ts) {comment : List Char} (hcomment : lex comment = []) :
    lex (' ' :: ' ' :: ' ' :: ' ' :: (target ++ ' ' :: '=' :: ' ' ::
      (e.text.toList ++ ';' :: comment))) =
      targetTokens ++ .symbol '=' :: (ts ++ [.symbol ';']) := by
  have hends : EndsToken (';' :: comment) := endsToken_cons rfl (by decide)
  rw [lex_blank, lex_blank, lex_blank, lex_blank, htarget, lex_symbol rfl, lex_blank, he.1 _ hends,
    lex_symbol rfl, hcomment]

theorem Assignment.shows {a : Assignment} (hformed : a.expr.IsWellFormed)
    (hplain : ∀ m ∈ a.members, m.2.isPlain = true) :
    Shows (lex a.text.toList) (a.members.map accessOf) a.expr.called := by
  obtain ⟨hname, hplain⟩ := List.forall_mem_cons.mp hplain
  obtain ⟨ts, he⟩ := Expr.exists_isReadAs hformed hplain
  have hblank : isPlainPart ' ' = false := rfl
  have htext : a.text.toList = ' ' :: ' ' :: ' ' :: ' ' :: ((memberText a.group a.name).toList ++
      ' ' :: '=' :: ' ' :: (a.expr.text.toList ++
        ';' :: ' ' :: ' ' :: '/' :: '/' :: ' ' :: a.comment.toList)) := by simp [text]
  rw [htext, lex_statement (fun _ => lex_member a.group hname (not_isPlainPart_head hblank)) he rfl]
  refine he.2.assign ?_
  cases a.group <;> simp

/-- A statement that sets the member of a record in a variable. -/
theorem shows_pointLine {record : List Char} (hrecord : isIdentifier record = true) {name : Atom}
    (hname : name.isPlain = true) {v : Value} (hplain : ∀ m ∈ v.members, m.2.isPlain = true) :
    Shows (lex (' ' :: ' ' :: ' ' :: ' ' :: (record ++ '.' :: (name.chars ++
      ' ' :: '=' :: ' ' :: (v.text.toList ++ [';']))))) ((record, name.chars) ::
        v.members.map accessOf) [] := by
  obtain ⟨ts, hv⟩ := v.exists_isReadAs hplain
  have hpoint : isPlainPart '.' = false := rfl
  have hblank : isPlainPart ' ' = false := rfl
  have htarget : ∀ rest, lex (record ++ '.' :: name.chars ++ ' ' :: rest) =
      .word record :: ([.symbol '.'] ++ [.word name.chars]) ++ lex rest := by
    intro rest
    rw [List.append_assoc, List.cons_append, lex_name hrecord (not_isPlainPart_head hpoint),
      lex_symbol rfl, lex_name (Atom.isIdentifier_chars hname) (not_isPlainPart_head hblank)]
    rfl
  have hline := lex_statement htarget hv.value lex_nil
  rw [List.append_assoc, List.cons_append, Expr.text] at hline
  rw [hline]
  have hshows := hv.value.2
  simp only [Expr.values, List.flatMap_singleton] at hshows
  exact hshows.assign (.inl rfl)

end Statements

end CSource

end DiffAnalyzer
