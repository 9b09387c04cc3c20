import DiffAnalyzer.Proofs.Files
import Mathlib

/-!
# Reading a circuit that was read and written

A literal too large for a number is read as an infinity, which is written as `inf` or `-inf`.
The first is a name to the grammar, and the second is no expression at all.  So a circuit that
was read from a text is read back from its own text exactly if it has no infinities, and what
happens otherwise depends on their signs (`EquationSet.parse_text_of_parse`).
-/

namespace DiffAnalyzer

/-- All literals in the argument have a property. -/
inductive Arg.AllNumbers (p : Number → Prop) : Arg → Prop where
  | number {x : Number} (h : p x) : AllNumbers p (.number x)
  | node {head : Atom} {tail : List Arg} (h : ∀ a ∈ tail, AllNumbers p a) :
    AllNumbers p (.node head tail)

namespace Arg.AllNumbers

variable {p q : Number → Prop} {a : Arg} {x : Number} {head : Atom} {tail : List Arg}

theorem number_iff : AllNumbers p (.number x) ↔ p x :=
  ⟨fun h => by cases h; assumption, .number⟩

theorem node_iff : AllNumbers p (.node head tail) ↔ ∀ a ∈ tail, AllNumbers p a :=
  ⟨fun h => by cases h; assumption, .node⟩

theorem mono (h : ∀ x, p x → q x) (ha : AllNumbers p a) : AllNumbers q a := by
  induction ha with
  | number hx => exact .number (h _ hx)
  | node _ ih => exact .node ih

end Arg.AllNumbers

open Arg (AllNumbers)

/-- All literals of a set have a property when those of its right-hand sides do. -/
theorem EquationSet.forall_number_iff {s : EquationSet} {p : Number → Prop} :
    (∀ x, s.IsPart (.number x) → p x) ↔ ∀ e ∈ s.toList, AllNumbers p e.2.toArg := by
  constructor
  · intro h e he
    have hparts : ∀ a, s.IsPart a → AllNumbers p a := by
      intro a
      induction a using Arg.induct with
      | number x => exact fun ha => .number (h x ha)
      | node head tail ih => exact fun ha => .node fun b hb => ih b hb (.argument ha hb)
    exact hparts _ (.whole (SortedMap.get?_of_mem he))
  · intro h
    have hparts : ∀ a, s.IsPart a → AllNumbers p a := by
      intro a ha
      induction ha with
      | whole hrhs => exact h _ (SortedMap.get?_eq_some_iff.mp hrhs)
      | argument _ hb ih => exact AllNumbers.node_iff.mp ih _ hb
    exact fun x hx => AllNumbers.number_iff.mp (hparts _ hx)

theorem Decimal.nearest_le (c : Nat) (e : Int) : nearest c e ≤ Number.infiniteMagnitude := by
  have hnearest : ∀ num den, nearestMagnitude num den ≤ Number.infiniteMagnitude := by
    intro num den
    exact Nat.min_le_left _ _
  unfold nearest
  split
  · exact Nat.zero_le _
  · split
    · exact Nat.le_refl _
    · split
      · exact Nat.zero_le _
      · split
        · exact hnearest _ _
        · exact hnearest _ _

/-- Digits are never read as NaN. -/
theorem Decimal.isNaN_toNumber (d : Decimal) : d.toNumber.isNaN = false := by
  have hle := nearest_le d.coefficient d.exponent
  rw [Number.isNaN, toNumber, Number.magnitude_ofMagnitude _ hle]
  simpa using hle

namespace Recognizer

variable {α β : Type} {P : α → Prop} {Q : β → Prop} {x y : Recognizer α} {f : α → Recognizer β}

/-- Whatever is read has a property. -/
def Yields (P : α → Prop) (x : Recognizer α) : Prop :=
  ∀ text a rest, (x text).result = some (a, rest) → P a

namespace Yields

theorem trivial (x : Recognizer α) : Yields (fun _ => True) x := fun _ _ _ _ => .intro

theorem pure {a : α} (h : P a) : Yields P (pure a) := by
  rintro text _ _ ⟨⟩
  exact h

theorem bind (hx : Yields P x) (hf : ∀ a, P a → Yields Q (f a)) : Yields Q (x >>= f) := by
  intro text b rest h
  rw [result_bind] at h
  obtain ⟨⟨a, between⟩, ha, h⟩ := Option.bind_eq_some_iff.mp h
  exact hf a (hx text a between ha) between b rest h

theorem orElse (hx : Yields P x) (hy : Yields P y) : Yields P (x <|> y) := by
  intro text a rest h
  change ((OrElse.orElse x fun _ => y) text).result = some (a, rest) at h
  rw [result_orElse, Option.or_eq_some_iff] at h
  rcases h with h | ⟨-, h⟩
  · exact hx text a rest h
  · exact hy text a rest h

theorem attempt (rule : Rule) (hx : Yields P x) : Yields P (attempt rule x) := hx

end Yields

end Recognizer

namespace Grammar

open Recognizer

/-- The literal is a number or an infinity. -/
def Proper (x : Number) : Prop := x.isNaN = false

theorem yields_number : Yields (AllNumbers Proper) number := by
  intro text a rest h
  obtain ⟨⟨d, rest'⟩, -, heq⟩ := Option.map_eq_some_iff.mp h
  cases heq
  exact .number d.isNaN_toNumber

theorem yields_expression (depth : Nat) : Yields (AllNumbers Proper) (expression depth) ∧
    Yields (fun args => ∀ a ∈ args, AllNumbers Proper a) (arguments depth) := by
  have href : Yields (AllNumbers Proper) reference :=
    (Yields.trivial identifier).bind fun name _ => .pure (.node nofun)
  induction depth with
  | zero => exact ⟨nofun, .pure nofun⟩
  | succ depth ih =>
    constructor
    · rw [expression]
      refine .orElse ?_ (.orElse href yields_number)
      refine (Yields.trivial identifier).bind fun head _ => ?_
      refine (Yields.trivial (delimiter '(')).bind fun _ _ => ih.1.bind fun first hfirst => ?_
      refine ih.2.bind fun rest hrest => (Yields.trivial layout).bind fun _ _ => ?_
      refine (Yields.trivial (symbol ')')).bind fun _ _ => .pure (.node ?_)
      exact List.forall_mem_cons.mpr ⟨hfirst, hrest⟩
    · rw [arguments]
      refine .orElse ?_ (.pure nofun)
      refine (Yields.trivial (delimiter ',')).bind fun _ _ => ih.1.bind fun argument ha => ?_
      exact ih.2.bind fun rest hrest => .pure (List.forall_mem_cons.mpr ⟨ha, hrest⟩)

theorem yields_equation : Yields (fun e => AllNumbers Proper e.2.toArg) equation := by
  intro text e rest h
  have hwithin :
      Yields (fun e => AllNumbers Proper e.2.toArg) (equationWithin (text.length + 1)) := by
    refine (Yields.trivial identifier).bind fun name _ => ?_
    refine (Yields.trivial (delimiter '=')).bind fun _ _ => ?_
    refine (yields_expression _).1.bind fun rhs hrhs => .pure ?_
    cases rhs with
    | number x => exact .node (List.forall_mem_singleton.mpr hrhs)
    | node head tail => exact hrhs
  exact hwithin text e rest h

theorem Spells.allNumbers {text : List Char} {es : List (Atom × Term)} (h : Spells text es) :
    ∀ e ∈ es, AllNumbers Proper e.2.toArg := by
  induction h with
  | empty h => exact nofun
  | last he hend => exact List.forall_mem_singleton.mpr (yields_equation _ _ _ he)
  | cons he hnext hc hes ih => exact List.forall_mem_cons.mpr ⟨yields_equation _ _ _ he, ih⟩

end Grammar

open Grammar

/-- No text is read as a circuit with NaNs. -/
theorem EquationSet.isNaN_eq_false_of_parse {text : List Char} {s : EquationSet}
    (h : EquationSet.parse text = .ok s) {x : Number} (hx : s.IsPart (.number x)) :
    x.isNaN = false := by
  obtain ⟨es, hes, hlists⟩ := EquationSet.parse_eq_ok_iff.mp h
  have hall : ∀ e ∈ s.toList, AllNumbers Proper e.2.toArg := fun e he =>
    hes.allNumbers e (hlists.perm_toList.mem_iff.mpr he)
  exact EquationSet.forall_number_iff.mpr hall x hx

/-- The name that is spelled like an infinity. -/
def infinityName : Atom := ⟨['i', 'n', 'f'], .refl true⟩

namespace Arg

mutual

/-- The argument with names for its positive infinities. -/
def nameInfinities : Arg → Arg
  | .number x => if x = .infinity then .node infinityName [] else .number x
  | .node head tail => .node head (nameInfinitiesList tail)

def nameInfinitiesList : List Arg → List Arg
  | [] => []
  | a :: rest => nameInfinities a :: nameInfinitiesList rest

end

theorem nameInfinitiesList_eq_map (args : List Arg) :
    nameInfinitiesList args = args.map nameInfinities := by
  induction args with
  | nil => rfl
  | cons a rest ih => rw [nameInfinitiesList, ih, List.map_cons]

/-- The name is written like the infinity. -/
theorem text_nameInfinities (a : Arg) : a.nameInfinities.text = a.text := by
  induction a using Arg.induct with
  | number x =>
    rw [nameInfinities]
    split
    · rename_i hx
      rw [hx]
      rfl
    · rfl
  | node head tail ih =>
    rw [nameInfinities, nameInfinitiesList_eq_map]
    have hrest : ∀ args : List Arg, (∀ a ∈ args, a.nameInfinities.text = a.text) →
        textRest (args.map nameInfinities) = textRest args := by
      intro args hargs
      induction args with
      | nil => rfl
      | cons a args ih =>
        rw [List.forall_mem_cons] at hargs
        rw [List.map_cons, textRest, textRest, hargs.1, ih hargs.2]
    cases tail with
    | nil => rfl
    | cons a tail =>
      rw [List.forall_mem_cons] at ih
      rw [List.map_cons, text, text, ih.1, hrest tail ih.2]

theorem allNumbers_nameInfinities_iff {p : Number → Prop} {a : Arg} :
    AllNumbers p a.nameInfinities ↔ AllNumbers (fun x => x ≠ .infinity → p x) a := by
  induction a using Arg.induct with
  | number x =>
    rw [nameInfinities, AllNumbers.number_iff]
    split
    · rename_i hx
      exact ⟨fun _ hne => absurd hx hne, fun _ => .node nofun⟩
    · rename_i hne
      rw [AllNumbers.number_iff]
      exact ⟨fun h _ => h, fun h => h hne⟩
  | node head tail ih =>
    rw [nameInfinities, nameInfinitiesList_eq_map, AllNumbers.node_iff, AllNumbers.node_iff,
      List.forall_mem_map]
    exact forall₂_congr ih

end Arg

/-- The set with names for its positive infinities. -/
def EquationSet.nameInfinities (s : EquationSet) : EquationSet :=
  s.mapValues fun _ rhs => ⟨rhs.head, Arg.nameInfinitiesList rhs.tail⟩

theorem EquationSet.toList_nameInfinities (s : EquationSet) :
    s.nameInfinities.toList =
      s.toList.map fun e => (e.1, ⟨e.2.head, Arg.nameInfinitiesList e.2.tail⟩) := rfl

theorem EquationSet.text_nameInfinities (s : EquationSet) : s.nameInfinities.text = s.text := by
  have hrhs : ∀ rhs : Term,
      (⟨rhs.head, Arg.nameInfinitiesList rhs.tail⟩ : Term).text = rhs.text := by
    intro rhs
    exact Arg.text_nameInfinities rhs.toArg
  rw [text, toList_nameInfinities, List.flatMap_map]
  simp only [hrhs]
  rfl

/-- The infinity that is written with a sign. -/
def Number.negativeInfinity : Number := .ofMagnitude true infiniteMagnitude

/-- What is neither NaN nor an infinity without sign. -/
theorem Number.finite_or_eq {x : Number} (hnan : x.isNaN = false) (hne : x ≠ .infinity) :
    x.isFinite = true ∨ x = .negativeInfinity := by
  have hle : x.magnitude ≤ infiniteMagnitude := Nat.not_lt.mp (of_decide_eq_false hnan)
  rcases hle.lt_or_eq with hlt | heq
  · exact .inl (decide_eq_true hlt)
  · have hx := ofMagnitude_magnitude x
    rw [heq] at hx
    cases hnegative : x.negative with
    | true =>
      rw [hnegative] at hx
      exact .inr hx.symm
    | false =>
      rw [hnegative] at hx
      exact absurd hx.symm hne

namespace Grammar

open Recognizer

variable {text rest : List Char} {a b : Arg} {args : List Arg} {head : Atom}

/-- The literal is finite or the negative infinity. -/
def Signed (x : Number) : Prop := x.isFinite = true ∨ x = .negativeInfinity

theorem startsPlain_of_signed (h : AllNumbers Signed a) (rest : List Char) :
    StartsPlain isSeparator (a.text ++ rest) := by
  by_cases ha : a = .number .negativeInfinity
  · rw [ha]
    rintro _ ⟨⟩
    decide
  · apply startsPlain_text
    rintro x rfl
    rcases AllNumbers.number_iff.mp h with hfinite | rfl
    · exact hfinite
    · exact absurd rfl ha

/-- Finite literals are all it takes to read an argument back. -/
theorem reads_of_allNumbers (h : AllNumbers (fun x => x.isFinite = true) a) : Reads a := by
  induction a using Arg.induct with
  | number x => exact reads_number (AllNumbers.number_iff.mp h)
  | node head tail ih =>
    rw [AllNumbers.node_iff] at h
    cases tail with
    | nil => exact reads_reference head
    | cons b args =>
      apply reads_application
      · exact fun a ha => ih a ha (h a ha)
      · exact fun a ha => startsPlain_of_signed ((h a ha).mono fun x hx => .inl hx)

/-- Where the argument is read at all, reading stops in front of a parenthesis. -/
def Stalls (a : Arg) : Prop := ∀ depth rest r, a.text.length ≤ depth → Ends rest →
  (expression depth (a.text ++ rest)).result = some r → ∃ more, r.2 = '(' :: more

/-- No expression starts with a sign and a letter. -/
theorem stalls_negativeInfinity : Stalls (.number .negativeInfinity) := by
  intro depth rest r _ _ hr
  have hnone : (expression depth ('-' :: 'i' :: 'n' :: 'f' :: rest)).result = none := by
    cases depth with
    | zero => rfl
    | succ depth => rfl
  exact nomatch hnone.symm.trans hr

/-- The character is a comma or an opening parenthesis. -/
def Interrupts (c : Char) : Prop := c = ',' ∨ c = '('

theorem startsPlain_of_interrupts {c : Char} (hc : Interrupts c) (text : List Char) :
    StartsPlain (fun _ => false) (c :: text) := by
  apply startsPlain_cons
  rcases hc with rfl | rfl
  · decide
  · decide

theorem exists_result_arguments (depth : Nat) (text : List Char) :
    ∃ r, (arguments depth text).result = some r := by
  cases depth with
  | zero => exact ⟨_, rfl⟩
  | succ depth =>
    rw [arguments]
    exact exists_result_orElse_pure _ _ _

theorem result_arguments_parenthesis (depth : Nat) (more : List Char) :
    (arguments depth ('(' :: more)).result = some ([], '(' :: more) := by
  cases depth with
  | zero => rfl
  | succ depth =>
    rw [arguments]
    refine (result_orElse_of_none (result_bind_of_none ?_)).trans rfl
    apply result_delimiter_of_ne (startsPlain_of_interrupts (.inr rfl) more)
    rintro _ ⟨⟩
    decide

section Comma

variable {depth : Nat} (hplain : StartsPlain isSeparator text)
include hplain

theorem result_comma : (delimiter ',' (',' :: ' ' :: text)).result = some ((), text) :=
  result_delimiter (result_layout (startsPlain_cons (by decide))) (result_layout_blank hplain.mono)

/-- A comma is left when no argument is read behind it. -/
theorem result_arguments_of_none (h : (expression depth text).result = none) :
    (arguments (depth + 1) (',' :: ' ' :: text)).result = some ([], ',' :: ' ' :: text) := by
  rw [arguments]
  refine (result_orElse_of_none ?_).trans rfl
  rw [result_bind_of_some (result_comma hplain)]
  exact result_bind_of_none h

theorem result_arguments_of_some {more left : List Char}
    (h : (expression depth text).result = some (b, more))
    (hmore : (arguments depth more).result = some (args, left)) :
    (arguments (depth + 1) (',' :: ' ' :: text)).result = some (b :: args, left) := by
  rw [arguments]
  refine result_orElse_of_some ?_
  rw [result_bind_of_some (result_comma hplain), result_bind_of_some h, result_bind_of_some hmore]
  rfl

end Comma

/-- Behind an argument that stalls no further one is read. -/
theorem interrupts_of_stalls {depth : Nat} (h : Stalls a) (hdepth : a.text.length ≤ depth)
    {more left : List Char} {bs : List Arg}
    (hfirst : (expression depth (a.text ++ (Arg.textRest args ++ ')' :: rest))).result =
      some (b, more)) (hmore : (arguments depth more).result = some (bs, left)) :
    ∃ c next, left = c :: next ∧ Interrupts c := by
  obtain ⟨next, rfl⟩ := h depth _ _ hdepth (ends_textRest args rest) hfirst
  rw [result_arguments_parenthesis] at hmore
  cases hmore
  exact ⟨'(', next, rfl, .inr rfl⟩

/-- Behind an argument and more of them, one of which stalls, a comma or a parenthesis is
left. -/
theorem interrupts_arguments {depth : Nat} (ha : Reads a ∨ Stalls a)
    (hargs : ∀ a ∈ args, Reads a ∨ Stalls a) (hstalls : Stalls a ∨ ∃ a ∈ args, Stalls a)
    (hplain : ∀ a ∈ args, ∀ rest, StartsPlain isSeparator (a.text ++ rest))
    (hdepth : a.text.length + (Arg.textRest args).length ≤ depth) {more left : List Char}
    {bs : List Arg}
    (hfirst : (expression depth (a.text ++ (Arg.textRest args ++ ')' :: rest))).result =
      some (b, more)) (hmore : (arguments depth more).result = some (bs, left)) :
    ∃ c next, left = c :: next ∧ Interrupts c := by
  induction args generalizing a b depth more bs left with
  | nil =>
    rcases hstalls with hstall | ⟨c, hc, -⟩
    · exact interrupts_of_stalls hstall (by omega) hfirst hmore
    · exact absurd hc List.not_mem_nil
  | cons c args ih =>
    rcases ha.symm with hstall | hreads
    · exact interrupts_of_stalls hstall (by omega) hfirst hmore
    rcases hstalls with hstall | hstalls
    · exact interrupts_of_stalls hstall (by omega) hfirst hmore
    rw [hreads depth _ (by omega) (ends_textRest (c :: args) rest)] at hfirst
    cases hfirst
    rw [List.forall_mem_cons] at hargs hplain
    rw [List.exists_mem_cons_iff] at hstalls
    rw [Arg.textRest, List.cons_append, List.length_cons, List.cons_append, List.length_cons,
      List.length_append] at hdepth
    obtain ⟨depth, rfl⟩ : ∃ d, depth = d + 1 := ⟨depth - 1, by omega⟩
    have htext : Arg.textRest (c :: args) ++ ')' :: rest =
        ',' :: ' ' :: (c.text ++ (Arg.textRest args ++ ')' :: rest)) := by
      simp [Arg.textRest]
    have hplainc := hplain.1 (Arg.textRest args ++ ')' :: rest)
    rw [htext] at hmore
    cases hc : (expression depth (c.text ++ (Arg.textRest args ++ ')' :: rest))).result with
    | none =>
      cases (result_arguments_of_none hplainc hc).symm.trans hmore
      exact ⟨',', _, rfl, .inl rfl⟩
    | some second =>
      obtain ⟨⟨ds, left'⟩, hds⟩ := exists_result_arguments depth second.2
      cases (result_arguments_of_some hplainc hc hds).symm.trans hmore
      exact ih hargs.1 hargs.2 hstalls hplain.2 (by omega) hc hds

/-- Neither a comma nor a parenthesis closes an application. -/
theorem result_closing {c : Char} (hc : Interrupts c) (next : List Char) (bs : List Arg) :
    ((do
      layout
      symbol ')'
      pure (.node head bs) : Recognizer Arg) (c :: next)).result = none := by
  rw [result_bind_of_some (result_layout (startsPlain_of_interrupts hc next))]
  apply result_bind_of_none (result_symbol_of_ne _)
  rintro _ ⟨⟩
  rcases hc with rfl | rfl
  · decide
  · decide

/-- An application with an argument that stalls is read as its head alone. -/
theorem stalls_application (hargs : ∀ a ∈ b :: args, Reads a ∨ Stalls a)
    (hstalls : ∃ a ∈ b :: args, Stalls a)
    (hplain : ∀ a ∈ b :: args, ∀ rest, StartsPlain isSeparator (a.text ++ rest)) :
    Stalls (.node head (b :: args)) := by
  intro depth rest r hdepth hrest hr
  rw [List.forall_mem_cons] at hargs hplain
  rw [List.exists_mem_cons_iff] at hstalls
  have htext : (Arg.node head (b :: args)).text ++ rest =
      head.chars ++ '(' :: (b.text ++ (Arg.textRest args ++ ')' :: rest)) := by
    simp [Arg.text]
  have hlength : b.text.length + (Arg.textRest args).length < depth := by
    have := congrArg List.length htext
    simp only [List.length_append, List.length_cons] at this
    omega
  obtain ⟨depth, rfl⟩ : ∃ d, depth = d + 1 := ⟨depth - 1, by omega⟩
  rw [htext] at hr
  generalize hopen : '(' :: (b.text ++ (Arg.textRest args ++ ')' :: rest)) = opened at hr
  have hidentifier : (identifier (head.chars ++ opened)).result = some (head, opened) := by
    rw [← hopen]
    apply scanIdentifier_append
    rintro _ ⟨⟩
    decide
  have hdelimiter : (delimiter '(' opened).result =
      some ((), b.text ++ (Arg.textRest args ++ ')' :: rest)) := by
    rw [← hopen]
    exact result_delimiter (result_layout (startsPlain_cons (by decide)))
      (result_layout (hplain.1 _).mono)
  have hhead : (expression (depth + 1) (head.chars ++ opened)).result =
      some (.node head [], opened) := by
    rw [expression]
    refine (result_orElse_of_none ?_).trans (result_orElse_of_some ?_)
    · rw [result_attempt, result_bind_of_some hidentifier, result_bind_of_some hdelimiter]
      cases hfirst : (expression depth (b.text ++ (Arg.textRest args ++ ')' :: rest))).result with
      | none => exact result_bind_of_none hfirst
      | some first =>
        obtain ⟨⟨bs, left⟩, hbs⟩ := exists_result_arguments depth first.2
        obtain ⟨c, next, rfl, hc⟩ := interrupts_arguments hargs.1 hargs.2 hstalls hplain.2
          (by omega) hfirst hbs
        rw [result_bind_of_some hfirst, result_bind_of_some hbs]
        exact result_closing hc next _
    · rw [reference, result_attempt, result_bind_of_some hidentifier]
      rfl
  cases hhead.symm.trans hr
  exact ⟨_, hopen.symm⟩

/-- Without NaN and infinities under a name, an argument is read back or stalls. -/
theorem stalls_of_not_allNumbers (h : AllNumbers Signed a)
    (hinfinite : ¬ AllNumbers (fun x => x.isFinite = true) a) : Stalls a := by
  induction a using Arg.induct with
  | number x =>
    rw [AllNumbers.number_iff] at h hinfinite
    rcases h with hfinite | rfl
    · exact absurd hfinite hinfinite
    · exact stalls_negativeInfinity
  | node head tail ih =>
    rw [AllNumbers.node_iff] at h hinfinite
    have hargs : ∀ a ∈ tail, Reads a ∨ Stalls a := by
      intro a ha
      by_cases hfinite : AllNumbers (fun x => x.isFinite = true) a
      · exact .inl (reads_of_allNumbers hfinite)
      · exact .inr (ih a ha (h a ha) hfinite)
    obtain ⟨a, ha, hinfinite⟩ := by simpa only [not_forall] using hinfinite
    have hstalls : ∃ a ∈ tail, Stalls a := ⟨a, ha, ih a ha (h a ha) hinfinite⟩
    cases tail with
    | nil => exact absurd ha List.not_mem_nil
    | cons b args =>
      exact stalls_application hargs hstalls fun a ha => startsPlain_of_signed (h a ha)

section Lines

variable {name : Atom} {rhs : Term} {entries es : List (Atom × Term)}

/-- The line of an equation. -/
def lineOf (e : Atom × Term) : List Char := e.1.chars ++ ' ' :: '=' :: ' ' :: e.2.text

theorem textOf_eq_lineOf (e : Atom × Term) (entries : List (Atom × Term)) :
    textOf (e :: entries) = lineOf e ++ '\n' :: textOf entries := by
  obtain ⟨name, rhs⟩ := e
  rw [textOf_cons]
  simp [lineOf]

theorem Spells.exists_lineOf (h : Spells (textOf entries) es) :
    ∀ e ∈ entries, ∃ fs, Spells (lineOf e) fs := by
  induction entries generalizing es with
  | nil => exact nofun
  | cons e entries ih =>
    rw [textOf_eq_lineOf, spells_append_iff] at h
    obtain ⟨fs, gs, -, hfs, hgs⟩ := h
    exact List.forall_mem_cons.mpr ⟨⟨fs, hfs⟩, ih hgs⟩

/-- A line whose right-hand side stalls is no equation. -/
theorem not_spells_lineOf (hstalls : Stalls rhs.toArg) : ¬ Spells (lineOf (name, rhs)) es := by
  have hplain : StartsPlain isSeparator rhs.text := by
    rw [← List.append_nil rhs.text]
    refine startsPlain_text (a := rhs.toArg) ?_
    intro x hx
    cases hx
  have hidentifier : (identifier (lineOf (name, rhs))).result =
      some (name, ' ' :: '=' :: ' ' :: rhs.text) := by
    apply scanIdentifier_append
    rintro _ ⟨⟩
    decide
  have hequals : (delimiter '=' (' ' :: '=' :: ' ' :: rhs.text)).result = some ((), rhs.text) :=
    result_delimiter (result_layout_blank (startsPlain_cons (by decide)))
      (result_layout_blank hplain.mono)
  have hgap : pastGap (lineOf (name, rhs)) = lineOf (name, rhs) :=
    dropLayout_eq (startsPlain_chars name)
  rw [spells_iff, hgap]
  rintro (⟨hnil, -⟩ | ⟨e, rest, fs, he, -, hcontinues⟩)
  · exact chars_ne_nil name (List.append_eq_nil_iff.mp hnil).1
  · rw [equation, equationWithin, result_bind_of_some hidentifier, result_bind_of_some hequals,
      result_bind] at he
    obtain ⟨⟨a, rest'⟩, ha, heq⟩ := Option.bind_eq_some_iff.mp he
    cases heq
    have hlength : rhs.toArg.text.length ≤ (lineOf (name, rhs)).length + 1 := by
      change rhs.text.length ≤ (name.chars ++ ' ' :: '=' :: ' ' :: rhs.text).length + 1
      rw [List.length_append, List.length_cons, List.length_cons, List.length_cons]
      omega
    have hends : Ends [] := by
      intro c hc
      cases hc
    obtain ⟨more, rfl⟩ := hstalls _ [] _ hlength hends (by simpa [Term.text] using ha)
    have hopen : pastLayout ('(' :: more) = '(' :: more :=
      dropLayout_eq (startsPlain_cons (by decide))
    rcases hcontinues with ⟨hend, -⟩ | ⟨c, next, hnext, hc, -⟩
    · exact List.cons_ne_nil _ _ (hopen.symm.trans hend)
    · cases hopen.symm.trans hnext
      cases hc

end Lines

end Grammar

namespace EquationSet

variable {s : EquationSet} {text : List Char}

/-- What is not made up of equations leaves the grammar. -/
theorem exists_unexpected (h : ∀ es, ¬ Spells text es) :
    ∃ region expected, EquationSet.parse text = .error (.unexpected region expected) := by
  have hnone : (recognize text).result = none := by
    rw [Option.eq_none_iff_forall_ne_some]
    rintro ⟨ds, rest⟩ hresult
    exact h _ (exists_result_recognize_iff.mp ⟨ds, rest, hresult, rfl⟩)
  have hdefinitions : ∃ region expected,
      definitions text = .error (.unexpected region expected) := by
    unfold definitions
    dsimp only
    rw [hnone]
    exact ⟨_, _, rfl⟩
  obtain ⟨region, expected, hdefinitions⟩ := hdefinitions
  refine ⟨region, expected, ?_⟩
  rw [EquationSet.parse, hdefinitions]
  rfl

theorem parse_text_of_reads (h : ∀ e ∈ s.toList, Reads e.2.toArg) :
    EquationSet.parse s.text = .ok s := by
  obtain ⟨ds, hds, hresult⟩ := result_recognize h
  rw [parse_eq_ok_iff]
  exact ⟨s.toList, exists_result_recognize_iff.mp ⟨ds, [], hresult, hds⟩, .toList s⟩

theorem forall_number_nameInfinities_iff {p : Number → Prop} :
    (∀ e ∈ s.nameInfinities.toList, AllNumbers p e.2.toArg) ↔
      ∀ x, s.IsPart (.number x) → x ≠ .infinity → p x := by
  rw [forall_number_iff, toList_nameInfinities, List.forall_mem_map]
  exact forall₂_congr fun e _ => Arg.allNumbers_nameInfinities_iff (a := e.2.toArg)

/-- A negative infinity is no expression. -/
theorem exists_unexpected_of_negativeInfinity (hproper : ∀ x, s.IsPart (.number x) → Proper x)
    (hneg : s.IsPart (.number .negativeInfinity)) :
    ∃ region expected, EquationSet.parse s.text = .error (.unexpected region expected) := by
  have hsigned : ∀ e ∈ s.nameInfinities.toList, AllNumbers Signed e.2.toArg :=
    forall_number_nameInfinities_iff.mpr fun x hx => Number.finite_or_eq (hproper x hx)
  have hinfinite : ¬ ∀ e ∈ s.nameInfinities.toList,
      AllNumbers (fun x => x.isFinite = true) e.2.toArg := by
    intro hfinite
    have h := forall_number_nameInfinities_iff.mp hfinite _ hneg (by decide)
    cases h
  obtain ⟨e, he, hinfinite⟩ := by simpa only [not_forall] using hinfinite
  have hstalls := stalls_of_not_allNumbers (hsigned e he) hinfinite
  rw [← text_nameInfinities, text_eq]
  apply exists_unexpected
  intro es hes
  obtain ⟨fs, hfs⟩ := hes.exists_lineOf e he
  exact not_spells_lineOf hstalls hfs

/-- Other infinities are read as a variable. -/
theorem parse_text_eq_nameInfinities (hproper : ∀ x, s.IsPart (.number x) → Proper x)
    (hneg : ¬ s.IsPart (.number .negativeInfinity)) :
    EquationSet.parse s.text = .ok s.nameInfinities := by
  have hfinite : ∀ e ∈ s.nameInfinities.toList,
      AllNumbers (fun x => x.isFinite = true) e.2.toArg := by
    rw [forall_number_nameInfinities_iff]
    intro x hx hne
    rcases Number.finite_or_eq (hproper x hx) hne with hfinite | rfl
    · exact hfinite
    · exact absurd hx hneg
  rw [← text_nameInfinities]
  exact parse_text_of_reads fun e he => reads_of_allNumbers (hfinite e he)

/-- A circuit that was read from a text is read from its own text again exactly if it has no
infinities.  If it has a negative one, its text leaves the grammar; if it has positive ones only,
each of them becomes a variable. -/
theorem parse_text_of_parse (h : EquationSet.parse text = .ok s) :
    (EquationSet.parse s.text = .ok s ↔ ∀ x, s.IsPart (.number x) → x.isInfinite = false) ∧
    (s.IsPart (.number .negativeInfinity) →
      ∃ region expected, EquationSet.parse s.text = .error (.unexpected region expected)) ∧
    (¬ s.IsPart (.number .negativeInfinity) →
      EquationSet.parse s.text = .ok s.nameInfinities) := by
  have hproper : ∀ x, s.IsPart (.number x) → Proper x := fun x hx => isNaN_eq_false_of_parse h hx
  have hnegative := exists_unexpected_of_negativeInfinity hproper
  have hpositive := parse_text_eq_nameInfinities hproper
  refine ⟨⟨?_, ?_⟩, hnegative, hpositive⟩
  · intro hreread x hx
    have hneg : ¬ s.IsPart (.number .negativeInfinity) := by
      intro hneg
      obtain ⟨region, expected, hfault⟩ := hnegative hneg
      cases hreread.symm.trans hfault
    have hsame : s = s.nameInfinities := Except.ok.inj (hreread.symm.trans (hpositive hneg))
    have hnamed : ∀ x, s.nameInfinities.IsPart (.number x) → x ≠ .infinity :=
      forall_number_iff.mpr (forall_number_nameInfinities_iff.mpr fun _ _ hne => hne)
    rw [← hsame] at hnamed
    rcases Number.finite_or_eq (hproper x hx) (hnamed x hx) with hfinite | rfl
    · exact beq_false_of_ne (of_decide_eq_true hfinite).ne
    · exact absurd hx hneg
  · intro hfinite
    apply parse_text_of_reads
    intro e he
    apply reads_of_allNumbers
    refine forall_number_iff.mp (fun x hx => ?_) e he
    have hle : x.magnitude ≤ Number.infiniteMagnitude :=
      Nat.not_lt.mp (of_decide_eq_false (hproper x hx))
    exact decide_eq_true (hle.lt_of_ne (ne_of_beq_false (hfinite x hx)))

/-- The circuit `x = const(...)`. -/
def singleConstant (value : Number) : EquationSet :=
  .ofList [(⟨['x'], .refl true⟩, ⟨Element.const.name, [.number value]⟩)]

theorem parse_text_of_parse_singleConstant :
    (EquationSet.parse ['x', '=', '.', '0', 'e', '9'] = .ok (singleConstant .zero) ∧
      EquationSet.parse (singleConstant .zero).text = .ok (singleConstant .zero)) ∧
    EquationSet.parse ['x', '=', '-', '1', 'e', '9', '9', '9'] =
      .ok (singleConstant .negativeInfinity) ∧
    ∃ region expected, EquationSet.parse (singleConstant .negativeInfinity).text =
      .error (.unexpected region expected) := by
  have hfinite : ∀ x, (singleConstant .zero).IsPart (.number x) → x.isInfinite = false := by
    rw [forall_number_iff]
    intro e he
    cases List.mem_singleton.mp he
    exact .node (List.forall_mem_singleton.mpr (.number rfl))
  have hnegative : (singleConstant .negativeInfinity).IsPart (.number .negativeInfinity) :=
    .argument (.whole (SortedMap.get?_of_mem List.mem_cons_self)) List.mem_cons_self
  have hzero : EquationSet.parse ['x', '=', '.', '0', 'e', '9'] = .ok (singleConstant .zero) := by
    decide +kernel
  have hoverflow : EquationSet.parse ['x', '=', '-', '1', 'e', '9', '9', '9'] =
      .ok (singleConstant .negativeInfinity) := by
    decide +kernel
  exact ⟨⟨hzero, (parse_text_of_parse hzero).1.mpr hfinite⟩, hoverflow,
    (parse_text_of_parse hoverflow).2.1 hnegative⟩

/-- A literal that overflows comes back as a variable. -/
theorem parse_text_ne_overflow :
    EquationSet.parse "x = 1e999".toList = .ok (singleConstant .infinity) ∧
      EquationSet.parse (singleConstant .infinity).text =
        .ok (.ofList [(⟨['x'], .refl true⟩, ⟨Element.const.name, [.node infinityName []]⟩)]) ∧
      EquationSet.parse (singleConstant .infinity).text ≠ .ok (singleConstant .infinity) := by
  decide +kernel

end EquationSet

end DiffAnalyzer
