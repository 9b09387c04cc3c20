import DiffAnalyzer.Proofs.Linearization
import DiffAnalyzer.Proofs.NumberText
import Mathlib

/-!
# Fresh names

A fresh name is a head, an underscore, a number and underscores, and head and number can be read
off it (`Atom.numbered_padded_inj`).  Names for different heads or numbers therefore never compete:
only the variables of the source make a name longer.  So the names for a head are numbered
without gaps, each with the least padding (`Naming.IsNumbered`), and linearizing gives up only
where the variables of the source leave no spelling (`EquationSet.linearize_freshNames`).
-/

namespace DiffAnalyzer

namespace Atom

variable {a b head name other : Atom} {used : List Atom} {i j k m n : Nat}

theorem padded_zero (a : Atom) : a.padded 0 = a := Atom.ext (List.append_nil _)

theorem padded_inj (h : a.padded j = a.padded k) : j = k := by
  have hlength := congrArg (fun b => b.chars.length) h
  simpa only [padded, extend_chars, List.length_append, List.length_replicate,
    Nat.add_left_cancel_iff] using hlength

/-- From behind, a fresh name is its padding, its number, an underscore and its head. -/
theorem reverse_chars_padded (a : Atom) (n k : Nat) :
    ((a.numbered n).padded k).chars.reverse =
      List.replicate k '_' ++ ((Nat.toDigits 10 n).reverse ++ '_' :: a.chars.reverse) := by
  simp only [padded, numbered, extend_chars, List.reverse_append, List.reverse_cons,
    List.reverse_replicate, List.append_assoc, List.singleton_append]

theorem isDigit_of_mem_reverse_toDigits {c : Char} (hc : c ∈ (Nat.toDigits 10 n).reverse) :
    c.isDigit = true :=
  Nat.isDigit_of_mem_toDigits (by decide) (by decide) (List.mem_reverse.mp hc)

/-- Padding is not part of the number before it. -/
theorem dropWhile_reverse_chars_padded (a : Atom) (n k : Nat) :
    ((a.numbered n).padded k).chars.reverse.dropWhile (· == '_') =
      (Nat.toDigits 10 n).reverse ++ '_' :: a.chars.reverse := by
  rw [reverse_chars_padded]
  refine (takeWhile_dropWhile_append (fun c hc => ?_) fun c hc => ?_).2
  · rw [List.eq_of_mem_replicate hc, beq_self_eq_true]
  · have hne : (Nat.toDigits 10 n).reverse ≠ [] := mt List.reverse_eq_nil_iff.mp Nat.toDigits_ne_nil
    rw [List.head?_append_of_ne_nil _ hne] at hc
    have hdigit := isDigit_of_mem_reverse_toDigits (List.mem_of_mem_head? hc)
    rw [beq_eq_false_iff_ne]
    rintro rfl
    exact absurd hdigit (by decide)

/-- From behind, the number ends at the underscore that follows the head. -/
theorem takeWhile_dropWhile_reverse_toDigits (a : Atom) (n : Nat) :
    ((Nat.toDigits 10 n).reverse ++ '_' :: a.chars.reverse).takeWhile Char.isDigit =
        (Nat.toDigits 10 n).reverse ∧
      ((Nat.toDigits 10 n).reverse ++ '_' :: a.chars.reverse).dropWhile Char.isDigit =
        '_' :: a.chars.reverse := by
  refine takeWhile_dropWhile_append (fun _ => isDigit_of_mem_reverse_toDigits) fun c hc => ?_
  rw [← Option.mem_some.mp hc]
  rfl

/-- Head and number can be read off a fresh name. -/
theorem numbered_padded_inj (h : (a.numbered n).padded j = (b.numbered m).padded k) :
    a = b ∧ n = m := by
  -- a head may itself end in an underscore and digits, so the names are compared from behind
  have hbehind : (Nat.toDigits 10 n).reverse ++ '_' :: a.chars.reverse =
      (Nat.toDigits 10 m).reverse ++ '_' :: b.chars.reverse := by
    rw [← dropWhile_reverse_chars_padded a n j, h, dropWhile_reverse_chars_padded]
  obtain ⟨hdigits, hhead⟩ := takeWhile_dropWhile_reverse_toDigits a n
  rw [hbehind, (takeWhile_dropWhile_reverse_toDigits b m).1] at hdigits
  rw [hbehind, (takeWhile_dropWhile_reverse_toDigits b m).2] at hhead
  constructor
  · exact Atom.ext (List.reverse_injective (List.cons.inj hhead).2.symm)
  · have hnumber := congrArg (Nat.ofDigitChars 10 · 0) (List.reverse_injective hdigits)
    rw [Nat.ofDigitChars_ten_toDigits, Nat.ofDigitChars_ten_toDigits] at hnumber
    exact hnumber.symm

/-- The recognizer accepts a head, an underscore, digits and underscores. -/
theorem isNumbering_iff : head.isNumbering name = true ↔
    ∃ digits k, digits ≠ [] ∧ (∀ c ∈ digits, c.isDigit = true) ∧
      name.chars = head.chars ++ '_' :: (digits ++ List.replicate k '_') := by
  unfold isNumbering
  split
  case h_1 rest hprefix =>
    rw [List.isPrefixOf?_eq_some_iff_append_eq] at hprefix
    rw [Bool.and_eq_true, Bool.not_eq_true', List.isEmpty_eq_false_iff, List.all_eq_true]
    constructor
    · rintro ⟨hne, hpadding⟩
      obtain ⟨k, hk⟩ : ∃ k, rest.dropWhile Char.isDigit = List.replicate k '_' :=
        ⟨_, List.eq_replicate_iff.mpr ⟨rfl, fun c hc => beq_iff_eq.mp (hpadding c hc)⟩⟩
      refine ⟨_, k, hne, fun c hc => List.mem_takeWhile_imp hc, ?_⟩
      rw [← hk, List.takeWhile_append_dropWhile, hprefix]
    · rintro ⟨digits, k, hne, hdigits, hchars⟩
      rw [← hprefix] at hchars
      rw [(List.cons.inj (List.append_cancel_left hchars)).2]
      have hpadding : ∀ c ∈ (List.replicate k '_').head?, c.isDigit = false := fun c hc => by
        rw [List.eq_of_mem_replicate (List.mem_of_mem_head? hc)]
        rfl
      obtain ⟨htake, hdrop⟩ := takeWhile_dropWhile_append hdigits hpadding
      rw [htake, hdrop]
      exact ⟨hne, fun c hc => beq_iff_eq.mpr (List.eq_of_mem_replicate hc)⟩
  case h_2 hother =>
    refine ⟨nofun, fun ⟨digits, k, _, _, hchars⟩ => ?_⟩
    exact absurd (List.isPrefixOf?_eq_some_iff_append_eq.mpr hchars.symm) (hother _)

/-- Whatever the head looks like, its fresh names are recognized as such. -/
theorem isNumbering_padded (head : Atom) (i k : Nat) :
    head.isNumbering ((head.numbered i).padded k) = true := by
  refine isNumbering_iff.mpr ⟨Nat.toDigits 10 i, k, Nat.toDigits_ne_nil, fun c hc => ?_, ?_⟩
  · exact Nat.isDigit_of_mem_toDigits (by decide) (by decide) hc
  · rw [padded, numbered, extend_chars, extend_chars, List.append_assoc, List.cons_append]

theorem free?_eq_some_iff {taken : Atom → Bool} :
    a.free? taken = some name ↔ ∃ k ≤ maxPadding, name = a.padded k ∧
      taken (a.padded k) = false ∧ ∀ j < k, taken (a.padded j) = true := by
  simp only [free?, variants, List.find?_map, Option.map_eq_some_iff, List.find?_range_eq_some,
    List.mem_range, Nat.lt_succ_iff, Function.comp_apply, Bool.not_eq_true', Bool.not_not]
  constructor
  · rintro ⟨k, ⟨hfree, hk, htaken⟩, rfl⟩
    exact ⟨k, hk, rfl, hfree, htaken⟩
  · rintro ⟨k, hk, rfl, hfree, htaken⟩
    exact ⟨k, ⟨hfree, hk, htaken⟩, rfl⟩

theorem free?_eq_none_iff {taken : Atom → Bool} :
    a.free? taken = none ↔ ∀ k ≤ maxPadding, taken (a.padded k) = true := by
  simp only [free?, variants, List.find?_map, Option.map_eq_none_iff, List.find?_range_eq_none,
    Nat.lt_succ_iff, Function.comp_apply, Bool.not_not]

/-- The name is the base with the least number of underscores behind it that keeps it apart from
the names in use. -/
def IsFirstUnused (used : List Atom) (base name : Atom) : Prop :=
  ∃ k, name = base.padded k ∧ name ∉ used ∧ ∀ j < k, base.padded j ∈ used

/-- As many names must be in use as there are spellings before none is left. -/
theorem maxPadding_lt_length (h : ∀ k ≤ maxPadding, a.padded k ∈ used) :
    maxPadding < used.length := by
  have hnodup : a.variants.Nodup := List.Nodup.map (fun _ _ => padded_inj) List.nodup_range
  have hsubset : a.variants ⊆ used := fun b hb => by
    obtain ⟨k, hk, rfl⟩ := List.mem_map.mp hb
    exact h k (Nat.lt_succ_iff.mp (List.mem_range.mp hk))
  have hlength := hnodup.length_le_of_subset hsubset
  rw [variants, List.length_map, List.length_range] at hlength
  exact hlength

end Atom

namespace Naming

variable {used : List Atom} {n m : Naming} {t : Term} {name head : Atom}

/-- How many applications of a head have been named. -/
def count (n : Naming) (head : Atom) : Nat := (n.counters.get? head).getD 0

theorem count_give (n : Naming) (t : Term) (name head : Atom) :
    (n.give t name).count head = if head = t.head then n.count t.head + 1 else n.count head := by
  rw [count, give, SortedMap.get?_insert]
  split
  · rfl
  · rfl

theorem count_le_count_give (n : Naming) (t : Term) (name head : Atom) :
    n.count head ≤ (n.give t name).count head := by
  rw [count_give]
  split
  · rename_i heq
    rw [heq]
    exact Nat.le_succ _
  · exact le_rfl

/-- The names for the applications of a head are numbered without gaps, each with the least
padding that keeps it apart from the names in use. -/
structure IsNumbered (used : List Atom) (n : Naming) : Prop where
  exists_name : ∀ head i, 0 < i → i ≤ n.count head →
    ∃ name tail, n.fresh.get? name = some ⟨head, tail⟩ ∧ (head.numbered i).IsFirstUnused used name
  exists_number : ∀ head name tail, n.fresh.get? name = some ⟨head, tail⟩ →
    ∃ i, 0 < i ∧ i ≤ n.count head ∧ (head.numbered i).IsFirstUnused used name

namespace IsNumbered

variable (hn : n.IsNumbered used)
include hn

/-- No spelling of the next name is that of a name given before. -/
theorem contains_padded (head : Atom) (k : Nat) :
    n.fresh.contains ((head.numbered (n.count head + 1)).padded k) = false := by
  rw [SortedMap.contains_eq_false_iff]
  by_contra hsome
  obtain ⟨⟨other, tail⟩, ht⟩ := Option.ne_none_iff_exists'.mp hsome
  obtain ⟨i, -, hi, j, hname, -⟩ := hn.exists_number other _ tail ht
  obtain ⟨rfl, rfl⟩ := Atom.numbered_padded_inj hname
  exact Nat.not_succ_le_self _ hi

/-- Only names in use stand in the way of the next name. -/
theorem taken_iff (head : Atom) (k : Nat) :
    (used.contains ((head.numbered (n.count head + 1)).padded k) ||
        n.fresh.contains ((head.numbered (n.count head + 1)).padded k)) = true ↔
      (head.numbered (n.count head + 1)).padded k ∈ used := by
  rw [hn.contains_padded, Bool.or_false, List.contains_iff_mem]

theorem isFirstUnused (h : n.next? used t = some name) :
    (t.head.numbered (n.count t.head + 1)).IsFirstUnused used name := by
  obtain ⟨k, -, rfl, hfree, htaken⟩ := Atom.free?_eq_some_iff.mp h
  refine ⟨k, rfl, fun hmem => ?_, fun j hj => (hn.taken_iff t.head j).mp (htaken j hj)⟩
  cases hfree.symm.trans ((hn.taken_iff t.head k).mpr hmem)

/-- Where no name is free, all spellings are in use. -/
theorem padded_mem (h : n.next? used t = none) :
    ∀ k ≤ Atom.maxPadding, (t.head.numbered (n.count t.head + 1)).padded k ∈ used :=
  fun k hk => (hn.taken_iff t.head k).mp (Atom.free?_eq_none_iff.mp h k hk)

theorem give (free : n.next? used t = some name) : (n.give t name).IsNumbered used := by
  have hfirst := hn.isFirstUnused free
  constructor
  case exists_name =>
    intro head i hpos hi
    -- the number given last has the new name, each smaller one has kept its name
    by_cases hlast : head = t.head ∧ i = n.count t.head + 1
    · obtain ⟨rfl, rfl⟩ := hlast
      exact ⟨name, t.tail, (get?_give n t name name).trans (if_pos rfl), hfirst⟩
    · have hold : i ≤ n.count head := by
        rw [count_give] at hi
        split at hi
        · rename_i heq
          rw [heq]
          exact Nat.le_of_lt_succ (lt_of_le_of_ne hi fun hlt => hlast ⟨heq, hlt⟩)
        · exact hi
      obtain ⟨other, tail, htail, hunused⟩ := hn.exists_name head i hpos hold
      refine ⟨other, tail, ?_, hunused⟩
      rw [get?_give, if_neg]
      · exact htail
      · rintro rfl
        cases htail.symm.trans (not_mem_of_next? free).2
  case exists_number =>
    intro head other tail htail
    rw [get?_give] at htail
    split at htail
    · rename_i heq
      cases htail
      refine ⟨_, Nat.succ_pos _, ?_, heq ▸ hfirst⟩
      rw [count_give, if_pos rfl]
    · obtain ⟨i, hpos, hi, hunused⟩ := hn.exists_number head other tail htail
      exact ⟨i, hpos, hi.trans (n.count_le_count_give t name head), hunused⟩

end IsNumbered

theorem Grows.isNumbered (h : Grows used n m) (hn : n.IsNumbered used) : m.IsNumbered used := by
  induction h with
  | refl => exact hn
  | give _ _ _ free ih => exact ih.give free

/-- Registering fails where no name is free. -/
theorem next?_of_register {e : CompileError} (h : register used t n = .error e) :
    n.next? used t = none ∧ e = .nameExhaustion (t.head.numbered (n.count t.head + 1)) := by
  unfold register at h
  split at h
  · cases h
  · split at h
    · cases h
    · dsimp only at h
      split at h
      · rename_i hnone
        exact ⟨hnone, (Except.error.inj h).symm⟩
      · cases h

end Naming

section Replacing

variable {σ ε : Type} {I : σ → Prop} {E : ε → Prop} {f : Term → StateT σ (Except ε) Term}

theorem Arg.preserves_replaceListM {args : List Arg}
    (h : ∀ a ∈ args, Preserves I E (a.replaceM f)) :
    Preserves I E (Arg.replaceListM f args) := by
  induction args with
  | nil => exact .pure []
  | cons a rest ih =>
    refine (h a List.mem_cons_self).bind fun b => ?_
    exact (ih fun c hc => h c (List.mem_cons_of_mem _ hc)).bind fun bs => .pure (b :: bs)

/-- Replacing preserves what replacing a variable and replacing an application with the property
`P` preserve. -/
theorem Arg.preserves_replaceM {P : Arg → Prop} (hP : Naming.Hereditary P)
    (hvar : ∀ v, Preserves I E (f (.var v)))
    (hnode : ∀ head tail args, tail ≠ [] → P (.node head tail) → Preserves I E (f ⟨head, args⟩))
    {a : Arg} (ha : P a) : Preserves I E (a.replaceM f) := by
  induction a using Arg.induct with
  | number x => exact .pure _
  | node head tail ih =>
    by_cases hnil : tail = []
    · subst hnil
      exact (hvar head).bind fun t => .pure t.toArg
    · refine (preserves_replaceListM fun a ha' => ih a ha' (hP head tail ha a ha')).bind ?_
      exact fun args => (hnode head tail args hnil ha).bind fun t => .pure t.toArg

end Replacing

namespace EquationSet

variable {strict : Bool} {s l : EquationSet} {head : Atom}

/-- The head of an application among the right-hand sides or inside them. -/
def UsesHead (s : EquationSet) (head : Atom) : Prop :=
  ∃ tail, tail ≠ [] ∧ s.IsPart (.node head tail)

/-- The error is about a name for an application of the set, all spellings of which are variables
of the set. -/
def IsExhausted (s : EquationSet) (e : CompileError) : Prop :=
  ∃ head i, s.UsesHead head ∧ 0 < i ∧ e = .nameExhaustion (head.numbered i) ∧
    ∀ k ≤ 64, (head.numbered i).padded k ∈ s.vars

theorem isNumbered_startNaming : (s.startNaming strict).IsNumbered s.vars := by
  constructor
  case exists_name => exact fun head i hpos hi => absurd hi (Nat.not_le.mpr hpos)
  case exists_number => exact nofun

theorem preserves_register (h : s.UsesHead head) (args : List Arg) :
    Preserves (Naming.IsNumbered s.vars) s.IsExhausted (Naming.register s.vars ⟨head, args⟩) := by
  intro n hn
  constructor
  · intro e he
    obtain ⟨hnone, rfl⟩ := Naming.next?_of_register he
    exact ⟨head, _, h, Nat.succ_pos _, rfl, hn.padded_mem hnone⟩
  · intro r hr
    rcases Naming.register_cases hr with ⟨-, rfl⟩ | ⟨-, -, -, rfl⟩ | ⟨-, -, name, hfree, rfl⟩
    · exact hn
    · exact hn
    · exact hn.give hfree

theorem preserves_register_var (v : Atom) :
    Preserves (Naming.IsNumbered s.vars) s.IsExhausted (Naming.register s.vars (.var v)) :=
  .pure (Term.var v)

theorem preserves_linearizeEquation {e : Atom × Term} (he : s.get? e.1 = some e.2) :
    Preserves (Naming.IsNumbered s.vars) s.IsExhausted (linearizeEquation strict s.vars e) := by
  rw [linearizeEquation]
  split
  · exact .pure _
  · rename_i hvar
    have hne : e.2.tail ≠ [] := fun hnil => hvar (List.isEmpty_iff.mpr hnil)
    refine Preserves.bind ?_ fun rhs => .pure (e.1, rhs)
    refine (Arg.preserves_replaceListM fun a ha => ?_).bind fun args => ?_
    · exact Arg.preserves_replaceM hereditary_isPart preserves_register_var
        (fun head tail args hne hpart => preserves_register ⟨tail, hne, hpart⟩ args)
        (.argument (.whole he) ha)
    · generalize (!keepsRoot strict e.1 e.2) = root
      cases root with
      | false => exact .pure _
      | true => exact preserves_register ⟨e.2.tail, hne, .whole he⟩ args

/-- Linearizing fails for want of a name only. -/
theorem failsOnly_linearize (strict : Bool) (s : EquationSet) :
    FailsOnly s.IsExhausted (s.linearize strict) := by
  have hrun : Preserves (Naming.IsNumbered s.vars) s.IsExhausted
      (s.toList.mapM (linearizeEquation strict s.vars)) :=
    .mapM fun e he => preserves_linearizeEquation (SortedMap.get?_of_mem he)
  exact (hrun _ isNumbered_startNaming).1.bind fun _ => .ok _

theorem IsExhausted.length {e : CompileError} (h : s.IsExhausted e) : 64 < s.vars.length := by
  obtain ⟨head, i, -, -, -, hused⟩ := h
  exact Atom.maxPadding_lt_length hused

theorem exists_linearize (strict : Bool) (h : s.vars.length < 65) :
    ∃ l, s.linearize strict = .ok l := by
  cases hl : s.linearize strict with
  | ok l => exact ⟨l, rfl⟩
  | error e =>
    have hlength := (failsOnly_linearize strict s e hl).length
    exact absurd hlength (Nat.not_lt.mpr (Nat.le_of_lt_succ h))

/-- The name is no variable of the source, and the linear form binds it to an application of the
head. -/
def IsFreshFor (s l : EquationSet) (head name : Atom) : Prop :=
  name ∉ s.vars ∧ ∃ tail, tail ≠ [] ∧ l.get? name = some ⟨head, tail⟩

theorem IsLinearization.isFreshFor_iff {n : Naming} (h : IsLinearization strict s l n)
    {name : Atom} : s.IsFreshFor l head name ↔ ∃ tail, n.fresh.get? name = some ⟨head, tail⟩ := by
  constructor
  · rintro ⟨hname, tail, -, htail⟩
    exact ⟨tail, h.fresh_of_not_mem hname htail⟩
  · rintro ⟨tail, htail⟩
    exact ⟨h.isSound.not_used name _ htail, tail, (h.isSound.isLinear name _ htail).tail_ne_nil,
      h.get?_of_fresh htail⟩

/-- Linearizing gives up on a name only when all its spellings are variables of the set, so never
on a set of fewer than 65 variables.  Otherwise the fresh names for the applications of a head
are numbered without gaps, and each has the least number of underscores that keeps it apart from
the variables of the set. -/
theorem linearize_freshNames (strict : Bool) (s : EquationSet) :
    (∀ e, s.linearize strict = .error e → ∃ head i, s.UsesHead head ∧ 0 < i ∧
      e = .nameExhaustion (head.numbered i) ∧ ∀ k ≤ 64, (head.numbered i).padded k ∈ s.vars) ∧
    (s.vars.length < 65 → ∃ l, s.linearize strict = .ok l) ∧
    ∀ l, s.linearize strict = .ok l → ∀ head, ∃ m,
      (∀ i, 0 < i → i ≤ m →
        ∃ name, s.IsFreshFor l head name ∧ (head.numbered i).IsFirstUnused s.vars name) ∧
      ∀ name, s.IsFreshFor l head name →
        ∃ i, 0 < i ∧ i ≤ m ∧ (head.numbered i).IsFirstUnused s.vars name := by
  refine ⟨failsOnly_linearize strict s, exists_linearize strict, ?_⟩
  intro l hl head
  obtain ⟨n, hn⟩ := exists_isLinearization hl
  have hnumbered := hn.grows.isNumbered isNumbered_startNaming
  refine ⟨n.count head, fun i hpos hi => ?_, fun name hname => ?_⟩
  · obtain ⟨name, tail, htail, hunused⟩ := hnumbered.exists_name head i hpos hi
    exact ⟨name, hn.isFreshFor_iff.mpr ⟨tail, htail⟩, hunused⟩
  · obtain ⟨tail, htail⟩ := hn.isFreshFor_iff.mp hname
    exact hnumbered.exists_number head name tail htail

/-- The circuit `x = a(a_1(y), a_1, a(y))`. -/
def crowded : EquationSet :=
  let a : Atom := ⟨['a'], .refl true⟩
  let y : Atom := ⟨['y'], .refl true⟩
  let named : Atom := ⟨"a_1".toList, .refl true⟩
  .ofList [(⟨['x'], .refl true⟩,
    ⟨a, [.node named [.node y []], .node named [], .node a [.node y []]]⟩)]

/-- The circuit `a_1_ = a(y)`, `a_1_1 = a_1(y)`, `x = a(a_1_1, a_1, a_1_)`. -/
def crowdedLinear : EquationSet :=
  let a : Atom := ⟨['a'], .refl true⟩
  let y : Atom := ⟨['y'], .refl true⟩
  let named : Atom := ⟨"a_1".toList, .refl true⟩
  let padded : Atom := ⟨"a_1_".toList, .refl true⟩
  let again : Atom := ⟨"a_1_1".toList, .refl true⟩
  .ofList [(padded, ⟨a, [.node y []]⟩), (again, ⟨named, [.node y []]⟩),
    (⟨['x'], .refl true⟩, ⟨a, [.node again [], .node named [], .node padded []]⟩)]

/-- The circuit `x = a(a(a_1, a_1_, …))` with every spelling of `a_1`. -/
def spent : EquationSet :=
  let a : Atom := ⟨['a'], .refl true⟩
  .ofList [(⟨['x'], .refl true⟩, ⟨a, [.node a ((a.numbered 1).variants.map fun b => .node b [])]⟩)]

theorem linearize_freshNames_spent_crowded :
    (∃ e, spent.linearize false = .error e ∧ ∃ head i, spent.UsesHead head ∧ 0 < i ∧
      e = .nameExhaustion (head.numbered i) ∧ ∀ k ≤ 64, (head.numbered i).padded k ∈ spent.vars) ∧
    crowded.vars.length < 65 ∧ crowded.linearize false = .ok crowdedLinear ∧
      ∀ head, ∃ m,
        (∀ i, 0 < i → i ≤ m → ∃ name, crowded.IsFreshFor crowdedLinear head name ∧
          (head.numbered i).IsFirstUnused crowded.vars name) ∧
        ∀ name, crowded.IsFreshFor crowdedLinear head name →
          ∃ i, 0 < i ∧ i ≤ m ∧ (head.numbered i).IsFirstUnused crowded.vars name := by
  have hspent : spent.linearize false =
      .error (.nameExhaustion (Atom.numbered ⟨['a'], .refl true⟩ 1)) := by decide +kernel
  have hcrowded : crowded.linearize false = .ok crowdedLinear := rfl
  refine ⟨⟨_, hspent, (spent.linearize_freshNames false).1 _ hspent⟩, by decide, hcrowded, ?_⟩
  exact (crowded.linearize_freshNames false).2.2 crowdedLinear hcrowded

end EquationSet

end DiffAnalyzer
