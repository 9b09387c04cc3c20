import DiffAnalyzer.EquationSet.Linear
import DiffAnalyzer.Proofs.Failure
import DiffAnalyzer.Proofs.SortedMap
import Mathlib

/-!
# What linearizing yields

Linearizing threads a naming through all equations.  Names once given stay
(`Naming.Grows`), so the naming that is left at the end explains the whole result: each
right-hand side is the one of the source with every application inside replaced by its
name, and the fresh equations are those of the naming
(`EquationSet.exists_isLinearization`).
-/

namespace DiffAnalyzer

namespace Arg

/-- A literal or a variable. -/
def isSimple (a : Arg) : Bool := a.term?.all Term.isVariable

@[simp] theorem isSimple_toArg (t : Term) : t.toArg.isSimple = t.isVariable := rfl

@[simp] theorem isSimple_node (head : Atom) (tail : List Arg) :
    (Arg.node head tail).isSimple = tail.isEmpty := rfl

/-- Replace every term of an argument, the innermost first. -/
def replace (f : Term → Term) (a : Arg) : Arg := Id.run (a.replaceM fun t => pure (f t))

@[simp] theorem replace_number (f : Term → Term) (x : Number) :
    (Arg.number x).replace f = .number x := rfl

theorem replaceListM_eq_map (f : Term → Term) (args : List Arg) :
    Id.run (replaceListM (fun t => pure (f t)) args) = args.map (replace f) := by
  induction args with
  | nil => rfl
  | cons a rest ih =>
    rw [List.map_cons, ← ih]
    rfl

@[simp] theorem replace_node (f : Term → Term) (head : Atom) (tail : List Arg) :
    (Arg.node head tail).replace f = (f ⟨head, tail.map (replace f)⟩).toArg := by
  rw [← replaceListM_eq_map]
  rfl

theorem mem_references_node {v head : Atom} {tail : List Arg} :
    v ∈ (Arg.node head tail).references ↔
      tail = [] ∧ v = head ∨ ∃ a ∈ tail, v ∈ a.references := by
  cases tail with
  | nil => simp [references]
  | cons a rest => simp [references, referencesList_eq_flatMap]

theorem references_node (head : Atom) {tail : List Arg} (h : tail ≠ []) :
    (Arg.node head tail).references = tail.flatMap references := by
  cases tail with
  | nil => exact absurd rfl h
  | cons a rest => rw [references, referencesList_eq_flatMap, List.flatMap_cons]

/-- A traversal that renames variables renames what an argument refers to, whatever becomes of the
heads of applications. -/
theorem references_map {f : Atom → Atom} {g : Arg → Arg} (number : ∀ x, g (.number x) = .number x)
    (leaf : ∀ v, g (.node v []) = .node (f v) [])
    (inner : ∀ head tail, tail ≠ [] → ∃ head', g (.node head tail) = .node head' (tail.map g))
    (a : Arg) : (g a).references = a.references.map f := by
  induction a using Arg.induct with
  | number x =>
    rw [number]
    rfl
  | node head tail ih =>
    by_cases hnil : tail = []
    · subst hnil
      rw [leaf]
      rfl
    · obtain ⟨head', hhead⟩ := inner head tail hnil
      rw [hhead, references_node head hnil, references_node head' (mt List.map_eq_nil_iff.mp hnil),
        List.flatMap_map, List.map_flatMap]
      exact List.flatMap_congr ih

end Arg

namespace Term

theorem isFlat_iff {t : Term} : t.isFlat = true ↔ ∀ a ∈ t.tail, a.isSimple = true :=
  List.all_eq_true

/-- A right-hand side depends on the variables that it refers to. -/
theorem mem_dependencies {v : Atom} {t : Term} :
    v ∈ t.dependencies ↔ v ∈ t.toArg.references := by
  rw [toArg, Arg.mem_references_node, dependencies]
  split
  · rename_i hvar
    have hnil : t.tail = [] := List.isEmpty_iff.mp hvar
    simp [hnil]
  · rename_i hvar
    have hne : t.tail ≠ [] := fun hnil => hvar (List.isEmpty_iff.mpr hnil)
    simp [hne]

theorem isCompound_iff {t : Term} : t.isCompound = true ↔ t.isVariable = false := by
  rw [isCompound, Bool.not_eq_true']

theorem isCompound_iff_ne_nil {t : Term} : t.isCompound = true ↔ t.tail ≠ [] := by
  rw [isCompound_iff, isVariable, List.isEmpty_eq_false_iff]

theorem replace_eq (f : Term → Term) (root : Bool) (t : Term) :
    t.replace f root = if root then f ⟨t.head, t.tail.map (Arg.replace f)⟩
      else ⟨t.head, t.tail.map (Arg.replace f)⟩ := by
  rw [← Arg.replaceListM_eq_map]
  cases root <;> rfl

end Term

namespace Naming

/-- What stands for a term: the name of an application, and a variable for itself.  An
application without a name is kept. -/
def standIn (n : Naming) (t : Term) : Term :=
  if t.isVariable then t else ((n.names.lookup t).map Term.var).getD t

theorem standIn_of_isVariable (n : Naming) {t : Term} (h : t.isVariable = true) :
    n.standIn t = t := if_pos h

/-- Literals and variables stay as they are. -/
theorem replace_of_isSimple (n : Naming) {a : Arg} (h : a.isSimple = true) :
    a.replace n.standIn = a := by
  cases a with
  | number x => rfl
  | node head tail =>
    rw [Arg.isSimple_node, List.isEmpty_iff] at h
    rw [h, Arg.replace_node, List.map_nil, n.standIn_of_isVariable rfl]
    rfl

/-- Where no application is inside, there is nothing to replace. -/
theorem map_replace_of_isFlat (n : Naming) {t : Term} (h : t.isFlat = true) :
    t.tail.map (Arg.replace n.standIn) = t.tail :=
  List.map_congr_left (fun a ha => n.replace_of_isSimple (Term.isFlat_iff.mp h a ha))
    |>.trans (List.map_id _)

theorem standIn_of_lookup {n : Naming} {t : Term} {name : Atom} (ht : t.isCompound = true)
    (h : n.names.lookup t = some name) : n.standIn t = .var name := by
  rw [standIn, Term.isCompound_iff.mp ht, h]
  rfl

/-- The name that an application gets next. -/
def next? (used : List Atom) (n : Naming) (t : Term) : Option Atom :=
  (t.head.numbered ((n.counters.get? t.head).getD 0 + 1)).free? fun name =>
    used.contains name || n.fresh.contains name

/-- The naming once an application has got a name. -/
def give (n : Naming) (t : Term) (name : Atom) : Naming where
  counters := n.counters.insert t.head ((n.counters.get? t.head).getD 0 + 1)
  names := (t, name) :: n.names
  fresh := n.fresh.insert name t

theorem lookup_give (n : Naming) (t u : Term) (name : Atom) :
    (n.give t name).names.lookup u = if u = t then some name else n.names.lookup u := by
  rw [give, List.lookup_cons]
  by_cases h : u = t
  · rw [if_pos h, h, beq_self_eq_true]
  · rw [if_neg h, beq_eq_false_iff_ne.mpr h]

theorem get?_give (n : Naming) (t : Term) (name other : Atom) :
    (n.give t name).fresh.get? other = if other = name then some t else n.fresh.get? other :=
  SortedMap.get?_insert n.fresh name other t

/-- The variables that right-hand sides may refer to. -/
def Knows (used : List Atom) (n : Naming) (v : Atom) : Prop :=
  v ∈ used ∨ n.fresh.contains v = true

/-- An element applied to literals and known variables. -/
structure IsLinear (used : List Atom) (n : Naming) (t : Term) : Prop where
  isCompound : t.isCompound = true
  isFlat : t.isFlat = true
  knows : ∀ a ∈ t.tail, ∀ v ∈ a.references, n.Knows used v

/-- One naming comes from another by giving names to further applications. -/
inductive Grows (used : List Atom) (n : Naming) : Naming → Prop where
  | refl : Grows used n n
  | give {m : Naming} {t : Term} {name : Atom} (grows : Grows used n m)
      (linear : m.IsLinear used t) (unnamed : m.names.lookup t = none)
      (free : m.next? used t = some name) : Grows used n (m.give t name)

variable {used : List Atom} {n m k : Naming} {t u : Term} {name : Atom}

theorem not_mem_of_next? (h : n.next? used t = some name) :
    name ∉ used ∧ n.fresh.get? name = none := by
  have := Atom.not_taken_of_free? h
  rw [Bool.or_eq_false_iff, SortedMap.contains_eq_false_iff] at this
  exact ⟨fun hmem => by simp [hmem] at this, this.2⟩

/-- What registering a term can do. -/
theorem register_cases {r : Term × Naming} (h : register used t n = .ok r) :
    (t.isVariable = true ∧ r = (t, n)) ∨
    (t.isCompound = true ∧ ∃ name, n.names.lookup t = some name ∧ r = (.var name, n)) ∨
    (t.isCompound = true ∧ n.names.lookup t = none ∧
      ∃ name, n.next? used t = some name ∧ r = (.var name, n.give t name)) := by
  unfold register at h
  split at h
  case isTrue hvar => exact .inl ⟨hvar, (Except.ok.inj h).symm⟩
  case isFalse hvar =>
    have ht : t.isCompound = true := Term.isCompound_iff.mpr (Bool.not_eq_true _ ▸ hvar)
    split at h
    case h_1 name hname => exact .inr (.inl ⟨ht, name, hname, (Except.ok.inj h).symm⟩)
    case h_2 hname =>
      dsimp only at h
      split at h
      · cases h
      · rename_i name hfree
        exact .inr (.inr ⟨ht, hname, name, hfree, (Except.ok.inj h).symm⟩)

namespace Grows

theorem trans (h : Grows used n m) (h' : Grows used m k) : Grows used n k := by
  induction h' with
  | refl => exact h
  | give _ linear unnamed free ih => exact .give ih linear unnamed free

/-- Names once given stay. -/
theorem lookup (h : Grows used n m) (hname : n.names.lookup t = some name) :
    m.names.lookup t = some name := by
  induction h with
  | refl => exact hname
  | give _ _ unnamed _ ih =>
    rw [lookup_give]
    split
    · rename_i heq
      rw [← heq, ih] at unnamed
      cases unnamed
    · exact ih

theorem fresh (h : Grows used n m) (hname : n.fresh.get? name = some t) :
    m.fresh.get? name = some t := by
  induction h with
  | refl => exact hname
  | give _ _ _ free ih =>
    rw [get?_give]
    split
    · rename_i heq
      rw [heq, (not_mem_of_next? free).2] at ih
      cases ih
    · exact ih

theorem knows (h : Grows used n m) {v : Atom} (hv : n.Knows used v) : m.Knows used v := by
  refine hv.imp_right fun hv => ?_
  obtain ⟨t, ht⟩ := Option.isSome_iff_exists.mp hv
  exact Option.isSome_iff_exists.mpr ⟨t, h.fresh ht⟩

end Grows

/-- A literal or a known variable. -/
structure IsAnswer (used : List Atom) (n : Naming) (a : Arg) : Prop where
  isSimple : a.isSimple = true
  knows : ∀ v ∈ a.references, n.Knows used v

theorem IsAnswer.mono {a : Arg} (h : n.IsAnswer used a) (hn : Grows used n m) :
    m.IsAnswer used a :=
  ⟨h.isSimple, fun v hv => hn.knows (h.knows v hv)⟩

theorem isAnswer_var {v : Atom} (hv : n.Knows used v) : n.IsAnswer used (Term.var v).toArg :=
  ⟨rfl, fun w hw => by
    rw [List.mem_singleton.mp hw]
    exact hv⟩

/-- Names are known variables. -/
def NamesKnown (used : List Atom) (n : Naming) : Prop :=
  ∀ t name, n.names.lookup t = some name → n.Knows used name

theorem Grows.namesKnown (h : Grows used n m) (hn : n.NamesKnown used) : m.NamesKnown used := by
  induction h with
  | refl => exact hn
  | @give m t name grows linear unnamed free ih =>
    intro u other hother
    have hgrows : Grows used m (m.give t name) := .give .refl linear unnamed free
    rw [lookup_give] at hother
    split at hother
    · rw [← Option.some.inj hother]
      exact .inr (Option.isSome_iff_exists.mpr ⟨t, (get?_give m t name name).trans (if_pos rfl)⟩)
    · exact hgrows.knows (ih u other hother)

/-- The term is what every later naming makes of an application with the property `P`. -/
def Stems (used : List Atom) (P : Arg → Prop) (n : Naming) (t : Term) : Prop :=
  ∃ head tail, P (.node head tail) ∧
    ∀ k, Grows used n k → (⟨head, tail.map (Arg.replace k.standIn)⟩ : Term) = t

theorem Stems.mono {P : Arg → Prop} (h : n.Stems used P t) (hn : Grows used n m) :
    m.Stems used P t := by
  obtain ⟨head, tail, hP, hk⟩ := h
  exact ⟨head, tail, hP, fun k hmk => hk k (hn.trans hmk)⟩

/-- Every fresh equation stems from an application with the property `P`. -/
def Traced (used : List Atom) (P : Arg → Prop) (n : Naming) : Prop :=
  ∀ name t, n.fresh.get? name = some t → n.Stems used P t

theorem Traced.register {P : Arg → Prop} {r : Term × Naming} (h : n.Traced used P)
    (ht : t.isCompound = true → n.Stems used P t) (hn : Grows used n r.2)
    (hr : Naming.register used t n = .ok r) : r.2.Traced used P := by
  rcases register_cases hr with ⟨-, rfl⟩ | ⟨-, -, -, rfl⟩ | ⟨hc, -, name, -, rfl⟩
  · exact h
  · exact h
  · intro other u hu
    rw [get?_give] at hu
    split at hu
    · rw [← Option.some.inj hu]
      exact (ht hc).mono hn
    · exact (h other u hu).mono hn

/-- What is registered becomes a variable. -/
theorem isVariable_of_register {r : Term} (h : register used t n = .ok (r, m)) :
    r.isVariable = true := by
  rcases register_cases h with ⟨hvar, hr⟩ | ⟨-, name, -, hr⟩ | ⟨-, -, name, -, hr⟩
  · cases hr
    exact hvar
  · cases hr
    rfl
  · cases hr
    rfl

/-- A property of arguments that passes on to their arguments. -/
def Hereditary (P : Arg → Prop) : Prop :=
  ∀ head tail, P (.node head tail) → ∀ a ∈ tail, P a

/-- The run that replaces `a` by `b` and turns `n` into `m` gives the answer that every
later naming agrees on. -/
structure Rewrites (used : List Atom) (P : Arg → Prop) (n m : Naming) (a b : Arg) : Prop where
  grows : Grows used n m
  isAnswer : m.IsAnswer used b
  replace : ∀ k, Grows used m k → a.replace k.standIn = b
  traced : n.Traced used P → m.Traced used P

/-- Registering an element applied to answers gives an answer, the one that every later
naming agrees on. -/
theorem register_spec {r : Term} (hn : n.NamesKnown used)
    (ht : ∀ a ∈ t.tail, n.IsAnswer used a) (hvar : t.isVariable = true → t.head ∈ used)
    (h : register used t n = .ok (r, m)) :
    Grows used n m ∧ m.IsAnswer used r.toArg ∧ ∀ k, Grows used m k → k.standIn t = r := by
  rcases register_cases h with ⟨hv, hr⟩ | ⟨hc, name, hname, hr⟩ | ⟨hc, hname, name, hfree, hr⟩
  · cases hr
    refine ⟨.refl, ?_, fun k _ => k.standIn_of_isVariable hv⟩
    rw [Term.eq_var_of_isVariable hv]
    exact isAnswer_var (.inl (hvar hv))
  · cases hr
    refine ⟨.refl, isAnswer_var (hn t name hname), fun k hk => ?_⟩
    exact standIn_of_lookup hc (hk.lookup hname)
  · cases hr
    have hlinear : n.IsLinear used t :=
      ⟨hc, Term.isFlat_iff.mpr fun a ha => (ht a ha).isSimple, fun a ha => (ht a ha).knows⟩
    have hgrows : Grows used n (n.give t name) := .give .refl hlinear hname hfree
    have hlookup : (n.give t name).names.lookup t = some name := List.lookup_cons_self
    exact ⟨hgrows, isAnswer_var (hgrows.namesKnown hn t name hlookup),
      fun k hk => standIn_of_lookup hc (hk.lookup hlookup)⟩

/-- A list of arguments is replaced as its members are. -/
theorem replaceListM_spec {P : Arg → Prop} {args bs : List Arg}
    (ih : ∀ a ∈ args, ∀ {n m : Naming} {b : Arg}, n.NamesKnown used →
      a.replaceM (register used) n = .ok (b, m) → Rewrites used P n m a b)
    (hn : n.NamesKnown used) (h : Arg.replaceListM (register used) args n = .ok (bs, m)) :
    Grows used n m ∧ (∀ b ∈ bs, m.IsAnswer used b) ∧
      (∀ k, Grows used m k → args.map (Arg.replace k.standIn) = bs) ∧
      (n.Traced used P → m.Traced used P) := by
  induction args generalizing n bs with
  | nil =>
    obtain ⟨rfl, rfl⟩ := statePure_eq_ok_iff.mp h
    exact ⟨.refl, nofun, fun _ _ => rfl, id⟩
  | cons a rest ihrest =>
    obtain ⟨b, n', hb, h⟩ := stateBind_eq_ok_iff.mp h
    obtain ⟨bs', m', hbs, h⟩ := stateBind_eq_ok_iff.mp h
    obtain ⟨rfl, rfl⟩ := statePure_eq_ok_iff.mp h
    have first := ih a List.mem_cons_self hn hb
    obtain ⟨hgrows, hanswers, hmap, htraced⟩ :=
      ihrest (fun c hc => ih c (List.mem_cons_of_mem _ hc)) (first.grows.namesKnown hn) hbs
    refine ⟨first.grows.trans hgrows, fun c hc => ?_, fun k hk => ?_,
      fun hP => htraced (first.traced hP)⟩
    · rcases List.mem_cons.mp hc with rfl | hc
      · exact first.isAnswer.mono hgrows
      · exact hanswers c hc
    · rw [List.map_cons, first.replace k (hgrows.trans hk), hmap k hk]

/-- Replacing the terms of an argument while names are given is replacing them by what the
naming says in the end. -/
theorem replaceM_spec {P : Arg → Prop} (hP : Hereditary P) {a b : Arg} (ha : P a)
    (hused : ∀ v ∈ a.references, v ∈ used) (hn : n.NamesKnown used)
    (h : a.replaceM (register used) n = .ok (b, m)) : Rewrites used P n m a b := by
  induction a using Arg.induct generalizing b n m with
  | number x =>
    obtain ⟨rfl, rfl⟩ := statePure_eq_ok_iff.mp h
    exact ⟨.refl, ⟨rfl, nofun⟩, fun _ _ => rfl, id⟩
  | node head tail ih =>
    obtain ⟨bs, n', hbs, h⟩ := stateBind_eq_ok_iff.mp h
    obtain ⟨r, m', hr, h⟩ := stateBind_eq_ok_iff.mp h
    obtain ⟨rfl, rfl⟩ := statePure_eq_ok_iff.mp h
    obtain ⟨hgrows, hanswers, hmap, htraced⟩ := replaceListM_spec (P := P)
      (fun c hc => ih c hc (hP head tail ha c hc)
        fun v hv => hused v (Arg.mem_references_node.mpr (.inr ⟨c, hc, hv⟩)))
      hn hbs
    have hempty : bs.isEmpty = true → tail = [] := fun he => by
      rw [← hmap n' .refl] at he
      simpa using he
    obtain ⟨hgrows', hanswer, hstand⟩ := register_spec (t := ⟨head, bs⟩)
      (hgrows.namesKnown hn) hanswers
      (fun hv => hused head (Arg.mem_references_node.mpr (.inl ⟨hempty hv, rfl⟩))) hr
    refine ⟨hgrows.trans hgrows', hanswer, fun k hk => ?_, fun hn => ?_⟩
    · rw [Arg.replace_node, hmap k (hgrows'.trans hk), hstand k hk]
    · refine (htraced hn).register (fun _ => ⟨head, tail, ha, fun k hk => ?_⟩) hgrows' hr
      rw [hmap k hk]

/-- An equation in linear form, by the names that are given in the end. -/
def linear (n : Naming) (strict : Bool) (name : Atom) (rhs : Term) : Term :=
  rhs.replace n.standIn (!EquationSet.keepsRoot strict name rhs)

theorem linear_of_isVariable (n : Naming) (strict : Bool) (name : Atom) {rhs : Term}
    (h : rhs.isVariable = true) : n.linear strict name rhs = rhs := by
  have hrhs : (⟨rhs.head, rhs.tail.map (Arg.replace n.standIn)⟩ : Term) = rhs := by
    rw [List.isEmpty_iff.mp h, List.map_nil, ← List.isEmpty_iff.mp h]
  rw [linear, Term.replace_eq, hrhs, n.standIn_of_isVariable h, ite_self]

/-- A right-hand side that needs no more names. -/
structure IsRightHandSide (used : List Atom) (n : Naming) (t : Term) : Prop where
  isFlat : t.isFlat = true
  knows : ∀ v ∈ t.toArg.references, n.Knows used v

theorem IsLinear.tail_ne_nil (h : n.IsLinear used t) : t.tail ≠ [] := fun hnil => by
  have hvar := Term.isCompound_iff.mp h.isCompound
  rw [Term.isVariable, hnil] at hvar
  cases hvar

theorem IsLinear.isRightHandSide (h : n.IsLinear used t) : n.IsRightHandSide used t :=
  ⟨h.isFlat, fun v hv => by
    rcases Arg.mem_references_node.mp hv with ⟨hnil, -⟩ | ⟨a, ha, hv⟩
    · exact absurd hnil h.tail_ne_nil
    · exact h.knows a ha v hv⟩

theorem IsRightHandSide.mono (h : n.IsRightHandSide used t) (hn : Grows used n m) :
    m.IsRightHandSide used t :=
  ⟨h.isFlat, fun v hv => hn.knows (h.knows v hv)⟩

theorem isRightHandSide_of_isAnswer {head : Atom} {tail : List Arg} (hne : tail ≠ [])
    (h : ∀ a ∈ tail, n.IsAnswer used a) : n.IsRightHandSide used ⟨head, tail⟩ := by
  refine ⟨Term.isFlat_iff.mpr fun a ha => (h a ha).isSimple, fun v hv => ?_⟩
  rcases Arg.mem_references_node.mp hv with ⟨he, -⟩ | ⟨a, ha, hv⟩
  · exact absurd he hne
  · exact (h a ha).knows v hv

theorem isRightHandSide_of_isVariable (hv : t.isVariable = true) (h : n.Knows used t.head) :
    n.IsRightHandSide used t := by
  rw [Term.eq_var_of_isVariable hv]
  refine ⟨rfl, fun v hmem => ?_⟩
  rw [List.mem_singleton.mp hmem]
  exact h

/-- The property holds of the applications of an equation that are given names: those inside
the right-hand side, and the outermost one unless the equation keeps it. -/
structure NamedHave (P : Arg → Prop) (strict : Bool) (e : Atom × Term) : Prop where
  inside : ∀ a ∈ e.2.tail, P a
  root : EquationSet.keepsRoot strict e.1 e.2 = false → P e.2.toArg

theorem linearizeEquation_spec {P : Arg → Prop} (hP : Hereditary P) {strict : Bool}
    {e r : Atom × Term} (he : NamedHave P strict e) (hused : ∀ v ∈ e.2.dependencies, v ∈ used)
    (hn : n.NamesKnown used) (h : EquationSet.linearizeEquation strict used e n = .ok (r, m)) :
    Grows used n m ∧ m.IsRightHandSide used r.2 ∧
      (∀ k, Grows used m k → (e.1, k.linear strict e.1 e.2) = r) ∧
      (n.Traced used P → m.Traced used P) := by
  rw [EquationSet.linearizeEquation] at h
  split at h
  case isTrue hvar =>
    obtain ⟨rfl, rfl⟩ := statePure_eq_ok_iff.mp h
    refine ⟨.refl, isRightHandSide_of_isVariable hvar (.inl (hused _ ?_)), fun k _ => ?_, id⟩
    · rw [Term.dependencies, if_pos hvar]
      exact List.mem_singleton.mpr rfl
    · rw [k.linear_of_isVariable strict e.1 hvar]
  case isFalse hvar =>
    have hrefs : ∀ a ∈ e.2.tail, ∀ v ∈ a.references, v ∈ used := fun a ha v hv => by
      refine hused v ?_
      rw [Term.dependencies, if_neg hvar]
      exact Term.mem_vars.mpr ⟨a, ha, hv⟩
    obtain ⟨rhs, n', hrhs, h⟩ := stateBind_eq_ok_iff.mp h
    obtain ⟨rfl, rfl⟩ := statePure_eq_ok_iff.mp h
    obtain ⟨bs, n₁, hbs, hroot⟩ := stateBind_eq_ok_iff.mp hrhs
    obtain ⟨hgrows, hanswers, hmap, htraced⟩ := replaceListM_spec
      (fun a ha {_ _ _} hn h => replaceM_spec hP (he.inside a ha) (hrefs a ha) hn h) hn hbs
    have hne : bs ≠ [] := by
      rw [← hmap n₁ .refl]
      intro hnil
      exact hvar (List.isEmpty_iff.mpr (List.map_eq_nil_iff.mp hnil))
    split at hroot
    case isTrue hkeep =>
      obtain ⟨hgrows', hanswer, hstand⟩ := register_spec (t := ⟨e.2.head, bs⟩)
        (hgrows.namesKnown hn) hanswers
        (fun hv => absurd (List.isEmpty_iff.mp hv) hne) hroot
      have hvar' : rhs.isVariable = true := hanswer.isSimple
      refine ⟨hgrows.trans hgrows', isRightHandSide_of_isVariable hvar' (hanswer.knows _ ?_),
        fun k hk => ?_, fun hn => ?_⟩
      · rw [Term.eq_var_of_isVariable hvar']
        exact List.mem_singleton.mpr rfl
      · rw [linear, Term.replace_eq, if_pos hkeep, hmap k (hgrows'.trans hk), hstand k hk]
      · have hroot' := he.root ((Bool.not_eq_true' _).mp hkeep)
        refine (htraced hn).register (fun _ => ⟨_, _, hroot', fun k hk => ?_⟩) hgrows' hroot
        rw [hmap k hk]
    case isFalse hkeep =>
      obtain ⟨rfl, rfl⟩ := statePure_eq_ok_iff.mp hroot
      refine ⟨hgrows, isRightHandSide_of_isAnswer hne hanswers, fun k hk => ?_, htraced⟩
      rw [linear, Term.replace_eq, if_neg hkeep, hmap k hk]

/-- An equation that does not keep its outermost application refers to it by name. -/
theorem isVariable_of_linearizeEquation {strict : Bool} {e r : Atom × Term}
    (hkeep : EquationSet.keepsRoot strict e.1 e.2 = false)
    (h : EquationSet.linearizeEquation strict used e n = .ok (r, m)) : r.2.isVariable = true := by
  rw [EquationSet.linearizeEquation] at h
  split at h
  case isTrue hvar =>
    obtain ⟨rfl, rfl⟩ := statePure_eq_ok_iff.mp h
    exact hvar
  case isFalse =>
    obtain ⟨rhs, n', hrhs, h⟩ := stateBind_eq_ok_iff.mp h
    obtain ⟨rfl, rfl⟩ := statePure_eq_ok_iff.mp h
    obtain ⟨bs, n₁, -, hroot⟩ := stateBind_eq_ok_iff.mp hrhs
    rw [hkeep, Bool.not_false, if_pos rfl] at hroot
    exact isVariable_of_register hroot

theorem linearizeEquations_spec {P : Arg → Prop} (hP : Hereditary P) {strict : Bool}
    {entries rs : List (Atom × Term)} (hentries : ∀ e ∈ entries, NamedHave P strict e)
    (hused : ∀ e ∈ entries, ∀ v ∈ e.2.dependencies, v ∈ used) (hn : n.NamesKnown used)
    (h : entries.mapM (EquationSet.linearizeEquation strict used) n = .ok (rs, m)) :
    Grows used n m ∧ (∀ r ∈ rs, m.IsRightHandSide used r.2) ∧
      (∀ k, Grows used m k → (entries.map fun e => (e.1, k.linear strict e.1 e.2)) = rs) ∧
      (n.Traced used P → m.Traced used P) := by
  induction entries generalizing n rs with
  | nil =>
    rw [List.mapM_nil] at h
    obtain ⟨rfl, rfl⟩ := statePure_eq_ok_iff.mp h
    exact ⟨.refl, nofun, fun _ _ => rfl, id⟩
  | cons e rest ih =>
    rw [List.mapM_cons] at h
    obtain ⟨r, n', hr, h⟩ := stateBind_eq_ok_iff.mp h
    obtain ⟨rs', m', hrs, h⟩ := stateBind_eq_ok_iff.mp h
    obtain ⟨rfl, rfl⟩ := statePure_eq_ok_iff.mp h
    obtain ⟨hgrows, hright, hlin, htraced⟩ := linearizeEquation_spec hP
      (hentries e List.mem_cons_self) (hused e List.mem_cons_self) hn hr
    obtain ⟨hgrows', hright', hlin', htraced'⟩ :=
      ih (fun d hd => hentries d (List.mem_cons_of_mem _ hd))
        (fun d hd => hused d (List.mem_cons_of_mem _ hd)) (hgrows.namesKnown hn) hrs
    refine ⟨hgrows.trans hgrows', fun d hd => ?_, fun k hk => ?_, fun hn => htraced' (htraced hn)⟩
    · rcases List.mem_cons.mp hd with rfl | hd
      · exact hright.mono hgrows'
      · exact hright' d hd
    · rw [List.map_cons, hlin k (hgrows'.trans hk), hlin' k hk]

/-- What a naming that grew from the names of stated equations says about its names. -/
structure IsSound (used : List Atom) (stated : List (Term × Atom)) (n : Naming) : Prop where
  stated_or_fresh : ∀ t name, n.names.lookup t = some name →
    stated.lookup t = some name ∨ n.fresh.get? name = some t
  lookup_of_fresh : ∀ name t, n.fresh.get? name = some t → n.names.lookup t = some name
  not_used : ∀ name t, n.fresh.get? name = some t → name ∉ used
  isLinear : ∀ name t, n.fresh.get? name = some t → n.IsLinear used t

theorem IsLinear.mono (h : n.IsLinear used t) (hn : Grows used n m) : m.IsLinear used t :=
  ⟨h.isCompound, h.isFlat, fun a ha v hv => hn.knows (h.knows a ha v hv)⟩

theorem IsSound.give {stated : List (Term × Atom)} (h : n.IsSound used stated)
    (linear : n.IsLinear used t) (unnamed : n.names.lookup t = none)
    (free : n.next? used t = some name) : (n.give t name).IsSound used stated := by
  have hgrows : Grows used n (n.give t name) := .give .refl linear unnamed free
  have hfresh : ∀ other u, (n.give t name).fresh.get? other = some u →
      other = name ∧ u = t ∨ n.fresh.get? other = some u := fun other u hu => by
    rw [get?_give] at hu
    split at hu
    · rename_i heq
      exact .inl ⟨heq, (Option.some.inj hu).symm⟩
    · exact .inr hu
  refine ⟨fun u other hu => ?_, fun other u hu => ?_, fun other u hu => ?_, fun other u hu => ?_⟩
  · rw [lookup_give] at hu
    split at hu
    · rename_i heq
      rw [← Option.some.inj hu, heq]
      exact .inr ((get?_give n t name name).trans (if_pos rfl))
    · exact (h.stated_or_fresh u other hu).imp_right hgrows.fresh
  · rcases hfresh other u hu with ⟨rfl, rfl⟩ | hu
    · exact List.lookup_cons_self
    · exact hgrows.lookup (h.lookup_of_fresh other u hu)
  · rcases hfresh other u hu with ⟨rfl, rfl⟩ | hu
    · exact (not_mem_of_next? free).1
    · exact h.not_used other u hu
  · rcases hfresh other u hu with ⟨rfl, rfl⟩ | hu
    · exact linear.mono hgrows
    · exact (h.isLinear other u hu).mono hgrows

theorem Grows.isSound {stated : List (Term × Atom)} (h : Grows used n m)
    (hn : n.IsSound used stated) : m.IsSound used stated := by
  induction h with
  | refl => exact hn
  | give _ linear unnamed free ih => exact ih.give linear unnamed free

end Naming

namespace EquationSet

variable {strict : Bool} {s l : EquationSet}

/-- The naming that linearizing starts from. -/
def startNaming (strict : Bool) (s : EquationSet) : Naming := ⟨∅, s.statedNames strict, ∅⟩

theorem mem_vars_of_get? {name : Atom} {rhs : Term} (h : s.get? name = some rhs) :
    name ∈ s.vars :=
  mem_vars.mpr (.inl (SortedMap.mem_keys_iff.mpr ⟨rhs, h⟩))

/-- A name depends on the variables of its right-hand side. -/
theorem mem_dependencyGraph_iff {name v : Atom} {rhs : Term} (h : s.get? name = some rhs) :
    (name, v) ∈ s.dependencyGraph ↔ v ∈ rhs.toArg.references := by
  rw [mem_dependencyGraph, ← Term.mem_dependencies]
  constructor
  · rintro ⟨rhs', hrhs', hv⟩
    cases Option.some.inj (h.symm.trans (SortedMap.get?_eq_some_iff.mpr hrhs'))
    exact hv
  · exact fun hv => ⟨rhs, SortedMap.get?_eq_some_iff.mp h, hv⟩

theorem mem_vars_of_mem_dependencies {name v : Atom} {rhs : Term} (h : s.get? name = some rhs)
    (hv : v ∈ rhs.dependencies) : v ∈ s.vars :=
  mem_vars.mpr (.inr ⟨name, (mem_dependencyGraph_iff h).mpr (Term.mem_dependencies.mp hv)⟩)

/-- A stated name is bound to the application it stands for, which needs no more names. -/
theorem stated_of_lookup {t : Term} {name : Atom}
    (h : (s.statedNames strict).lookup t = some name) :
    s.get? name = some t ∧ t.isCompound = true ∧ t.isFlat = true ∧
      keepsRoot strict name t = true := by
  obtain ⟨_, _, hmem, -⟩ := List.lookup_eq_some_iff.mp h
  have hmem : (t, name) ∈ s.statedNames strict := by
    rw [hmem]
    exact List.mem_append_right _ List.mem_cons_self
  obtain ⟨e, he, heq⟩ := List.mem_map.mp hmem
  obtain ⟨he, hp⟩ := List.mem_filter.mp he
  cases heq
  simp only [Bool.and_eq_true] at hp
  exact ⟨SortedMap.get?_of_mem he, hp.1.1, hp.1.2, hp.2⟩

theorem namesKnown_startNaming : (s.startNaming strict).NamesKnown s.vars :=
  fun _ _ h => .inl (mem_vars_of_get? (stated_of_lookup h).1)

theorem isSound_startNaming : (s.startNaming strict).IsSound s.vars (s.statedNames strict) :=
  ⟨fun _ _ h => .inl h, nofun, nofun, nofun⟩

/-- The right-hand sides of a set and their arguments at any depth. -/
inductive IsPart (s : EquationSet) : Arg → Prop where
  | whole {name : Atom} {rhs : Term} (h : s.get? name = some rhs) : s.IsPart rhs.toArg
  | argument {head : Atom} {tail : List Arg} {a : Arg} (h : s.IsPart (.node head tail))
      (ha : a ∈ tail) : s.IsPart a

theorem hereditary_isPart : Naming.Hereditary s.IsPart := fun _ _ h _ ha => .argument h ha

/-- The parts of a set that linearizing names: the arguments at any depth, and the right-hand
sides of the equations that do not keep theirs. -/
inductive IsNamedPart (strict : Bool) (s : EquationSet) : Arg → Prop where
  | root {name : Atom} {rhs : Term} (h : s.get? name = some rhs)
      (hkeep : keepsRoot strict name rhs = false) : s.IsNamedPart strict rhs.toArg
  | argument {head : Atom} {tail : List Arg} {a : Arg} (h : s.IsPart (.node head tail))
      (ha : a ∈ tail) : s.IsNamedPart strict a

theorem IsNamedPart.isPart {a : Arg} (h : s.IsNamedPart strict a) : s.IsPart a := by
  cases h with
  | root h _ => exact .whole h
  | argument h ha => exact .argument h ha

theorem hereditary_isNamedPart : Naming.Hereditary (s.IsNamedPart strict) :=
  fun _ _ h _ ha => .argument h.isPart ha

/-- The naming `n` explains how `l` comes from `s`. -/
structure IsLinearization (strict : Bool) (s l : EquationSet) (n : Naming) : Prop where
  grows : Naming.Grows s.vars (s.startNaming strict) n
  get?_eq : ∀ name, l.get? name = ((s.get? name).map (n.linear strict name)).or (n.fresh.get? name)
  isRightHandSide : ∀ name rhs, s.get? name = some rhs →
    n.IsRightHandSide s.vars (n.linear strict name rhs)
  isVariable : ∀ name rhs, s.get? name = some rhs → keepsRoot strict name rhs = false →
    (n.linear strict name rhs).isVariable = true
  traced : n.Traced s.vars (s.IsNamedPart strict)

theorem exists_isLinearization (h : s.linearize strict = .ok l) :
    ∃ n, IsLinearization strict s l n := by
  obtain ⟨⟨entries, n⟩, hrun, hl⟩ := bind_eq_ok_iff.mp h
  obtain ⟨hgrows, hright, hlin, htraced⟩ := Naming.linearizeEquations_spec hereditary_isNamedPart
    (fun e he => ⟨fun a ha => .argument (.whole (SortedMap.get?_of_mem he)) ha,
      .root (SortedMap.get?_of_mem he)⟩)
    (fun e he v hv => mem_vars_of_mem_dependencies (SortedMap.get?_of_mem he) hv)
    namesKnown_startNaming hrun
  have hsound := hgrows.isSound isSound_startNaming
  have hentries := hlin n .refl
  have hvars := forall₂_of_stateMapM (R := fun e r => keepsRoot strict e.1 e.2 = false →
    r.2.isVariable = true) (fun _ _ _ _ hrun hkeep =>
      Naming.isVariable_of_linearizeEquation hkeep hrun) hrun
  rw [← hentries, List.forall₂_map_right_iff, List.forall₂_same] at hvars
  refine ⟨n, hgrows, fun name => ?_, fun name rhs hrhs => ?_, fun name rhs hrhs hkeep => ?_,
    htraced nofun⟩
  · rw [← Except.ok.inj hl, ← hentries, SortedMap.ofList_map_values (n.linear strict) s,
      SortedMap.get?_insertAll n.fresh.nodup_keys, SortedMap.lookup_toList,
      SortedMap.get?_mapValues]
    cases hfresh : n.fresh.get? name with
    | none => rw [Option.none_or, Option.or_none]
    | some t =>
      have hnone : s.get? name = none := by
        by_contra hsome
        obtain ⟨rhs, hrhs⟩ := Option.ne_none_iff_exists'.mp hsome
        exact hsound.not_used name t hfresh (mem_vars_of_get? hrhs)
      rw [hnone]
      rfl
  · rw [SortedMap.get?_eq_some_iff] at hrhs
    refine hright (name, n.linear strict name rhs) ?_
    rw [← hentries]
    exact List.mem_map.mpr ⟨(name, rhs), hrhs, rfl⟩
  · exact hvars (name, rhs) (SortedMap.get?_eq_some_iff.mp hrhs) hkeep

namespace IsLinearization

variable {n : Naming} (h : IsLinearization strict s l n)
include h

theorem isSound : n.IsSound s.vars (s.statedNames strict) :=
  h.grows.isSound isSound_startNaming

theorem get?_of_get? {name : Atom} {rhs : Term} (hrhs : s.get? name = some rhs) :
    l.get? name = some (n.linear strict name rhs) := by
  rw [h.get?_eq, hrhs]
  rfl

theorem get?_of_fresh {name : Atom} {t : Term} (ht : n.fresh.get? name = some t) :
    l.get? name = some t := by
  have hnone : s.get? name = none := by
    by_contra hsome
    obtain ⟨rhs, hrhs⟩ := Option.ne_none_iff_exists'.mp hsome
    exact h.isSound.not_used name t ht (mem_vars_of_get? hrhs)
  rw [h.get?_eq, hnone, ht]
  rfl

/-- An equation of the linear form is one of the source or a fresh one. -/
theorem get?_cases {name : Atom} {t : Term} (ht : l.get? name = some t) :
    (∃ rhs, s.get? name = some rhs ∧ t = n.linear strict name rhs) ∨
      n.fresh.get? name = some t := by
  rw [h.get?_eq, Option.or_eq_some_iff, Option.map_eq_some_iff] at ht
  rcases ht with ⟨rhs, hrhs, rfl⟩ | ⟨-, ht⟩
  · exact .inl ⟨rhs, hrhs, rfl⟩
  · exact .inr ht

/-- A name that is no variable of the source is a fresh one. -/
theorem fresh_of_not_mem {name : Atom} {t : Term} (hname : name ∉ s.vars)
    (ht : l.get? name = some t) : n.fresh.get? name = some t := by
  refine (h.get?_cases ht).resolve_left ?_
  rintro ⟨rhs, hrhs, -⟩
  exact hname (mem_vars_of_get? hrhs)

/-- Every right-hand side is flat. -/
theorem isFlat {name : Atom} {t : Term} (ht : l.get? name = some t) : t.isFlat = true := by
  rcases h.get?_cases ht with ⟨rhs, hrhs, rfl⟩ | hfresh
  · exact (h.isRightHandSide name rhs hrhs).isFlat
  · exact (h.isSound.isLinear name t hfresh).isFlat

/-- The name of an application is bound to it. -/
theorem get?_of_lookup {name : Atom} {t : Term} (ht : n.names.lookup t = some name) :
    l.get? name = some t ∧ t.isCompound = true ∧ t.isFlat = true := by
  rcases h.isSound.stated_or_fresh t name ht with hstated | hfresh
  · obtain ⟨hget, hcompound, hflat, hkeeps⟩ := stated_of_lookup hstated
    refine ⟨?_, hcompound, hflat⟩
    rw [h.get?_of_get? hget, Naming.linear, hkeeps, Term.replace_eq, Bool.not_true,
      if_neg Bool.false_ne_true, n.map_replace_of_isFlat hflat]
  · obtain ⟨hcompound, hflat, -⟩ := h.isSound.isLinear name t hfresh
    exact ⟨h.get?_of_fresh hfresh, hcompound, hflat⟩

/-- A variable of the linear form is one of the source or a fresh name. -/
theorem knows_of_mem_vars {v : Atom} (hv : v ∈ l.vars) : n.Knows s.vars v := by
  rcases mem_vars.mp hv with hkey | ⟨u, hu⟩
  · obtain ⟨t, ht⟩ := SortedMap.mem_keys_iff.mp hkey
    rcases h.get?_cases ht with ⟨rhs, hrhs, -⟩ | ht
    · exact .inl (mem_vars_of_get? hrhs)
    · exact .inr (Option.isSome_iff_exists.mpr ⟨t, ht⟩)
  · obtain ⟨t, ht, hvt⟩ := mem_dependencyGraph.mp hu
    rcases h.get?_cases (SortedMap.get?_eq_some_iff.mpr ht) with ⟨rhs, hrhs, rfl⟩ | ht
    · exact (h.isRightHandSide u rhs hrhs).knows v (Term.mem_dependencies.mp hvt)
    · exact (h.isSound.isLinear u t ht).isRightHandSide.knows v (Term.mem_dependencies.mp hvt)

end IsLinearization

end EquationSet

end DiffAnalyzer
