import DiffAnalyzer.EquationSet.Basic
import DiffAnalyzer.Proofs.Failure
import DiffAnalyzer.Proofs.SortedMap
import Mathlib

/-!
# The calls of a replacing traversal

A replacing traversal calls a function for the nodes of the right-hand sides: in the order of the
bound names, arguments from left to right before the node that they belong to, and with the answers
in the place of the arguments.  `Becomes` says what becomes of a set under a list of such calls,
and `Answers` that these are the answers that the function gives one after another.

A traversal makes all of these calls and no others (`EquationSet.Completes`), or stops at the first
one that fails, whose error and state are its own (`EquationSet.Stops`).  With a function that
cannot fail the calls and the set are the same (`EquationSet.replaceM_calls`).
-/

namespace DiffAnalyzer

/-- A call of a function on terms: the node it is made for, what is passed and what is answered. -/
structure Call where
  node : Term
  argument : Term
  answer : Term

/-- The members of a list are worked off from left to right, each with calls of its own. -/
inductive InTurn {α β : Type} (R : α → List Call → β → Prop) : List α → List Call → List β → Prop
  | nil : InTurn R [] [] []
  | cons {a : α} {b : β} {l : List α} {m : List β} {calls rest : List Call} (first : R a calls b)
    (others : InTurn R l rest m) : InTurn R (a :: l) (calls ++ rest) (b :: m)

/-- What becomes of an argument: there is a call for each node, after those for its arguments, and
what is passed has their answers for arguments. -/
inductive Arg.Becomes : Arg → List Call → Arg → Prop
  | number (x : Number) : Becomes (.number x) [] (.number x)
  | node {head : Atom} {tail tail' : List Arg} {calls : List Call}
    (inside : InTurn Becomes tail calls tail') (answer : Term) :
    Becomes (.node head tail) (calls ++ [⟨⟨head, tail⟩, ⟨head, tail'⟩, answer⟩]) answer.toArg

/-- What becomes of an application: there is a call for the root, the last one, if it is replaced
too. -/
inductive Term.Becomes : (root : Bool) → Term → List Call → Term → Prop
  | below {head : Atom} {tail tail' : List Arg} {calls : List Call}
    (inside : InTurn Arg.Becomes tail calls tail') :
    Becomes false ⟨head, tail⟩ calls ⟨head, tail'⟩
  | whole {head : Atom} {tail tail' : List Arg} {calls : List Call}
    (inside : InTurn Arg.Becomes tail calls tail') (answer : Term) :
    Becomes true ⟨head, tail⟩ (calls ++ [⟨⟨head, tail⟩, ⟨head, tail'⟩, answer⟩]) answer

namespace EquationSet

/-- What becomes of an equation: there is one call for a bare variable. -/
inductive EquationBecomes (root : Bool) : Atom × Term → List Call → Atom × Term → Prop
  | bare (name v : Atom) (answer : Term) :
    EquationBecomes root (name, .var v) [⟨.var v, .var v, answer⟩] (name, answer)
  | application {name : Atom} {t t' : Term} {calls : List Call} (compound : t.isCompound = true)
    (h : t.Becomes root calls t') : EquationBecomes root (name, t) calls (name, t')

/-- What becomes of a set, equation by equation. -/
def Becomes (root : Bool) (s : EquationSet) (calls : List Call) (t : EquationSet) : Prop :=
  InTurn (EquationBecomes root) s.toList calls t.toList

end EquationSet

section Nodes

mutual

/-- The nodes of an argument, arguments before the node they belong to. -/
def Arg.nodes : Arg → List Term
  | .number _ => []
  | .node head tail => Arg.nodesList tail ++ [⟨head, tail⟩]

def Arg.nodesList : List Arg → List Term
  | [] => []
  | a :: rest => a.nodes ++ Arg.nodesList rest

end

/-- The nodes below the root, and the root if asked for. -/
def Term.nodes (root : Bool) (t : Term) : List Term :=
  Arg.nodesList t.tail ++ if root then [t] else []

/-- The nodes of all right-hand sides, in the order of the names. -/
def EquationSet.nodes (root : Bool) (s : EquationSet) : List Term :=
  s.toList.flatMap fun e => if e.2.isVariable then [e.2] else e.2.nodes root

theorem Arg.nodesList_eq_flatMap (args : List Arg) :
    Arg.nodesList args = args.flatMap Arg.nodes := by
  induction args with
  | nil => rfl
  | cons a rest ih => rw [nodesList, ih, List.flatMap_cons]

theorem InTurn.map_node {α β : Type} {R : α → List Call → β → Prop} {l : List α} {m : List β}
    {calls : List Call} {nodes : α → List Term} (h : InTurn R l calls m)
    (hnodes : ∀ a ∈ l, ∀ calls b, R a calls b → calls.map Call.node = nodes a) :
    calls.map Call.node = l.flatMap nodes := by
  induction h with
  | nil => rfl
  | cons first others ih =>
    rw [List.map_append, List.flatMap_cons, hnodes _ List.mem_cons_self _ _ first,
      ih fun a ha => hnodes a (List.mem_cons_of_mem _ ha)]

theorem Arg.Becomes.map_node {a b : Arg} {calls : List Call} (h : a.Becomes calls b) :
    calls.map Call.node = a.nodes := by
  induction a using Arg.induct generalizing calls b with
  | number x =>
    cases h
    rfl
  | node head tail ih =>
    cases h with
    | node inside answer =>
      rw [List.map_append, inside.map_node fun a ha _ _ h => ih a ha h,
        ← Arg.nodesList_eq_flatMap]
      rfl

theorem Term.Becomes.map_node {root : Bool} {t t' : Term} {calls : List Call}
    (h : t.Becomes root calls t') : calls.map Call.node = t.nodes root := by
  have hinside {tail tail' : List Arg} {calls : List Call}
      (inside : InTurn Arg.Becomes tail calls tail') :
      calls.map Call.node = Arg.nodesList tail :=
    (inside.map_node fun _ _ _ _ h => h.map_node).trans (Arg.nodesList_eq_flatMap tail).symm
  cases h with
  | below inside => exact (hinside inside).trans (List.append_nil _).symm
  | whole inside answer =>
    rw [List.map_append, hinside inside]
    rfl

/-- There is one call for each node, in their order. -/
theorem EquationSet.Becomes.map_node {root : Bool} {s t : EquationSet} {calls : List Call}
    (h : s.Becomes root calls t) : calls.map Call.node = s.nodes root := by
  refine InTurn.map_node h fun e _ calls e' he => ?_
  cases he with
  | bare name v answer => rfl
  | application compound h =>
    rw [if_neg (by simpa [Term.isCompound] using compound)]
    exact h.map_node

end Nodes

variable {ε σ α β : Type} {f : Term → ExceptT ε (StateM σ) Term}

/-- The function gives the answers one after another, each in the state that the one before has
left. -/
inductive Answers (f : Term → ExceptT ε (StateM σ) Term) : σ → List Call → σ → Prop
  | nil (x : σ) : Answers f x [] x
  | cons {x y z : σ} {c : Call} {calls : List Call} (h : (f c.argument).run x = (.ok c.answer, y))
    (rest : Answers f y calls z) : Answers f x (c :: calls) z

theorem Answers.append {x y z : σ} {calls rest : List Call} (h : Answers f x calls y)
    (hrest : Answers f y rest z) : Answers f x (calls ++ rest) z := by
  induction h with
  | nil => exact hrest
  | cons h _ ih => exact .cons h (ih hrest)

/-- Log the term that a call is made for, whatever the call answers. -/
def logged (t : Term) (m : StateM σ α) : StateM (σ × List Term) α := fun x =>
  ((m x.1).1, (m x.1).2, x.2 ++ [t])

/-- The function with a log of what has been passed to it. -/
def withLog (f : Term → ExceptT ε (StateM σ) Term) (t : Term) :
    ExceptT ε (StateM (σ × List Term)) Term :=
  ExceptT.mk (logged t (f t).run)

/-- How a computation uses a function, where `R calls b` says that `b` may come of the calls: they
are all made and answered, or the first that fails is the last one made.  The second computation is
the one that uses the function with a log. -/
structure Follows (f : Term → ExceptT ε (StateM σ) Term) (R : List Call → β → Prop)
    (m : ExceptT ε (StateM σ) β) (n : ExceptT ε (StateM (σ × List Term)) β) : Prop where
  possible : ∃ calls b, R calls b
  run : ∀ x log,
    (∃ calls y b, R calls b ∧ Answers f x calls y ∧ m.run x = (.ok b, y) ∧
      n.run (x, log) = (.ok b, y, log ++ calls.map Call.argument)) ∨
    ∃ calls y c rest b e z, R (calls ++ c :: rest) b ∧ Answers f x calls y ∧
      (f c.argument).run y = (.error e, z) ∧ m.run x = (.error e, z) ∧
      n.run (x, log) = (.error e, z, log ++ (calls ++ [c]).map Call.argument)

namespace Follows

variable {m : ExceptT ε (StateM σ) α} {n : ExceptT ε (StateM (σ × List Term)) α}

theorem pure (b : β) : Follows f (fun calls b' => calls = [] ∧ b' = b) (Pure.pure b)
    (Pure.pure b) where
  possible := ⟨[], b, rfl, rfl⟩
  run x log := .inl ⟨[], x, b, ⟨rfl, rfl⟩, .nil x, rfl, by rw [List.map_nil, List.append_nil]; rfl⟩

theorem call (f : Term → ExceptT ε (StateM σ) Term) (node t : Term) :
    Follows f (fun calls answer => calls = [⟨node, t, answer⟩]) (f t) (withLog f t) where
  possible := ⟨[⟨node, t, t⟩], t, rfl⟩
  run x log := by
    have hlog : (withLog f t).run (x, log) = (((f t).run x).1, ((f t).run x).2, log ++ [t]) := rfl
    rw [hlog]
    cases h : (f t).run x with
    | mk outcome y =>
      cases outcome with
      | ok answer => exact .inl ⟨_, y, answer, rfl, .cons h (.nil y), rfl, rfl⟩
      | error e => exact .inr ⟨[], x, ⟨node, t, t⟩, [], t, e, y, rfl, .nil x, h, rfl, rfl⟩

/-- The calls of the second computation come after those of the first. -/
theorem bind {R : List Call → α → Prop} {S : α → List Call → β → Prop}
    {k : α → ExceptT ε (StateM σ) β} {l : α → ExceptT ε (StateM (σ × List Term)) β}
    (hm : Follows f R m n) (hk : ∀ a, Follows f (S a) (k a) (l a)) :
    Follows f (fun calls b => ∃ first a rest, R first a ∧ S a rest b ∧ calls = first ++ rest)
      (m >>= k) (n >>= l) where
  possible := by
    obtain ⟨first, a, hfirst⟩ := hm.possible
    obtain ⟨rest, b, hrest⟩ := (hk a).possible
    exact ⟨first ++ rest, b, first, a, rest, hfirst, hrest, rfl⟩
  run x log := by
    rw [run_bind_eq, run_bind_eq]
    rcases hm.run x log with ⟨first, y, a, hR, hfirst, hrun, hlog⟩ |
      ⟨first, y, c, rest, a, e, z, hR, hfirst, hc, hrun, hlog⟩
    · rw [hrun, hlog]
      rcases (hk a).run y (log ++ first.map Call.argument) with
        ⟨rest, z, b, hS, hrest, hrun', hlog'⟩ |
        ⟨calls, y', c, rest, b, e, z, hS, hcalls, hc, hrun', hlog'⟩
      · refine .inl ⟨first ++ rest, z, b, ⟨first, a, rest, hR, hS, rfl⟩, hfirst.append hrest,
          hrun', ?_⟩
        rw [List.map_append, ← List.append_assoc]
        exact hlog'
      · refine .inr ⟨first ++ calls, y', c, rest, b, e, z,
          ⟨first, a, calls ++ c :: rest, hR, hS, List.append_assoc ..⟩, hfirst.append hcalls, hc,
          hrun', ?_⟩
        rw [List.append_assoc first, List.map_append, ← List.append_assoc]
        exact hlog'
    · -- The first computation has failed; the second one could have ended somehow.
      rw [hrun, hlog]
      obtain ⟨calls, b, hS⟩ := (hk a).possible
      exact .inr ⟨first, y, c, rest ++ calls, b, e, z,
        ⟨first ++ c :: rest, a, calls, hR, hS, by rw [List.append_assoc, List.cons_append]⟩,
        hfirst, hc, rfl, rfl⟩

theorem imp {R S : List Call → α → Prop} (hm : Follows f R m n)
    (h : ∀ calls b, R calls b → S calls b) : Follows f S m n where
  possible := by
    obtain ⟨calls, b, hR⟩ := hm.possible
    exact ⟨calls, b, h calls b hR⟩
  run x log := by
    rcases hm.run x log with ⟨calls, y, b, hR, hrest⟩ | ⟨calls, y, c, rest, b, e, z, hR, hrest⟩
    · exact .inl ⟨calls, y, b, h _ _ hR, hrest⟩
    · exact .inr ⟨calls, y, c, rest, b, e, z, h _ _ hR, hrest⟩

theorem mapM {R : α → List Call → β → Prop} {k : α → ExceptT ε (StateM σ) β}
    {k' : α → ExceptT ε (StateM (σ × List Term)) β} {l : List α}
    (h : ∀ a ∈ l, Follows f (R a) (k a) (k' a)) :
    Follows f (InTurn R l) (l.mapM k) (l.mapM k') := by
  induction l with
  | nil =>
    refine (Follows.pure []).imp ?_
    rintro _ _ ⟨rfl, rfl⟩
    exact .nil
  | cons a l ih =>
    rw [List.mapM_cons, List.mapM_cons]
    have hl := ih fun b hb => h b (List.mem_cons_of_mem _ hb)
    refine ((h a List.mem_cons_self).bind fun b => hl.bind fun m => .pure (b :: m)).imp ?_
    rintro _ _ ⟨first, b, _, hfirst, ⟨rest, m, _, hrest, ⟨rfl, rfl⟩, rfl⟩, rfl⟩
    rw [List.append_nil]
    exact .cons hfirst hrest

end Follows

section Traversals

theorem Arg.replaceListM_eq_mapM {m : Type → Type} [Monad m] [LawfulMonad m]
    (g : Term → m Term) (args : List Arg) :
    Arg.replaceListM g args = args.mapM (Arg.replaceM g) := by
  induction args with
  | nil => rfl
  | cons a rest ih =>
    rw [List.mapM_cons, ← ih]
    rfl

theorem Arg.follows_replaceM (f : Term → ExceptT ε (StateM σ) Term) (a : Arg) :
    Follows f a.Becomes (a.replaceM f) (a.replaceM (withLog f)) := by
  induction a using Arg.induct with
  | number x =>
    refine (Follows.pure (Arg.number x)).imp ?_
    rintro _ _ ⟨rfl, rfl⟩
    exact .number x
  | node head tail ih =>
    rw [Arg.replaceM, Arg.replaceM, Arg.replaceListM_eq_mapM, Arg.replaceListM_eq_mapM]
    refine ((Follows.mapM ih).bind fun tail' =>
      (Follows.call f ⟨head, tail⟩ ⟨head, tail'⟩).bind fun t => .pure t.toArg).imp ?_
    rintro _ _ ⟨calls, tail', _, hinside, ⟨_, answer, _, rfl, ⟨rfl, rfl⟩, rfl⟩, rfl⟩
    exact .node hinside answer

theorem Term.follows_replaceM (f : Term → ExceptT ε (StateM σ) Term) (root : Bool) (t : Term) :
    Follows f (t.Becomes root) (t.replaceM f root) (t.replaceM (withLog f) root) := by
  have htail : Follows f (InTurn Arg.Becomes t.tail) (Arg.replaceListM f t.tail)
      (Arg.replaceListM (withLog f) t.tail) := by
    rw [Arg.replaceListM_eq_mapM, Arg.replaceListM_eq_mapM]
    exact Follows.mapM fun a _ => a.follows_replaceM f
  cases root with
  | false =>
    refine (htail.bind fun tail => .pure (⟨t.head, tail⟩ : Term)).imp ?_
    rintro _ _ ⟨calls, tail, _, hinside, ⟨rfl, rfl⟩, rfl⟩
    rw [List.append_nil]
    exact .below hinside
  | true =>
    refine (htail.bind fun tail => .call f t ⟨t.head, tail⟩).imp ?_
    rintro _ _ ⟨calls, tail, _, hinside, rfl, rfl⟩
    exact .whole hinside _

end Traversals

namespace EquationSet

variable {s : EquationSet} {root : Bool}

theorem EquationBecomes.fst_eq {e e' : Atom × Term} {calls : List Call}
    (h : EquationBecomes root e calls e') : e'.1 = e.1 := by
  cases h with
  | bare => rfl
  | application => rfl

/-- The names stay, so what becomes of the entries is the list of the new entries. -/
theorem toList_ofList_of_inTurn {entries : List (Atom × Term)} {calls : List Call}
    (h : InTurn (EquationBecomes root) s.toList calls entries) :
    (SortedMap.ofList entries).toList = entries := by
  have hkeys : entries.map Prod.fst = s.toList.map Prod.fst := by
    generalize s.toList = l at h
    induction h with
    | nil => rfl
    | cons first _ ih => rw [List.map_cons, List.map_cons, first.fst_eq, ih]
  have hsorted : (entries.map Prod.fst).Pairwise fun a b => compare a b = .lt := by
    rw [hkeys, List.pairwise_map]
    exact s.sorted
  exact congrArg SortedMap.toList (SortedMap.ofList_toList ⟨entries, List.pairwise_map.mp hsorted⟩)

theorem follows_replaceM (f : Term → ExceptT ε (StateM σ) Term) (root : Bool) (s : EquationSet) :
    Follows f (s.Becomes root) (s.replaceM f root) (s.replaceM (withLog f) root) := by
  have hequation (e : Atom × Term) : Follows f (EquationBecomes root e)
      (do
        let rhs ← if e.2.isVariable then f e.2 else e.2.replaceM f root
        pure (e.1, rhs))
      (do
        let rhs ← if e.2.isVariable then withLog f e.2 else e.2.replaceM (withLog f) root
        pure (e.1, rhs)) := by
    obtain ⟨name, t⟩ := e
    by_cases hvar : t.isVariable = true
    · rw [if_pos hvar, if_pos hvar, Term.eq_var_of_isVariable hvar]
      refine ((Follows.call f (.var t.head) (.var t.head)).bind fun rhs => .pure (name, rhs)).imp ?_
      rintro _ _ ⟨_, answer, _, rfl, ⟨rfl, rfl⟩, rfl⟩
      exact .bare name t.head answer
    · rw [if_neg hvar, if_neg hvar]
      refine ((t.follows_replaceM f root).bind fun rhs => .pure (name, rhs)).imp ?_
      rintro _ _ ⟨calls, rhs, _, h, ⟨rfl, rfl⟩, rfl⟩
      rw [List.append_nil]
      exact .application (by simpa [Term.isCompound] using hvar) h
  refine ((Follows.mapM fun e _ => hequation e).bind fun entries =>
    .pure (SortedMap.ofList entries)).imp ?_
  rintro _ _ ⟨calls, entries, _, h, ⟨rfl, rfl⟩, rfl⟩
  rw [List.append_nil, Becomes, toList_ofList_of_inTurn h]
  exact h

end EquationSet

section Infallible

variable {g : Term → StateM σ Term}

theorem run_lift_eq (m : StateM σ α) (x : σ) :
    (ExceptT.lift m : ExceptT ε (StateM σ) α).run x = (.ok (m x).1, (m x).2) := rfl

theorem run_eq_of_lift {m : StateM σ α} {x y : σ} {a : α}
    (h : (ExceptT.lift m : ExceptT ε (StateM σ) α).run x = (.ok a, y)) : m.run x = (a, y) := by
  rw [run_lift_eq, Prod.mk.injEq, Except.ok.injEq] at h
  exact Prod.ext h.1 h.2

theorem lift_bind (m : StateM σ α) (k : α → StateM σ β) :
    (ExceptT.lift (m >>= k) : ExceptT ε (StateM σ) β) =
      ExceptT.lift m >>= fun a => ExceptT.lift (k a) := rfl

theorem lift_mapM {h : α → StateM σ β} {h' : α → ExceptT ε (StateM σ) β} {l : List α}
    (hl : ∀ a ∈ l, h' a = ExceptT.lift (h a)) : l.mapM h' = ExceptT.lift (l.mapM h) := by
  induction l with
  | nil => rfl
  | cons a l ih =>
    rw [List.mapM_cons, List.mapM_cons, lift_bind, hl a List.mem_cons_self,
      ih fun b hb => hl b (List.mem_cons_of_mem _ hb)]
    rfl

theorem Arg.replaceM_lift (a : Arg) :
    a.replaceM (fun t => (ExceptT.lift (g t) : ExceptT ε (StateM σ) Term)) =
      ExceptT.lift (a.replaceM g) := by
  induction a using Arg.induct with
  | number x => rfl
  | node head tail ih =>
    rw [Arg.replaceM, Arg.replaceM, Arg.replaceListM_eq_mapM, Arg.replaceListM_eq_mapM,
      lift_mapM ih]
    rfl

theorem Term.replaceM_lift (root : Bool) (t : Term) :
    t.replaceM (fun t => (ExceptT.lift (g t) : ExceptT ε (StateM σ) Term)) root =
      ExceptT.lift (t.replaceM g root) := by
  rw [Term.replaceM, Term.replaceM, Arg.replaceListM_eq_mapM, Arg.replaceListM_eq_mapM,
    lift_mapM fun a _ => a.replaceM_lift]
  cases root with
  | false => rfl
  | true => rfl

theorem Term.replaceState_eq (root : Bool) (t : Term) :
    t.replaceState g root = t.replaceM g root := by
  rw [Term.replaceState, Term.replaceM_lift]
  rfl

/-- A function that cannot fail is called alike, and the set that comes out is the same. -/
theorem EquationSet.replaceM_lift (root : Bool) (s : EquationSet) :
    s.replaceM (fun t => (ExceptT.lift (g t) : ExceptT ε (StateM σ) Term)) root =
      ExceptT.lift (s.replaceState g root) := by
  have hequation (e : Atom × Term) :
      (do
        let rhs ← if e.2.isVariable then ExceptT.lift (g e.2)
          else e.2.replaceM (fun t => ExceptT.lift (g t)) root
        pure (e.1, rhs) : ExceptT ε (StateM σ) (Atom × Term)) =
      ExceptT.lift (Prod.mk e.1 <$> if e.2.isVariable then g e.2 else e.2.replaceState g root) := by
    rw [Term.replaceState_eq]
    by_cases hvar : e.2.isVariable = true
    · rw [if_pos hvar, if_pos hvar]
      rfl
    · rw [if_neg hvar, if_neg hvar, Term.replaceM_lift]
      rfl
  rw [EquationSet.replaceM, EquationSet.replaceState, lift_mapM fun e _ => hequation e]
  rfl

end Infallible

namespace EquationSet

/-- The traversal makes these calls, one for each node, and gives what becomes of the set. -/
structure Completes (s : EquationSet) (root : Bool) (f : Term → ExceptT ε (StateM σ) Term) (x : σ)
    (calls : List Call) (t : EquationSet) (y : σ) : Prop where
  becomes : s.Becomes root calls t
  nodes : calls.map Call.node = s.nodes root
  answers : Answers f x calls y
  run : (s.replaceM f root).run x = (.ok t, y)
  log : (s.replaceM (withLog f) root).run (x, []) = (.ok t, y, calls.map Call.argument)

/-- The traversal makes these calls for the first nodes and then the one that fails, and no more:
the error and the state are those of that call. -/
structure Stops (s : EquationSet) (root : Bool) (f : Term → ExceptT ε (StateM σ) Term) (x : σ)
    (calls : List Call) (failing : Call) (e : ε) (z : σ) : Prop where
  becomes : ∃ rest t, s.Becomes root (calls ++ failing :: rest) t ∧
    (calls ++ failing :: rest).map Call.node = s.nodes root
  answers : ∃ y, Answers f x calls y ∧ (f failing.argument).run y = (.error e, z)
  run : (s.replaceM f root).run x = (.error e, z)
  log : (s.replaceM (withLog f) root).run (x, []) =
    (.error e, z, (calls ++ [failing]).map Call.argument)

/-- A replacing traversal calls its function for each node in turn, or until the first call that
fails.  With a function that cannot fail it comes to its end, and the traversal for such functions
makes the same calls and gives the same set. -/
theorem replaceM_calls (s : EquationSet) (root : Bool) (f : Term → ExceptT ε (StateM σ) Term)
    (g : Term → StateM σ Term) (x : σ) :
    ((∃ calls t y, s.Completes root f x calls t y) ∨
      ∃ calls failing e z, s.Stops root f x calls failing e z) ∧
    ∃ calls t y,
      s.Completes root (fun u => (ExceptT.lift (g u) : ExceptT ε (StateM σ) Term)) x calls t y ∧
      (s.replaceState g root).run x = (t, y) ∧
      (s.replaceState (fun u => logged u (g u)) root).run (x, []) =
        (t, y, calls.map Call.argument) := by
  refine ⟨?_, ?_⟩
  · rcases (follows_replaceM f root s).run x [] with ⟨calls, y, t, h, hanswers, hrun, hlog⟩ |
      ⟨calls, y, c, rest, t, e, z, h, hanswers, hc, hrun, hlog⟩
    · exact .inl ⟨calls, t, y, h, h.map_node, hanswers, hrun, hlog⟩
    · exact .inr ⟨calls, c, e, z, ⟨rest, t, h, h.map_node⟩, ⟨y, hanswers, hc⟩, hrun, hlog⟩
  · rcases (follows_replaceM (fun u => (ExceptT.lift (g u) : ExceptT ε (StateM σ) Term))
      root s).run x [] with ⟨calls, y, t, h, hanswers, hrun, hlog⟩ |
        ⟨calls, y, c, rest, t, e, z, -, -, hc, -, -⟩
    · refine ⟨calls, t, y, ⟨h, h.map_node, hanswers, hrun, hlog⟩, ?_, ?_⟩
      · exact run_eq_of_lift (replaceM_lift root s ▸ hrun)
      · exact run_eq_of_lift (replaceM_lift (g := fun u => logged u (g u)) root s ▸ hlog)
    · -- A lifted call always answers.
      rw [run_lift_eq] at hc
      cases hc

end EquationSet

end DiffAnalyzer
