import DiffAnalyzer.Proofs.Failure
import DiffAnalyzer.Proofs.NumberText
import DiffAnalyzer.Proofs.SortedMap
import DiffAnalyzer.Simulation.RunOptions
import Mathlib

/-!
# Arguments in any order

An argument is a variable to write, or its key names one thing that it sets (`Setting`).  Different
keys set different things, and whether an argument is accepted is up to the argument alone.  So
after a list of arguments each setting has the value that its key had last
(`RunOptions.get?_of_foldlM`), and arguments with different keys may change places
(`RunOptions.ofArguments_perm`).
-/

namespace DiffAnalyzer

section Splitting

variable {c : Char} {front rest text : List Char}

theorem splitFirst?_of_not_mem (h : c ∉ text) : splitFirst? c text = none := by
  have hdrop : text.dropWhile (· != c) = [] := by
    rw [List.dropWhile_eq_nil_iff]
    rintro d hd
    simpa using fun heq : d = c => h (heq ▸ hd)
  rw [splitFirst?, hdrop]

theorem splitFirst?_append (h : c ∉ front) :
    splitFirst? c (front ++ c :: rest) = some (front, rest) := by
  have hfront : ∀ d ∈ front, (d != c) = true := by
    rintro d hd
    simpa using fun heq : d = c => h (heq ▸ hd)
  have hrest : ∀ d ∈ (c :: rest).head?, (d != c) = false := by
    rintro _ ⟨⟩
    simp
  obtain ⟨htake, hdrop⟩ := takeWhile_dropWhile_append hfront hrest
  rw [splitFirst?, hdrop, htake]

/-- What is split is put together by the character. -/
theorem eq_of_splitFirst? (h : splitFirst? c text = some (front, rest)) :
    text = front ++ c :: rest := by
  by_cases hmem : c ∈ text
  · obtain ⟨before, after, rfl, hbefore⟩ := List.eq_append_cons_of_mem hmem
    rw [splitFirst?_append hbefore] at h
    cases h
    rfl
  · rw [splitFirst?_of_not_mem hmem] at h
    cases h

end Splitting

/-- What an argument with a key sets. -/
inductive Setting where
  | maxIterations
  | stride
  | order
  | initialRow
  | freshAuxiliaries
  | binary
  | listVariables
  | initial (name : String)
  | step (name : String)
  | constant (name : String)
deriving DecidableEq

namespace Setting

/-- How a key starts, or all of it if it has no name. -/
def kind : Setting → String
  | maxIterations => "max_iterations"
  | stride => "modulo_write"
  | order => "rk_order"
  | initialRow => "write_initial_conditions"
  | freshAuxiliaries => "always_compute_aux_before_printing"
  | binary => "binary_output"
  | listVariables => "list_all_variables"
  | initial _ => "ic"
  | step _ => "dt"
  | constant _ => "const"

def name? : Setting → Option String
  | initial name | step name | constant name => some name
  | _ => none

/-- The key of the arguments for a setting. -/
def key (d : Setting) : List Char :=
  match d.name? with
  | none => d.kind.toList
  | some name => d.kind.toList ++ ':' :: name.toList

@[reducible]
def Value : Setting → Type
  | maxIterations | stride | order => Nat
  | initialRow | freshAuxiliaries | binary | listVariables => Bool
  | initial _ | step _ | constant _ => Number

/-- The value of a setting that a text stands for. -/
def read? : (d : Setting) → List Char → Option d.Value
  | maxIterations | stride => unsigned? (1 <<< 64)
  | order => unsigned? (1 <<< 32)
  | initialRow | freshAuxiliaries | binary | listVariables => flag?
  | initial _ | step _ | constant _ => Number.ofText?

/-- What is wrong with a text that stands for no value of the setting. -/
def fault : Setting → String → String → ArgumentError
  | initialRow | freshAuxiliaries | binary | listVariables => .notBoolean
  | _ => .notNumber

theorem eq_of_kind_eq {d e : Setting} (hkind : d.kind = e.kind) (hname : d.name? = e.name?) :
    d = e := by
  cases d <;> cases e <;> simp_all [kind, name?]

theorem not_mem_kind (d : Setting) : ':' ∉ d.kind.toList := by
  cases d <;> simp [kind]

theorem splitFirst?_key (d : Setting) :
    splitFirst? ':' d.key = d.name?.map fun name => (d.kind.toList, name.toList) := by
  unfold key
  cases d.name? with
  | none => exact splitFirst?_of_not_mem d.not_mem_kind
  | some name => exact splitFirst?_append d.not_mem_kind

/-- Different settings have different keys. -/
theorem key_injective {d e : Setting} (h : d.key = e.key) : d = e := by
  have hsplit := congrArg (splitFirst? ':') h
  rw [splitFirst?_key, splitFirst?_key] at hsplit
  unfold key at h
  cases hd : d.name? with
  | none =>
    cases he : e.name? with
    | none =>
      rw [hd, he] at h
      exact eq_of_kind_eq (String.toList_injective h) (hd.trans he.symm)
    | some name =>
      rw [hd, he] at hsplit
      cases hsplit
  | some name =>
    cases he : e.name? with
    | none =>
      rw [hd, he] at hsplit
      cases hsplit
    | some other =>
      rw [hd, he, Option.map_some, Option.map_some, Option.some.injEq, Prod.mk.injEq] at hsplit
      refine eq_of_kind_eq (String.toList_injective hsplit.1) ?_
      rw [hd, he, String.toList_injective hsplit.2]

end Setting

namespace RunOptions

variable {o o' : RunOptions} {d e : Setting} {arg : String} {args args' : List String}
  {key : List Char}

section Settings

/-- The value of a setting.  Overrides need not have one. -/
def get? (o : RunOptions) : (d : Setting) → Option d.Value
  | .maxIterations => some o.maxIterations
  | .stride => some o.stride
  | .order => some o.order
  | .initialRow => some o.initialRow
  | .freshAuxiliaries => some o.freshAuxiliaries
  | .binary => some o.binary
  | .listVariables => some o.listVariables
  | .initial name => o.initial.get? name
  | .step name => o.steps.get? name
  | .constant name => o.constants.get? name

def put (o : RunOptions) : (d : Setting) → d.Value → RunOptions
  | .maxIterations, n => { o with maxIterations := n }
  | .stride, n => { o with stride := n }
  | .order, n => { o with order := n }
  | .initialRow, b => { o with initialRow := b }
  | .freshAuxiliaries, b => { o with freshAuxiliaries := b }
  | .binary, b => { o with binary := b }
  | .listVariables, b => { o with listVariables := b }
  | .initial name, x => { o with initial := o.initial.insert name x }
  | .step name, x => { o with steps := o.steps.insert name x }
  | .constant name, x => { o with constants := o.constants.insert name x }

theorem get?_put_self (o : RunOptions) (d : Setting) (x : d.Value) :
    (o.put d x).get? d = some x := by
  cases d <;> simp [put, get?, SortedMap.get?_insert]

/-- A value that is set changes no other setting. -/
theorem get?_put_of_ne (o : RunOptions) (x : d.Value) (h : e ≠ d) :
    (o.put d x).get? e = o.get? e := by
  cases d <;> cases e <;> simp_all [put, get?, SortedMap.get?_insert]

theorem query_put (o : RunOptions) (d : Setting) (x : d.Value) : (o.put d x).query = o.query := by
  cases d <;> rfl

/-- Options are known by their settings and the variables to write. -/
theorem ext_get? (hquery : o.query = o'.query) (h : ∀ d, o.get? d = o'.get? d) : o = o' := by
  have hmap : ∀ m m' : SortedMap String Number, (∀ name, m.get? name = m'.get? name) → m = m' :=
    fun _ _ => SortedMap.ext_get?
  obtain ⟨_, _, _, _, _, _, _, _, _, _, _⟩ := o
  obtain ⟨_, _, _, _, _, _, _, _, _, _, _⟩ := o'
  rw [RunOptions.mk.injEq]
  exact ⟨Option.some.inj (h .maxIterations), Option.some.inj (h .stride),
    Option.some.inj (h .order), Option.some.inj (h .initialRow),
    Option.some.inj (h .freshAuxiliaries), Option.some.inj (h .binary),
    Option.some.inj (h .listVariables), hquery, hmap _ _ fun name => h (.initial name),
    hmap _ _ fun name => h (.step name), hmap _ _ fun name => h (.constant name)⟩

end Settings

section Arguments

/-- The key of an argument: the text between `--` and the first equals sign.  An argument that does
not start with `--` has none. -/
def keyOf? (arg : String) : Option (List Char) :=
  match arg.toList with
  | '-' :: '-' :: body => some (body.takeWhile (· != '='))
  | _ => none

/-- The text behind the first equals sign; without one the argument says `1`. -/
def valueText (arg : String) : List Char :=
  match arg.toList.dropWhile (· != '=') with
  | [] => ['1']
  | _ :: text => text

theorem addArgument_of_keyOf?_eq_none (h : keyOf? arg = none) :
    o.addArgument arg = .ok { o with query := o.query ++ [arg] } := by
  unfold keyOf? at h
  unfold addArgument
  split
  · rename_i body hbody
    rw [hbody] at h
    cases h
  · rfl

theorem addArgument_of_keyOf? (h : keyOf? arg = some key) :
    o.addArgument arg = (splitFirst? ':' key).elim (o.set arg key (valueText arg))
      fun parts => o.override arg parts.1 parts.2 (valueText arg) := by
  unfold keyOf? at h
  split at h
  · rename_i body hbody
    cases h
    have htext : valueText arg = ((splitFirst? '=' body).map Prod.snd).getD ['1'] := by
      rw [valueText, hbody, splitFirst?, List.dropWhile_cons_of_pos rfl,
        List.dropWhile_cons_of_pos rfl]
      cases body.dropWhile (· != '=') with
      | nil => rfl
      | cons c rest => rfl
    have hkey : body.takeWhile (· != '=') = ((splitFirst? '=' body).map Prod.fst).getD body := by
      have hwhole := List.takeWhile_append_dropWhile (p := (· != '=')) (l := body)
      rw [splitFirst?]
      cases hdrop : body.dropWhile (· != '=') with
      | nil =>
        rw [hdrop, List.append_nil] at hwhole
        exact hwhole
      | cons c rest => rfl
    rw [htext, hkey]
    unfold addArgument
    split
    · rename_i hbody'
      cases hbody.symm.trans hbody'
      cases splitFirst? '=' body with
      | none => cases h : splitFirst? ':' body <;> simp [h]
      | some parts => cases h : splitFirst? ':' parts.1 <;> simp [h]
    · rename_i hother
      exact absurd hbody (hother body)
  · cases h

/-- An argument for a setting sets it, unless its text stands for no value. -/
theorem addArgument_setting (h : keyOf? arg = some d.key) :
    o.addArgument arg = match d.read? (valueText arg) with
      | some x => .ok (o.put d x)
      | none => .error (d.fault arg (String.ofList (valueText arg))) := by
  have hset : o.addArgument arg = d.name?.elim (o.set arg d.kind.toList (valueText arg))
      fun name => o.override arg d.kind.toList name.toList (valueText arg) := by
    rw [addArgument_of_keyOf? h, Setting.splitFirst?_key, Setting.key]
    cases d.name? <;> rfl
  rw [hset]
  cases d with
  | maxIterations | stride =>
    dsimp only [Setting.name?, Setting.read?, Setting.kind, Option.elim_none]
    unfold set
    rw [String.ofList_toList]
    dsimp only
    cases unsigned? (1 <<< 64) (valueText arg) <;> rfl
  | order =>
    dsimp only [Setting.name?, Setting.read?, Setting.kind, Option.elim_none]
    unfold set
    rw [String.ofList_toList]
    dsimp only
    cases unsigned? (1 <<< 32) (valueText arg) <;> rfl
  | initialRow | freshAuxiliaries | binary | listVariables =>
    dsimp only [Setting.name?, Setting.read?, Setting.kind, Option.elim_none]
    unfold set
    rw [String.ofList_toList]
    dsimp only
    cases flag? (valueText arg) <;> rfl
  | initial name | step name | constant name =>
    dsimp only [Setting.name?, Setting.read?, Setting.kind, Option.elim_some]
    unfold override
    rw [String.ofList_toList, String.ofList_toList]
    cases Number.ofText? (valueText arg) <;> rfl

/-- There are no other keys. -/
theorem addArgument_of_ne_key (h : keyOf? arg = some key) (hkey : ∀ d : Setting, d.key ≠ key) :
    ∃ e, o.addArgument arg = .error e := by
  rw [addArgument_of_keyOf? h]
  cases hsplit : splitFirst? ':' key with
  | none =>
    have hkind : ∀ d : Setting, d.name? = none → String.ofList key ≠ d.kind := by
      intro d hd heq
      refine hkey d ?_
      rw [Setting.key, hd, ← heq, String.toList_ofList]
    rw [Option.elim_none]
    unfold set
    dsimp only
    split
    · exact absurd ‹_› (hkind .maxIterations rfl)
    · exact absurd ‹_› (hkind .stride rfl)
    · exact absurd ‹_› (hkind .order rfl)
    · exact absurd ‹_› (hkind .initialRow rfl)
    · exact absurd ‹_› (hkind .freshAuxiliaries rfl)
    · exact absurd ‹_› (hkind .binary rfl)
    · exact absurd ‹_› (hkind .listVariables rfl)
    · exact ⟨_, rfl⟩
  | some parts =>
    obtain ⟨kind, name⟩ := parts
    have hkind : ∀ d : Setting, d.name? = some (String.ofList name) →
        String.ofList kind ≠ d.kind := by
      intro d hd heq
      refine hkey d ?_
      rw [Setting.key, hd, ← heq, eq_of_splitFirst? hsplit]
      dsimp only
      rw [String.toList_ofList, String.toList_ofList]
    rw [Option.elim_some]
    unfold override
    cases Number.ofText? (valueText arg) with
    | none => exact ⟨_, rfl⟩
    | some x =>
      refine ⟨.illegal arg, bind_eq_error_iff.mpr (.inr ⟨x, rfl, ?_⟩)⟩
      dsimp only
      split
      · exact absurd ‹_› (hkind (.initial _) rfl)
      · exact absurd ‹_› (hkind (.step _) rfl)
      · exact absurd ‹_› (hkind (.constant _) rfl)
      · rfl

/-- An argument that is accepted: a variable, or the key of a setting with a value for it. -/
def IsAcceptable (arg : String) : Prop :=
  keyOf? arg = none ∨ ∃ d : Setting, keyOf? arg = some d.key ∧ ∃ x, d.read? (valueText arg) = some x

/-- What an accepted argument does to the variables to write, and to each setting. -/
theorem of_addArgument (h : o.addArgument arg = .ok o') :
    o'.query = o.query ++ [arg].filter (keyOf? · = none) ∧
      ∀ d, o'.get? d = if keyOf? arg = some d.key then d.read? (valueText arg) else o.get? d := by
  cases hkey : keyOf? arg with
  | none =>
    rw [addArgument_of_keyOf?_eq_none hkey] at h
    cases h
    refine ⟨by simp [hkey], fun d => ?_⟩
    rw [if_neg nofun]
    cases d <;> rfl
  | some key =>
    by_cases hd : ∃ d : Setting, d.key = key
    · obtain ⟨d, rfl⟩ := hd
      rw [addArgument_setting hkey] at h
      cases hx : d.read? (valueText arg) with
      | none =>
        rw [hx] at h
        cases h
      | some x =>
        rw [hx] at h
        cases h
        refine ⟨by simp [hkey, query_put], fun e => ?_⟩
        by_cases he : e = d
        · subst he
          rw [if_pos rfl, get?_put_self, hx]
        · have hne : ¬ some d.key = some e.key := fun heq =>
            he (Setting.key_injective (Option.some.inj heq)).symm
          rw [if_neg hne, get?_put_of_ne o x he]
    · obtain ⟨e, he⟩ := addArgument_of_ne_key (o := o) hkey fun d hkey => hd ⟨d, hkey⟩
      rw [he] at h
      cases h

/-- Whether an argument is accepted does not depend on the arguments before it. -/
theorem exists_addArgument_iff : (∃ o', o.addArgument arg = .ok o') ↔ IsAcceptable arg := by
  unfold IsAcceptable
  cases hkey : keyOf? arg with
  | none =>
    rw [addArgument_of_keyOf?_eq_none hkey]
    exact ⟨fun _ => .inl rfl, fun _ => ⟨_, rfl⟩⟩
  | some key =>
    by_cases hd : ∃ d : Setting, d.key = key
    · obtain ⟨d, rfl⟩ := hd
      rw [addArgument_setting hkey]
      constructor
      · rintro ⟨o', h⟩
        refine .inr ⟨d, rfl, ?_⟩
        cases hx : d.read? (valueText arg) with
        | none =>
          rw [hx] at h
          cases h
        | some x => exact ⟨x, rfl⟩
      · rintro (h | ⟨e, he, x, hx⟩)
        · cases h
        · obtain rfl := Setting.key_injective (Option.some.inj he)
          rw [hx]
          exact ⟨_, rfl⟩
    · obtain ⟨e, he⟩ := addArgument_of_ne_key (o := o) hkey fun d hkey => hd ⟨d, hkey⟩
      rw [he]
      refine ⟨fun ⟨_, h⟩ => ?_, ?_⟩
      · cases h
      · rintro (h | ⟨d, h, -⟩)
        · cases h
        · exact absurd ⟨d, (Option.some.inj h).symm⟩ hd

theorem exists_foldlM_iff :
    (∃ o', args.foldlM addArgument o = .ok o') ↔ ∀ arg ∈ args, IsAcceptable arg := by
  induction args generalizing o with
  | nil => exact ⟨fun _ => nofun, fun _ => ⟨o, rfl⟩⟩
  | cons arg rest ih =>
    rw [List.forall_mem_cons, ← exists_addArgument_iff (o := o)]
    simp only [List.foldlM_cons, bind_eq_ok_iff]
    constructor
    · rintro ⟨o', o₁, harg, hrest⟩
      exact ⟨⟨o₁, harg⟩, ih.mp ⟨o', hrest⟩⟩
    · rintro ⟨⟨o₁, harg⟩, hrest⟩
      obtain ⟨o', ho'⟩ := ih (o := o₁) |>.mpr hrest
      exact ⟨o', o₁, harg, ho'⟩

/-- After a list of arguments the variables to write are those named, in their order. -/
theorem query_of_foldlM (h : args.foldlM addArgument o = .ok o') :
    o'.query = o.query ++ args.filter (keyOf? · = none) := by
  induction args generalizing o with
  | nil =>
    cases h
    exact (List.append_nil _).symm
  | cons arg rest ih =>
    rw [List.foldlM_cons, bind_eq_ok_iff] at h
    obtain ⟨o₁, harg, hrest⟩ := h
    rw [ih hrest, (of_addArgument harg).1, List.append_assoc, ← List.filter_append,
      List.singleton_append]

/-- After a list of arguments a setting has the value that its key had last. -/
theorem get?_of_foldlM (h : args.foldlM addArgument o = .ok o') (d : Setting) :
    o'.get? d = match (args.filter (keyOf? · = some d.key)).getLast? with
      | some arg => d.read? (valueText arg)
      | none => o.get? d := by
  induction args generalizing o with
  | nil =>
    cases h
    rfl
  | cons arg rest ih =>
    rw [List.foldlM_cons, bind_eq_ok_iff] at h
    obtain ⟨o₁, harg, hrest⟩ := h
    rw [ih hrest, (of_addArgument harg).2 d]
    by_cases hkey : keyOf? arg = some d.key
    · rw [if_pos hkey, List.filter_cons_of_pos (by simpa using hkey), List.getLast?_cons]
      cases (rest.filter (keyOf? · = some d.key)).getLast? <;> rfl
    · rw [if_neg hkey, List.filter_cons_of_neg (by simpa using hkey)]

/-- Arguments that are accepted are accepted in any order, with the same result if each key keeps
the order of its arguments and the variables keep theirs: each key has the value that it has
last. -/
theorem ofArguments_perm (hperm : args.Perm args') :
    ((∃ e, ofArguments args = .error e) → ∃ e, ofArguments args' = .error e) ∧
      ∀ o, ofArguments args = .ok o →
        (∀ key, args'.filter (keyOf? · = key) = args.filter (keyOf? · = key)) →
        ofArguments args' = .ok o ∧
          ∀ before arg after key, args = before ++ arg :: after → keyOf? arg = some key →
            (∀ later ∈ after, keyOf? later ≠ some key) →
            ∃ (d : Setting) (x : d.Value), d.key = key ∧ d.read? (valueText arg) = some x ∧
              o.get? d = some x := by
  have haccepted : (∃ o, ofArguments args' = .ok o) ↔ ∃ o, ofArguments args = .ok o := by
    unfold ofArguments
    rw [exists_foldlM_iff, exists_foldlM_iff]
    exact forall_congr' fun arg => imp_congr_left hperm.mem_iff.symm
  refine ⟨?_, fun o ho hkeys => ⟨?_, ?_⟩⟩
  · rintro ⟨e, he⟩
    cases h' : ofArguments args' with
    | error e' => exact ⟨e', rfl⟩
    | ok o =>
      obtain ⟨o', ho'⟩ := haccepted.mp ⟨o, h'⟩
      rw [he] at ho'
      cases ho'
  · obtain ⟨o', ho'⟩ := haccepted.mpr ⟨o, ho⟩
    have hquery : o'.query = o.query := by
      rw [query_of_foldlM ho', query_of_foldlM ho, hkeys none]
    have hsettings : ∀ d, o'.get? d = o.get? d := fun d => by
      rw [get?_of_foldlM ho', get?_of_foldlM ho, hkeys (some d.key)]
    rw [ho', ext_get? hquery hsettings]
  · rintro before arg after key rfl hkey hlast
    have harg : IsAcceptable arg :=
      exists_foldlM_iff.mp ⟨o, ho⟩ arg (List.mem_append_right _ List.mem_cons_self)
    obtain hnone | ⟨d, hd, x, hx⟩ := harg
    · rw [hkey] at hnone
      cases hnone
    · obtain rfl : key = d.key := Option.some.inj (hkey.symm.trans hd)
      have hafter : after.filter (keyOf? · = some d.key) = [] :=
        List.filter_eq_nil_iff.mpr (by simpa using hlast)
      have hfilter : (before ++ arg :: after).filter (keyOf? · = some d.key) =
          before.filter (keyOf? · = some d.key) ++ [arg] := by
        rw [List.filter_append, List.filter_cons_of_pos (by simpa using hkey), hafter]
      refine ⟨d, x, rfl, hx, ?_⟩
      rw [get?_of_foldlM ho, hfilter, List.getLast?_concat]
      exact hx

/-- The two overrides of `y` keep their order, and the other arguments move. -/
theorem ofArguments_perm_overrides :
    (∀ key, ["--rk_order=3", "--ic:y=2", "--ic:y=5", "x", "y"].filter (keyOf? · = key) =
        ["--ic:y=2", "x", "--rk_order=3", "--ic:y=5", "y"].filter (keyOf? · = key)) ∧
      ofArguments ["--rk_order=3", "--ic:y=2", "--ic:y=5", "x", "y"] =
        .ok { order := 3, query := ["x", "y"],
              initial := (∅ : SortedMap _ _).insert "y" ⟨0x4014000000000000⟩ } ∧
      ∃ e, ofArguments ["x", "--stride=2"] = .error e := by
  have hkeys : ∀ key,
      ["--rk_order=3", "--ic:y=2", "--ic:y=5", "x", "y"].filter (keyOf? · = key) =
        ["--ic:y=2", "x", "--rk_order=3", "--ic:y=5", "y"].filter (keyOf? · = key) := by
    intro key
    by_cases hnone : none = key
    · subst hnone
      rfl
    by_cases hinitial : some "ic:y".toList = key
    · subst hinitial
      rfl
    have hy : ∀ text, keyOf? text = some "ic:y".toList → decide (keyOf? text = key) = false :=
      fun _ h => by rw [h, decide_eq_false hinitial]
    have hvariable : ∀ text, keyOf? text = none → decide (keyOf? text = key) = false :=
      fun _ h => by rw [h, decide_eq_false hnone]
    simp only [List.filter_cons, List.filter_nil, hy "--ic:y=2" rfl, hy "--ic:y=5" rfl,
      hvariable "x" rfl, hvariable "y" rfl, Bool.false_eq_true, if_false]
  have hperm : ["--ic:y=2", "x", "--rk_order=3", "--ic:y=5", "y"].Perm
      ["--rk_order=3", "--ic:y=2", "--ic:y=5", "x", "y"] := by decide
  have hrun : ofArguments ["--ic:y=2", "x", "--rk_order=3", "--ic:y=5", "y"] =
      .ok { order := 3, query := ["x", "y"],
            initial := (∅ : SortedMap _ _).insert "y" ⟨0x4014000000000000⟩ } := by decide +kernel
  exact ⟨hkeys, ((ofArguments_perm hperm).2 _ hrun hkeys).1,
    (ofArguments_perm (List.Perm.swap "x" "--stride=2" [])).1 ⟨_, rfl⟩⟩

end Arguments

end RunOptions

end DiffAnalyzer
