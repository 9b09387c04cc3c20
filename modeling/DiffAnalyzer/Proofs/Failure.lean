import Mathlib

/-!
# Computations that may fail

A successful run is taken apart step by step: `bind_eq_ok_iff` for plain results,
`stateBind_eq_ok_iff` where a state is threaded through, and `mapM_eq_ok_iff` for a list
of runs.  A list of checks fails with the first that does (`forM_eq_error_iff`).  What a run
can fail with is put together from what its steps can (`FailsOnly`), and from what holds of the
state meanwhile (`Preserves`).  Where a failure keeps the state, `run_bind_eq` takes a run apart
and `Keeps` says what holds of the state either way.
-/

namespace DiffAnalyzer

variable {ε σ α β : Type}

theorem bind_eq_ok_iff {x : Except ε α} {f : α → Except ε β} {b : β} :
    (x >>= f) = .ok b ↔ ∃ a, x = .ok a ∧ f a = .ok b := by
  cases x with
  | error e =>
    refine ⟨fun h => ?_, fun ⟨_, h, _⟩ => ?_⟩
    · cases h
    · cases h
  | ok a => exact ⟨fun h => ⟨a, rfl, h⟩, fun ⟨_, h, h'⟩ => by cases h; exact h'⟩

/-- A failing run fails in its first step, or in the second after the first. -/
theorem bind_eq_error_iff {x : Except ε α} {f : α → Except ε β} {e : ε} :
    (x >>= f) = .error e ↔ x = .error e ∨ ∃ a, x = .ok a ∧ f a = .error e := by
  cases x with
  | error e' =>
    constructor
    · intro h
      cases h
      exact .inl rfl
    · rintro (h | ⟨_, h, -⟩)
      · cases h
        rfl
      · cases h
  | ok a =>
    constructor
    · exact fun h => .inr ⟨a, rfl, h⟩
    · rintro (h | ⟨_, h, hf⟩)
      · cases h
      · cases h
        exact hf

theorem map_eq_ok_iff {x : Except ε α} {f : α → β} {b : β} :
    f <$> x = .ok b ↔ ∃ a, x = .ok a ∧ f a = b := by
  cases x with
  | error e => exact ⟨nofun, nofun⟩
  | ok a =>
    refine ⟨fun h => ⟨a, rfl, Except.ok.inj h⟩, ?_⟩
    rintro ⟨_, h, rfl⟩
    cases h
    rfl

theorem mapError_eq_ok_iff {ε' : Type} {f : ε → ε'} {x : Except ε α} {a : α} :
    x.mapError f = .ok a ↔ x = .ok a := by
  cases x with
  | error e => exact ⟨nofun, nofun⟩
  | ok b => rw [Except.mapError, Except.ok.injEq, Except.ok.injEq]

theorem stateBind_eq_ok_iff {x : StateT σ (Except ε) α} {f : α → StateT σ (Except ε) β} {s : σ}
    {r : β × σ} :
    (x >>= f) s = .ok r ↔ ∃ a s', x s = .ok (a, s') ∧ f a s' = .ok r := by
  change (x s >>= fun p => f p.1 p.2) = .ok r ↔ _
  rw [bind_eq_ok_iff, Prod.exists]

theorem stateBind_eq_error_iff {x : StateT σ (Except ε) α} {f : α → StateT σ (Except ε) β} {s : σ}
    {e : ε} :
    (x >>= f) s = .error e ↔ x s = .error e ∨ ∃ a s', x s = .ok (a, s') ∧ f a s' = .error e := by
  change (x s >>= fun p => f p.1 p.2) = .error e ↔ _
  rw [bind_eq_error_iff, Prod.exists]

theorem statePure_eq_ok_iff {a b : α} {s s' : σ} :
    (pure a : StateT σ (Except ε) α) s = .ok (b, s') ↔ a = b ∧ s = s' := by
  change Except.ok (a, s) = _ ↔ _
  rw [Except.ok.injEq, Prod.mk.injEq]

/-- A list of runs succeeds when each of them does. -/
theorem mapM_eq_ok_iff {f : α → Except ε β} {l : List α} {r : List β} :
    l.mapM f = .ok r ↔ List.Forall₂ (fun a b => f a = .ok b) l r := by
  induction l generalizing r with
  | nil =>
    rw [List.mapM_nil, List.forall₂_nil_left_iff]
    exact ⟨fun h => (Except.ok.inj h).symm, fun h => congrArg Except.ok h.symm⟩
  | cons a rest ih =>
    rw [List.mapM_cons, bind_eq_ok_iff, List.forall₂_cons_left_iff]
    constructor
    · rintro ⟨b, hb, h⟩
      obtain ⟨bs, hbs, h⟩ := bind_eq_ok_iff.mp h
      exact ⟨b, bs, hb, ih.mp hbs, (Except.ok.inj h).symm⟩
    · rintro ⟨b, bs, hb, hbs, rfl⟩
      exact ⟨b, hb, bind_eq_ok_iff.mpr ⟨bs, ih.mpr hbs, rfl⟩⟩

/-- What the results of a list have in common with its members. -/
theorem forall₂_of_stateMapM {f : α → StateT σ (Except ε) β} {R : α → β → Prop}
    (hf : ∀ a s b s', f a s = .ok (b, s') → R a b) {l : List α} {s s' : σ} {r : List β}
    (h : l.mapM f s = .ok (r, s')) : List.Forall₂ R l r := by
  induction l generalizing s s' r with
  | nil =>
    rw [List.mapM_nil, statePure_eq_ok_iff] at h
    rw [← h.1]
    exact .nil
  | cons a rest ih =>
    rw [List.mapM_cons] at h
    obtain ⟨b, t, hb, h⟩ := stateBind_eq_ok_iff.mp h
    obtain ⟨bs, t', hbs, h⟩ := stateBind_eq_ok_iff.mp h
    obtain ⟨rfl, -⟩ := statePure_eq_ok_iff.mp h
    exact .cons (hf a s b t hb) (ih hbs)

theorem exists_getElem?_of_forall₂ {R : α → β → Prop} {l : List α} {r : List β}
    (h : List.Forall₂ R l r) {i : Nat} {a : α} (ha : l[i]? = some a) :
    ∃ b, r[i]? = some b ∧ R a b := by
  induction h generalizing i with
  | nil => cases ha
  | @cons a' b _ _ hab _ ih =>
    cases i with
    | zero =>
      cases ha
      exact ⟨b, rfl, hab⟩
    | succ i => exact ih ha

theorem exists_of_forall₂ {R : α → β → Prop} {l : List α} {r : List β}
    (h : List.Forall₂ R l r) {a : α} (ha : a ∈ l) : ∃ b ∈ r, R a b := by
  obtain ⟨i, hi⟩ := List.mem_iff_getElem?.mp ha
  obtain ⟨b, hb, hab⟩ := exists_getElem?_of_forall₂ h hi
  exact ⟨b, List.mem_of_getElem? hb, hab⟩

/-- The results of a list are those of its members. -/
theorem mem_iff_of_forall₂ {f : α → Except ε β} {l : List α} {r : List β}
    (h : List.Forall₂ (fun a b => f a = .ok b) l r) {b : β} : b ∈ r ↔ ∃ a ∈ l, f a = .ok b := by
  constructor
  · exact exists_of_forall₂ h.flip
  · rintro ⟨a, ha, hab⟩
    obtain ⟨b', hb', hab'⟩ := exists_of_forall₂ h ha
    cases hab.symm.trans hab'
    exact hb'

theorem exists_mapM_eq_ok_iff {f : α → Except ε β} {l : List α} :
    (∃ r, l.mapM f = .ok r) ↔ ∀ a ∈ l, ∃ b, f a = .ok b := by
  simp only [mapM_eq_ok_iff]
  constructor
  · rintro ⟨r, h⟩ a ha
    obtain ⟨b, -, hb⟩ := exists_of_forall₂ h ha
    exact ⟨b, hb⟩
  · intro h
    induction l with
    | nil => exact ⟨[], .nil⟩
    | cons a rest ih =>
      obtain ⟨b, hb⟩ := h a List.mem_cons_self
      obtain ⟨r, hr⟩ := ih fun c hc => h c (List.mem_cons_of_mem _ hc)
      exact ⟨b :: r, .cons hb hr⟩

/-- What each step of a loop keeps holds in the end. -/
theorem foldlM_preserves {P : σ → Prop} {f : σ → α → Except ε σ}
    (hf : ∀ s a s', P s → f s a = .ok s' → P s') {l : List α} {s s' : σ} (hs : P s)
    (h : l.foldlM f s = .ok s') : P s' := by
  induction l generalizing s with
  | nil =>
    cases h
    exact hs
  | cons a rest ih =>
    rw [List.foldlM_cons] at h
    obtain ⟨s₁, hs₁, h⟩ := bind_eq_ok_iff.mp h
    exact ih (hf s a s₁ hs hs₁) h

/-- A loop that works on a part of its state is a loop on that part. -/
theorem foldlM_eq_map {p : σ → β} {g : β → α → Except ε β} {h : σ → α → Except ε σ}
    (hstep : ∀ s a, g (p s) a = p <$> h s a) (l : List α) (s : σ) :
    l.foldlM g (p s) = p <$> l.foldlM h s := by
  induction l generalizing s with
  | nil => rfl
  | cons a rest ih =>
    rw [List.foldlM_cons, List.foldlM_cons, hstep]
    cases h s a with
    | error e => rfl
    | ok s' => exact ih s'

section Checks

theorem discard_eq_ok_iff {x : Except ε α} : discard x = .ok () ↔ ∃ a, x = .ok a := by
  cases x with
  | error e => exact ⟨nofun, nofun⟩
  | ok a => exact ⟨fun _ => ⟨a, rfl⟩, fun _ => rfl⟩

theorem discard_eq_error_iff {x : Except ε α} {e : ε} : discard x = .error e ↔ x = .error e := by
  cases x with
  | error e' => exact ⟨fun h => congrArg Except.error (Except.error.inj h),
      fun h => congrArg Except.error (Except.error.inj h)⟩
  | ok a => exact ⟨nofun, nofun⟩

/-- Where only failures count the results of the first step need not be known. -/
theorem discard_bind {x : Except ε α} {f : α → Except ε β} {y : Except ε PUnit}
    (h : ∀ a, discard (f a) = y) : discard (x >>= f) = discard x >>= fun _ => y := by
  cases x with
  | error e => rfl
  | ok a => exact h a

theorem discard_bind_pure {x : Except ε α} {f : α → β} :
    discard (x >>= fun a => pure (f a)) = discard x := by
  cases x with
  | error e => rfl
  | ok a => rfl

theorem discard_mapM {f : α → Except ε β} {l : List α} :
    discard (l.mapM f) = forM l fun a => discard (f a) := by
  induction l with
  | nil => rfl
  | cons a rest ih =>
    rw [List.mapM_cons, List.forM_cons, ← ih]
    exact discard_bind fun b => discard_bind_pure

theorem forM_flatMap {f : β → Except ε PUnit} {g : α → List β} {l : List α} :
    forM (l.flatMap g) f = forM l fun a => forM (g a) f := by
  induction l with
  | nil => rfl
  | cons a rest ih => rw [List.flatMap_cons, List.forM_append, List.forM_cons, ih]

theorem discard_bind_eq_forM {x : Except ε α} {f : α → Except ε β} {g : σ → Except ε PUnit}
    {l l' : List σ} (hx : discard x = forM l g) (hf : ∀ a, discard (f a) = forM l' g) :
    discard (x >>= f) = forM (l ++ l') g := by
  rw [discard_bind hf, hx, List.forM_append]

theorem forM_eq_ok_iff {f : α → Except ε PUnit} {l : List α} :
    forM l f = .ok () ↔ ∀ a ∈ l, f a = .ok () := by
  induction l with
  | nil => exact ⟨fun _ => nofun, fun _ => rfl⟩
  | cons a rest ih =>
    rw [List.forM_cons, bind_eq_ok_iff, List.forall_mem_cons, ← ih]
    exact ⟨fun ⟨_, ha, hrest⟩ => ⟨ha, hrest⟩, fun ⟨ha, hrest⟩ => ⟨(), ha, hrest⟩⟩

/-- Checks made in order fail with the first that does. -/
theorem forM_eq_error_iff {f : α → Except ε PUnit} {l : List α} {e : ε} :
    forM l f = .error e ↔ ∃ a, l.find? (fun a => !(f a).isOk) = some a ∧ f a = .error e := by
  induction l with
  | nil => exact ⟨nofun, nofun⟩
  | cons a rest ih =>
    rw [List.forM_cons, List.find?_cons]
    cases ha : f a with
    | error e' =>
      constructor
      · intro h
        exact ⟨a, rfl, ha.trans h⟩
      · rintro ⟨b, hb, h⟩
        obtain rfl := Option.some.inj hb
        exact ha.symm.trans h
    | ok => exact ih

/-- The checks before the one that fails are passed. -/
theorem forM_eq_error_iff_append {f : α → Except ε PUnit} {l : List α} {e : ε} :
    forM l f = .error e ↔ ∃ before a after, l = before ++ a :: after ∧
      (∀ b ∈ before, f b = .ok ()) ∧ f a = .error e := by
  constructor
  · intro h
    obtain ⟨a, hfind, ha⟩ := forM_eq_error_iff.mp h
    obtain ⟨-, before, after, hl, hbefore⟩ := List.find?_eq_some_iff_append.mp hfind
    refine ⟨before, a, after, hl, fun b hb => ?_, ha⟩
    have hok := hbefore b hb
    cases hcheck : f b with
    | error e' =>
      rw [hcheck] at hok
      cases hok
    | ok => rfl
  · rintro ⟨before, a, after, rfl, hbefore, ha⟩
    rw [List.forM_append, List.forM_cons, forM_eq_ok_iff.mpr hbefore, ha]
    rfl

end Checks

/-- Whatever a run fails with has the property. -/
def FailsOnly (P : ε → Prop) (x : Except ε α) : Prop := ∀ e, x = .error e → P e

namespace FailsOnly

variable {P : ε → Prop}

theorem ok (a : α) : FailsOnly P (.ok a) := nofun

theorem error {e : ε} (h : P e) : FailsOnly P (.error e : Except ε α) := by
  intro e' he
  cases he
  exact h

theorem bind {x : Except ε α} {f : α → Except ε β} (hx : FailsOnly P x)
    (hf : ∀ a, FailsOnly P (f a)) : FailsOnly P (x >>= f) := by
  intro e he
  cases x with
  | error e' => exact hx e (by cases he; rfl)
  | ok a => exact hf a e he

theorem map {x : Except ε α} (f : α → β) (hx : FailsOnly P x) : FailsOnly P (f <$> x) := by
  intro e he
  cases x with
  | error e' => exact hx e (by cases he; rfl)
  | ok a => cases he

theorem mapM {f : α → Except ε β} (hf : ∀ a, FailsOnly P (f a)) (l : List α) :
    FailsOnly P (l.mapM f) := by
  induction l with
  | nil => exact ok []
  | cons a rest ih =>
    rw [List.mapM_cons]
    exact (hf a).bind fun b => ih.bind fun bs => ok (b :: bs)

theorem stateBind {x : StateT σ (Except ε) α} {f : α → StateT σ (Except ε) β} {s : σ}
    (hx : FailsOnly P (x s)) (hf : ∀ a s', FailsOnly P (f a s')) : FailsOnly P ((x >>= f) s) :=
  hx.bind fun r => hf r.1 r.2

theorem stateMapM {f : α → StateT σ (Except ε) β} (hf : ∀ a s, FailsOnly P (f a s))
    (l : List α) (s : σ) : FailsOnly P (l.mapM f s) := by
  induction l generalizing s with
  | nil => exact .ok _
  | cons a rest ih =>
    rw [List.mapM_cons]
    exact (hf a s).stateBind fun b s' => (ih s').stateBind fun bs s'' => .ok _

end FailsOnly

/-- A run that starts in a state with the property `I` ends in one, or fails with an error
that has the property `E`. -/
def Preserves (I : σ → Prop) (E : ε → Prop) (x : StateT σ (Except ε) α) : Prop :=
  ∀ s, I s → FailsOnly E (x s) ∧ ∀ r, x s = .ok r → I r.2

namespace Preserves

variable {I : σ → Prop} {E : ε → Prop}

theorem pure (a : α) : Preserves I E (Pure.pure a) := by
  intro s hs
  refine ⟨FailsOnly.ok (a, s), fun r hr => ?_⟩
  rw [← Except.ok.inj hr]
  exact hs

theorem bind {x : StateT σ (Except ε) α} {f : α → StateT σ (Except ε) β}
    (hx : Preserves I E x) (hf : ∀ a, Preserves I E (f a)) : Preserves I E (x >>= f) := by
  intro s hs
  obtain ⟨hfails, hends⟩ := hx s hs
  constructor
  · intro e he
    rcases stateBind_eq_error_iff.mp he with he | ⟨a, s', hrun, he⟩
    · exact hfails e he
    · exact (hf a s' (hends _ hrun)).1 e he
  · intro r hr
    obtain ⟨a, s', hrun, hr⟩ := stateBind_eq_ok_iff.mp hr
    exact (hf a s' (hends _ hrun)).2 r hr

theorem mapM {f : α → StateT σ (Except ε) β} {l : List α} (hf : ∀ a ∈ l, Preserves I E (f a)) :
    Preserves I E (l.mapM f) := by
  induction l with
  | nil =>
    rw [List.mapM_nil]
    exact pure []
  | cons a rest ih =>
    rw [List.mapM_cons]
    refine (hf a List.mem_cons_self).bind fun b => ?_
    exact (ih fun c hc => hf c (List.mem_cons_of_mem _ hc)).bind fun bs => pure (b :: bs)

end Preserves

/-- Of the steps of a list each has its result in the end, if later steps do not undo it. -/
theorem stateMapM_spec {f : α → StateT σ (Except ε) β} {I : σ → Prop} {R : σ → σ → Prop}
    {Q : σ → α → β → Prop} (refl : ∀ s, R s s) (trans : ∀ {s t u}, R s t → R t u → R s u)
    (mono : ∀ {s t a b}, R s t → Q s a b → Q t a b) {l : List α}
    (step : ∀ a ∈ l, ∀ {s b t}, I s → f a s = .ok (b, t) → I t ∧ R s t ∧ Q t a b)
    {s t : σ} {r : List β} (hs : I s) (h : l.mapM f s = .ok (r, t)) :
    I t ∧ R s t ∧ List.Forall₂ (Q t) l r := by
  induction l generalizing s r with
  | nil =>
    rw [List.mapM_nil, statePure_eq_ok_iff] at h
    obtain ⟨rfl, rfl⟩ := h
    exact ⟨hs, refl s, .nil⟩
  | cons a rest ih =>
    rw [List.mapM_cons] at h
    obtain ⟨b, s', hb, h⟩ := stateBind_eq_ok_iff.mp h
    obtain ⟨bs, s'', hbs, h⟩ := stateBind_eq_ok_iff.mp h
    obtain ⟨rfl, rfl⟩ := statePure_eq_ok_iff.mp h
    obtain ⟨hs', hr, hq⟩ := step a List.mem_cons_self hs hb
    obtain ⟨hend, hr', hqs⟩ := ih (fun c hc => step c (List.mem_cons_of_mem a hc)) hs' hbs
    exact ⟨hend, trans hr hr', .cons (mono hr' hq) hqs⟩

theorem run_get_eq (s : σ) : (get : ExceptT ε (StateM σ) σ).run s = (.ok s, s) := rfl

theorem run_liftM_eq (x : Except ε α) (s : σ) :
    (liftM x : ExceptT ε (StateM σ) α).run s = (x, s) := rfl

theorem run_bind_eq (x : ExceptT ε (StateM σ) α) (f : α → ExceptT ε (StateM σ) β) (s : σ) :
    (x >>= f).run s = match x.run s with
      | (.ok a, s) => (f a).run s
      | (.error e, s) => (.error e, s) := by
  change StateT.bind x (ExceptT.bindCont f) s = _
  rw [StateT.bind]
  simp only [ExceptT.run]
  obtain ⟨a | e, s'⟩ := x s
  · rfl
  · rfl

/-- A computation that succeeds does so in all its steps. -/
theorem exists_of_run_bind_ok {x : ExceptT ε (StateM σ) α} {f : α → ExceptT ε (StateM σ) β}
    {s : σ} {b : β} (h : ((x >>= f).run s).1 = .ok b) :
    ∃ a s', x.run s = (.ok a, s') ∧ ((f a).run s').1 = .ok b := by
  rw [run_bind_eq] at h
  split at h
  · rename_i a s' hx
    exact ⟨a, s', hx, h⟩
  · cases h

/-- The property of states survives the computation, also where it fails. -/
def Keeps (P : σ → Prop) (x : ExceptT ε (StateM σ) α) : Prop := ∀ s, P s → P (x.run s).2

namespace Keeps

variable {P : σ → Prop}

theorem pure (a : α) : Keeps P (Pure.pure a : ExceptT ε (StateM σ) α) := fun _ hs => hs

theorem bind {x : ExceptT ε (StateM σ) α} {f : α → ExceptT ε (StateM σ) β} (hx : Keeps P x)
    (hf : ∀ a, Keeps P (f a)) : Keeps P (x >>= f) := by
  intro s hs
  have hs' := hx s hs
  rw [run_bind_eq]
  generalize x.run s = outcome at hs' ⊢
  obtain ⟨e | a, s'⟩ := outcome
  · exact hs'
  · exact hf a s' hs'

theorem modify {f : σ → σ} (hf : ∀ s, P s → P (f s)) :
    Keeps P (modify f : ExceptT ε (StateM σ) Unit) :=
  fun s hs => hf s hs

end Keeps

end DiffAnalyzer
