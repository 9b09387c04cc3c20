import DiffAnalyzer.CSource.Output
import DiffAnalyzer.Proofs.Frames
import Mathlib

/-!
# What is written

A computation that writes has a text when it succeeds and appends that text to whatever was
written before (`CSource.Writes`); texts of steps that follow each other are joined.  A
program that has a counterpart in C is written as the text of that counterpart
(`Program.writes_of_toC`), although its parameters and statements are turned into C only
when they are written.  A check that fails keeps the text as it was
(`CSource.OutputM.require_bind_run_error`).
-/

namespace DiffAnalyzer

/-- Texts with nothing between them are joined one by one. -/
theorem intercalate_empty_cons (text : String) (rest : List String) :
    "".intercalate (text :: rest) = text ++ "".intercalate rest := by
  cases rest with
  | nil => rw [String.intercalate_singleton, String.intercalate_nil, String.append_empty]
  | cons next rest =>
    rw [String.intercalate_cons_of_ne_nil (List.cons_ne_nil next rest), String.append_empty]

namespace CSource

variable {α β : Type}

namespace OutputM

variable {x : Except Fault α} {f : α → OutputM β}

theorem require_bind_run_ok {a : α} (hx : x = .ok a) (out : String) :
    (require x >>= f).run out = (f a).run out := by
  rw [run_bind_eq, hx]
  rfl

/-- A result that is missing ends the computation, and nothing more is written. -/
theorem require_bind_run_error {e : Fault} (hx : x = .error e) (out : String) :
    (require x >>= f).run out = (.error e, out) := by
  rw [run_bind_eq, hx]
  rfl

end OutputM

/-- The computation succeeds with the result, and what it writes is the text. -/
def Writes (x : OutputM α) (a : α) (text : String) : Prop :=
  ∀ out, x.run out = (.ok a, out ++ text)

namespace Writes

theorem pure (a : α) : Writes (Pure.pure a) a "" := fun out => by
  rw [String.append_empty]
  rfl

theorem bind {x : OutputM α} {f : α → OutputM β} {a : α} {b : β} {text rest : String}
    (hx : Writes x a text) (hf : Writes (f a) b rest) : Writes (x >>= f) b (text ++ rest) := by
  intro out
  rw [run_bind_eq, hx out]
  exact (hf (out ++ text)).trans (by rw [String.append_assoc])

theorem congr {x : OutputM α} {a : α} {text other : String} (h : Writes x a text)
    (htext : text = other) : Writes x a other := htext ▸ h

theorem put (piece : String) : Writes (OutputM.put piece) () piece := fun _ => rfl

/-- A result that is there takes no text. -/
theorem require_bind {x : Except Fault α} {f : α → OutputM β} {a : α} {b : β} {text : String}
    (hx : x = .ok a) (hf : Writes (f a) b text) : Writes (OutputM.require x >>= f) b text :=
  fun out => (OutputM.require_bind_run_ok hx out).trans (hf out)

/-- A list is written member by member. -/
theorem forM {f : α → OutputM Unit} {text : β → String} {l : List α} {r : List β}
    (h : List.Forall₂ (fun a b => Writes (f a) () (text b)) l r) :
    Writes (l.forM f) () ("".intercalate (r.map text)) := by
  induction h with
  | nil => exact pure ()
  | cons hab _ ih =>
    rw [List.map_cons, intercalate_empty_cons]
    exact hab.bind ih

end Writes

namespace Fields

variable {f : Fields} {p : Program}

theorem expr_copy_eq_ok_iff {o : Operand} {e : Expr} :
    f.expr (.copy o) = .ok e ↔ ∃ x, f.operand o = .ok x ∧ .value x = e := map_eq_ok_iff

theorem expr_apply_eq_ok_iff {element : Element} {os : List Operand} {e : Expr} :
    f.expr (.apply element os) = .ok e ↔ isRealisable element = true ∧
      ∃ args, List.Forall₂ (fun o x => f.operand o = .ok x) os args ∧
        application element args = e := by
  constructor
  · intro h
    obtain ⟨args, hargs, h⟩ := bind_eq_ok_iff.mp h
    split at h
    · rename_i hrealisable
      exact ⟨hrealisable, args, mapM_eq_ok_iff.mp hargs, Except.ok.inj h⟩
    · cases h
  · rintro ⟨hrealisable, args, hargs, rfl⟩
    refine bind_eq_ok_iff.mpr ⟨args, mapM_eq_ok_iff.mpr hargs, ?_⟩
    rw [if_pos hrealisable]
    rfl

theorem assignment_eq_ok_iff {st : Statement} {a : Assignment} :
    f.assignment st = .ok a ↔ a.group = st.target.group ∧ a.comment = st.description ∧
      f.name st.target = .ok a.name ∧ f.expr st.expr = .ok a.expr := by
  constructor
  · intro h
    obtain ⟨name, hname, h⟩ := bind_eq_ok_iff.mp h
    obtain ⟨e, he, h⟩ := bind_eq_ok_iff.mp h
    cases h
    exact ⟨rfl, rfl, hname, he⟩
  · obtain ⟨_, name, e, _⟩ := a
    rintro ⟨rfl, rfl, hname, he⟩
    exact bind_eq_ok_iff.mpr ⟨name, hname, bind_eq_ok_iff.mpr ⟨e, he, rfl⟩⟩

theorem parameterInit_eq_ok_iff {entry : Field × Nat} {e : ParameterInit} :
    f.parameterInit p entry = .ok e ↔ e.name = entry.1.name ∧
      ∃ initial step, parametersOf p entry = .ok (initial, step) ∧
        f.parameter initial = .ok e.initial ∧ f.parameter step = .ok e.step := by
  constructor
  · intro h
    obtain ⟨⟨initial, step⟩, hentry, h⟩ := bind_eq_ok_iff.mp h
    obtain ⟨x, hx, h⟩ := bind_eq_ok_iff.mp h
    obtain ⟨y, hy, h⟩ := bind_eq_ok_iff.mp h
    cases h
    exact ⟨rfl, initial, step, hentry, hx, hy⟩
  · obtain ⟨_, x, y⟩ := e
    rintro ⟨rfl, initial, step, hentry, hx, hy⟩
    exact bind_eq_ok_iff.mpr ⟨(initial, step), hentry, bind_eq_ok_iff.mpr ⟨x, hx,
      bind_eq_ok_iff.mpr ⟨y, hy, rfl⟩⟩⟩

theorem writes_statement {s : Statement} {a : Assignment} (h : f.assignment s = .ok a) :
    Writes (f.writeStatement s) () (a.text ++ "\n") :=
  .require_bind h (.put _)

theorem block_eq_ok_iff {b : DiffAnalyzer.Block} {c : Block} :
    f.block b = .ok c ↔ c.part = b.part ∧
      List.Forall₂ (fun s a => f.assignment s = .ok a) b.statements c.assignments := by
  rw [block, bind_eq_ok_iff]
  simp only [mapM_eq_ok_iff]
  constructor
  · rintro ⟨as, has, h⟩
    cases h
    exact ⟨rfl, has⟩
  · obtain ⟨part, as⟩ := c
    rintro ⟨rfl, has⟩
    exact ⟨as, has, rfl⟩

theorem writes_block {b : DiffAnalyzer.Block} {c : Block} (h : f.block b = .ok c) :
    Writes (f.writeBlock b) () c.text := by
  obtain ⟨hpart, h⟩ := block_eq_ok_iff.mp h
  unfold writeBlock Block.text
  cases hstatements : b.statements with
  | nil =>
    rw [hstatements, List.forall₂_nil_left_iff] at h
    rw [h]
    exact .pure ()
  | cons s rest =>
    rw [hstatements] at h
    obtain ⟨a, as, -, -, has⟩ := List.forall₂_cons_left_iff.mp h
    simp only [has, List.isEmpty_cons, Bool.false_eq_true, if_false]
    rw [← has, hpart, linesText, List.map_map]
    refine .bind (.put _) ?_
    exact .forM (h.imp fun _ _ => writes_statement)

theorem writes_parameters {entry : Field × Nat} {e : ParameterInit}
    (h : f.parameterInit p entry = .ok e) : Writes (f.writeParameters p entry) () e.text := by
  obtain ⟨hname, initial, step, hentry, hx, hy⟩ := parameterInit_eq_ok_iff.mp h
  rw [ParameterInit.text, linesText, List.map_cons, List.map_singleton, intercalate_empty_cons,
    String.intercalate_singleton, hname]
  refine .require_bind hentry (.require_bind hx ?_)
  refine .bind (.put _) (.require_bind hy ?_)
  exact .put _

theorem writes_init {inits : List ParameterInit}
    (h : f.state.zipIdx.mapM (f.parameterInit p) = .ok inits) :
    Writes (f.writeInit p) () (initText (f.constantInits p) inits) := by
  have hinits := Writes.forM ((mapM_eq_ok_iff.mp h).imp fun _ _ => writes_parameters)
  refine .congr (.bind (.put _) (.bind (.put _) (.bind hinits (.put _)))) ?_
  simp only [initText, String.append_assoc]

theorem writes_derivative {blocks : List Block} (h : p.blocks.mapM f.block = .ok blocks) :
    Writes (f.writeDerivative p) () (derivativeText blocks) := by
  have hblocks := Writes.forM ((mapM_eq_ok_iff.mp h).imp fun _ _ => writes_block)
  refine .congr (.bind (.put _) (.bind hblocks (.put _))) ?_
  simp only [derivativeText, String.append_assoc]

end Fields

end CSource

namespace Program

open CSource

variable {p : Program} {precision : Option Nat}

theorem toC_eq_ok_iff {q : CProgram} : p.toC precision = .ok q ↔ p.checkElements = .ok () ∧
    Fields.ofLayout p.layout = .ok q.fields ∧
    q.fields.state.zipIdx.mapM (q.fields.parameterInit p) = .ok q.parameterInits ∧
    p.blocks.mapM q.fields.block = .ok q.blocks ∧
    q.precision = precision.getD defaultPrecision ∧ q.vars = p.vars ∧
    q.constantInits = q.fields.constantInits p := by
  unfold toC
  constructor
  · intro h
    obtain ⟨⟨⟩, hcheck, h⟩ := bind_eq_ok_iff.mp h
    obtain ⟨fields, hfields, h⟩ := bind_eq_ok_iff.mp h
    obtain ⟨inits, hinits, h⟩ := bind_eq_ok_iff.mp h
    obtain ⟨blocks, hblocks, h⟩ := bind_eq_ok_iff.mp h
    cases h
    exact ⟨hcheck, mapError_eq_ok_iff.mp hfields, hinits, hblocks, rfl, rfl, rfl⟩
  · obtain ⟨_, fields, _, _, inits, blocks⟩ := q
    intro h
    dsimp only at h
    obtain ⟨hcheck, hfields, hinits, hblocks, rfl, rfl, rfl⟩ := h
    exact bind_eq_ok_iff.mpr ⟨(), hcheck, bind_eq_ok_iff.mpr ⟨fields,
      mapError_eq_ok_iff.mpr hfields, bind_eq_ok_iff.mpr ⟨inits, hinits,
        bind_eq_ok_iff.mpr ⟨blocks, hblocks, rfl⟩⟩⟩⟩

/-- A program with a counterpart in C is written as the text of the counterpart. -/
theorem writes_of_toC {q : CProgram} (h : p.toC precision = .ok q) :
    Writes (p.writeC precision) () q.text := by
  obtain ⟨hcheck, hfields, hinits, hblocks, hprecision, hvars, hconstants⟩ := toC_eq_ok_iff.mp h
  refine .congr (.require_bind hcheck (.require_bind (mapError_eq_ok_iff.mpr hfields)
    (.bind (.put _) (.bind (.put _) (.bind (.put _) (.bind (Fields.writes_init hinits)
      (.bind (.put _) (.bind (Fields.writes_derivative hblocks)
        (.bind (.put _) (.put _)))))))))) ?_
  simp only [CProgram.text, hprecision, hvars, hconstants, String.append_assoc]

end Program

end DiffAnalyzer
