import DiffAnalyzer.Proofs.IntegratorLines
import Mathlib

/-!
# Reading the integrator

The text of the generated function `integrate` is read back: `readCase?` finds the lines of a case
behind its head.  Run as they are written, the lines of every scheme do what a step does, and so do
the lines of any explicit tableau whose update has no more weights than there are stages
(`Tableau.run_text`).

Two conditions are needed (`Tableau.run_text_fails`).  A weight stands for the double that its
literal denotes: as exact decimals the weights of Kutta's scheme are not those of a step.  And an
update with more weights than stages reads slopes that no line sets, where a step leaves these
weights out.
-/

namespace DiffAnalyzer

namespace CSource

section Finding

def integrateSignature : String :=
  "static void integrate(state_t *state, aux_t *aux, int rk_order) \x7b"

def isCaseHead (order : Nat) (line : List Char) : Bool :=
  [.word "case".toList, .number (Nat.toDigits 10 order), .symbol ':'].isPrefixOf (lex line)

def isBreak (line : List Char) : Bool := lex line == [.word "break".toList, .symbol ';']

/-- The lines behind the head of a case, up to the next `break`. -/
def caseLines (order : Nat) (body : List (List Char)) : List (List Char) :=
  ((body.dropWhile fun line => !isCaseHead order line).drop 1).takeWhile fun line => !isBreak line

/-- The lines for an order, read from a text with the function `integrate`. -/
def readCase? (order : Nat) (text : String) : Option (List WrittenLine) :=
  (body? integrateSignature "\x7d" (items text.toList)).bind fun body =>
    (caseLines order body).mapM readLine?

end Finding

section Cases

/-- A line that starts with another word is no line of a step. -/
theorem readLine?_eq_none {line name : List Char} (hpoint : name ≠ pointName.toList)
    (hfunction : name ≠ ['f']) (h : (lex line).head? = some (.word name)) :
    readLine? line = none := by
  obtain ⟨rest, htokens⟩ : ∃ rest, lex line = .word name :: rest := List.head?_eq_some_iff.mp h
  have hassignment : readAssignment? (.word name :: rest) = none := by
    unfold readAssignment?
    split
    · rename_i heq
      cases heq
      exact if_neg hpoint
    · rename_i heq
      cases heq
    · rfl
  have hcall : ∀ point digits, .word name :: rest ≠ slopeCall point digits := by
    intro point digits heq
    cases heq
    exact hfunction rfl
  rw [readLine?, htokens, hassignment, readCall?]
  cases hdigits : (Token.word name :: rest).findSome? Token.digits? with
  | none => rfl
  | some digits => simp [hcall]

theorem IntegratorLine.head?_lex_line_ne (l : IntegratorLine) {name : List Char}
    (hpoint : name ≠ pointName.toList) (hfunction : name ≠ ['f']) :
    (lex l.line.toList).head? ≠ some (.word name) := by
  intro h
  obtain ⟨l', hl⟩ := l.exists_isWrittenAs
  cases hl.read.symm.trans (readLine?_eq_none hpoint hfunction h)

theorem IntegratorLine.closes_line (l : IntegratorLine) : closes l.line.toList = false := by
  delta line
  cases l <;> simp [closes]

/-- The number of slopes that there is room for. -/
def stageCount : String := toString ((Scheme.all.map Scheme.order).foldl max 0)

def caseHead (s : Scheme) : String := "    case " ++ toString s.order ++ ": // " ++ toString s

def breakLine : String := "        break;"

def caseBlock (s : Scheme) : List String :=
  caseHead s :: (s.tableau.lines.map IntegratorLine.line ++ [breakLine])

def integratorHead : List String :=
  ["    state_t k[" ++ stageCount ++ "], y;", "    (void) y;", "    switch (rk_order) \x7b"]

def integratorTail : List String :=
  ["    default:",
    "        fprintf(stderr, \"ERR: rk_order must be between 1 and " ++ stageCount ++ "\\n\");",
    "        exit(3);", "    \x7d"]

def integratorBody : List String :=
  integratorHead ++ (Scheme.all.flatMap caseBlock ++ integratorTail)

theorem caseText_eq (s : Scheme) : s.caseText = linesText (caseBlock s) := by
  refine String.toList_inj.mp ?_
  delta Scheme.caseText
  rw [intercalate_text]
  delta caseBlock caseHead breakLine
  simp

set_option maxRecDepth 2000 in
theorem hasItems_integratorText : HasItems integratorText
    [.line [], .block integrateSignature.toList (integratorBody.map String.toList)
      "\x7d".toList] := by
  have hcases : "".intercalate (Scheme.all.map Scheme.caseText) =
      linesText (Scheme.all.flatMap caseBlock) := by
    rw [← linesText_flatMap]
    exact congrArg _ (List.map_congr_left fun s _ => caseText_eq s)
  have hblock : ∀ s ∈ Scheme.all, ∀ line ∈ caseBlock s,
      '\n' ∉ line.toList ∧ closes line.toList = false := by
    intro s hs
    have hname : '\n' ∉ (toString s).toList := by cases s <;> decide
    have hhead : '\n' ∉ (caseHead s).toList ∧ closes (caseHead s).toList = false := by
      delta caseHead
      simp [hname, closes]
    have hbreak : '\n' ∉ breakLine.toList ∧ closes breakLine.toList = false := by decide
    rw [caseBlock, List.forall_mem_cons, List.forall_mem_append, List.forall_mem_map,
      List.forall_mem_singleton]
    exact ⟨hhead, fun l _ => ⟨l.newline_not_mem_line, l.closes_line⟩, hbreak⟩
  refine .topBlock (by decide) ?_ not_mem_brace ?_
  · rw [integratorBody, List.forall_mem_append, List.forall_mem_append, List.forall_mem_flatMap]
    have hcount : '\n' ∉ stageCount.toList := by simp [stageCount]
    refine ⟨?_, hblock, ?_⟩
    · delta integratorHead
      simp [hcount, closes]
    · delta integratorTail
      simp [hcount, closes]
  · have hhead : ("\nstatic void integrate(state_t *state, aux_t *aux, int rk_order) \x7b\n" ++
        "    state_t k[" ++ stageCount ++ "], y;\n" ++ "    (void) y;\n" ++
        "    switch (rk_order) \x7b\n").toList =
        '\n' :: (integrateSignature.toList ++ '\n' :: (linesText integratorHead).toList) := by
      delta integratorHead
      generalize stageCount = stages
      simp [integrateSignature]
    have htail : ("    default:\n" ++
        "        fprintf(stderr, \"ERR: rk_order must be between 1 and " ++ stageCount ++
          "\\n\");\n" ++ "        exit(3);\n" ++ "    \x7d\n" ++ "\x7d\n").toList =
        (linesText integratorTail).toList ++ ("\x7d".toList ++ ['\n']) := by
      delta integratorTail
      generalize stageCount = stages
      simp
    have htext : integratorText =
        ("\nstatic void integrate(state_t *state, aux_t *aux, int rk_order) \x7b\n" ++
          "    state_t k[" ++ stageCount ++ "], y;\n" ++ "    (void) y;\n" ++
          "    switch (rk_order) \x7b\n") ++ linesText (Scheme.all.flatMap caseBlock) ++
        ("    default:\n" ++
          "        fprintf(stderr, \"ERR: rk_order must be between 1 and " ++ stageCount ++
            "\\n\");\n" ++ "        exit(3);\n" ++ "    \x7d\n" ++ "\x7d\n") := by
      rw [← hcases]
      delta integratorText stageCount
      simp only [String.append_assoc]
    rw [htext, String.toList_append, String.toList_append, hhead, htail, integratorBody,
      linesText_append, linesText_append, String.toList_append, String.toList_append]
    simp only [List.append_assoc, List.cons_append]

theorem isCaseHead_eq_false {line : List Char}
    (h : (lex line).head? ≠ some (.word "case".toList)) (order : Nat) :
    isCaseHead order line = false := by
  unfold isCaseHead
  cases htokens : lex line with
  | nil => rfl
  | cons t rest =>
    rw [htokens, List.head?_cons, Ne, Option.some_inj] at h
    show (_ == t && _) = false
    rw [beq_eq_false_iff_ne.mpr (Ne.symm h), Bool.false_and]

theorem isBreak_eq_false {line : List Char} (h : (lex line).head? ≠ some (.word "break".toList)) :
    isBreak line = false := by
  unfold isBreak
  rw [beq_eq_false_iff_ne]
  rintro hline
  rw [hline] at h
  exact h rfl

theorem isCaseHead_caseHead (order : Nat) (s : Scheme) :
    isCaseHead order (caseHead s).toList = true ↔ s.order = order := by
  have htext : (caseHead s).toList = ' ' :: ' ' :: ' ' :: ' ' :: ("case".toList ++ ' ' ::
      ((toString s.order).toList ++ ':' :: ' ' :: '/' :: '/' :: ' ' :: (toString s).toList)) := by
    delta caseHead
    simp
  have hends : ∀ rest, EndsToken (':' :: rest) := fun _ => endsToken_cons rfl (by decide)
  rw [isCaseHead, htext, lex_indentedWord (by decide), lex_digits s.order (hends _),
    lex_symbol rfl, lex_blank, lex_comment]
  simp only [List.isPrefixOf, beq_self_eq_true, Bool.true_and, Bool.and_true, beq_iff_eq,
    Token.number.injEq]
  constructor
  · intro hdigits
    rw [← @Nat.ofDigitChars_ten_toDigits s.order, ← hdigits, Nat.ofDigitChars_ten_toDigits]
  · intro horder
    rw [horder]

theorem not_isCaseHead_caseBlock {order : Nat} {s : Scheme} (h : s.order ≠ order) :
    ∀ line ∈ caseBlock s, isCaseHead order line.toList = false := by
  have hbreak : (lex breakLine.toList).head? ≠ some (.word "case".toList) := by decide
  rw [caseBlock, List.forall_mem_cons, List.forall_mem_append, List.forall_mem_map,
    List.forall_mem_singleton]
  refine ⟨?_, fun l _ => isCaseHead_eq_false (l.head?_lex_line_ne (by decide) (by decide)) order,
    isCaseHead_eq_false hbreak order⟩
  rw [← Bool.not_eq_true, isCaseHead_caseHead]
  exact h

theorem not_isCaseHead_integratorHead (order : Nat) :
    ∀ line ∈ integratorHead, isCaseHead order line.toList = false := by
  have hslopes : (lex ("    state_t k[" ++ stageCount ++ "], y;").toList).head? ≠
      some (.word "case".toList) := by
    have htext : ("    state_t k[" ++ stageCount ++ "], y;").toList =
        ' ' :: ' ' :: ' ' :: ' ' :: ("state_t".toList ++ ' ' ::
          ('k' :: '[' :: (stageCount.toList ++ "], y;".toList))) := by simp
    rw [htext, lex_indentedWord (by decide)]
    decide
  have hpoint : (lex "    (void) y;".toList).head? ≠ some (.word "case".toList) := by decide
  have hswitch : (lex "    switch (rk_order) \x7b".toList).head? ≠
      some (.word "case".toList) := by decide
  rw [integratorHead, List.forall_mem_cons, List.forall_mem_cons, List.forall_mem_singleton]
  exact ⟨isCaseHead_eq_false hslopes order, isCaseHead_eq_false hpoint order,
    isCaseHead_eq_false hswitch order⟩

/-- The lines of a scheme are found between the head of its case and the next `break`. -/
theorem caseLines_integratorBody (s : Scheme) :
    caseLines s.order (integratorBody.map String.toList) =
      (s.tableau.lines.map IntegratorLine.line).map String.toList := by
  obtain ⟨before, after, hall, hbefore⟩ : ∃ before after, Scheme.all = before ++ s :: after ∧
      ∀ s' ∈ before, s'.order ≠ s.order := by
    cases s with
    | euler => exact ⟨[], _, rfl, by decide⟩
    | midpoint => exact ⟨[.euler], _, rfl, by decide⟩
    | kutta3 => exact ⟨[.euler, .midpoint], _, rfl, by decide⟩
    | classic4 => exact ⟨[.euler, .midpoint, .kutta3], _, rfl, by decide⟩
  have hfront : ∀ line ∈ (integratorHead ++ before.flatMap caseBlock).map String.toList,
      (!isCaseHead s.order line) = true := by
    rw [List.forall_mem_map, List.forall_mem_append, List.forall_mem_flatMap]
    refine ⟨fun line hline => ?_, fun s' hs' line hline => ?_⟩
    · rw [not_isCaseHead_integratorHead s.order line hline]
      rfl
    · rw [not_isCaseHead_caseBlock (hbefore s' hs') line hline]
      rfl
  have hlines : ∀ line ∈ (s.tableau.lines.map IntegratorLine.line).map String.toList,
      (!isBreak line) = true := by
    rw [List.forall_mem_map, List.forall_mem_map]
    intro l _
    rw [isBreak_eq_false (l.head?_lex_line_ne (by decide) (by decide))]
    rfl
  have hhead : ¬(!isCaseHead s.order (caseHead s).toList) = true := by
    simp [(isCaseHead_caseHead s.order s).mpr rfl]
  have hbreak : ¬(!isBreak breakLine.toList) = true := by decide
  have hbody : integratorBody.map String.toList =
      (integratorHead ++ before.flatMap caseBlock).map String.toList ++ (caseHead s).toList ::
        ((s.tableau.lines.map IntegratorLine.line).map String.toList ++ breakLine.toList ::
          (after.flatMap caseBlock ++ integratorTail).map String.toList) := by
    simp [integratorBody, hall, caseBlock]
  rw [caseLines, hbody, List.dropWhile_append_of_pos hfront,
    List.dropWhile_cons_of_neg (p := fun line => !isCaseHead s.order line) hhead,
    List.drop_one, List.tail_cons, List.takeWhile_append_of_pos hlines,
    List.takeWhile_cons_of_neg (p := fun line => !isBreak line) hbreak, List.append_nil]

theorem readCase?_integratorText (s : Scheme) : readCase? s.order integratorText =
    ((s.tableau.lines.map IntegratorLine.line).map String.toList).mapM readLine? := by
  have hitems := hasItems_integratorText []
  rw [List.append_nil] at hitems
  rw [readCase?, hitems, List.cons_append, body?_cons, List.cons_append, body?_cons,
    Item.body?_self, ← caseLines_integratorBody]
  rfl

end Cases

end CSource

section Agreement

open CSource

/-- The lines do what a step does, with any number of components, any step sizes and any start.
The monad of `f` is arbitrary, so slopes are taken at the same vectors in the same order, whatever
else `f` reads or changes. -/
def Tableau.IsRunBy (weight : List Char → ℚ) (lines : List WrittenLine) (t : Tableau) : Prop :=
  ∀ (n : Nat) (m : Type → Type) [Monad m] [LawfulMonad m] (steps : Fin n → ℚ)
    (f : (Fin n → ℚ) → m (Fin n → ℚ)) (w : Workspace n),
    finalState weight steps f lines w =
      t.stepM .rational (List.ofFn w.state) (List.ofFn steps) (onLists f)

theorem Tableau.isRunBy_of_isWrittenAs {t : Tableau} {lines : List WrittenLine} (ht : t.IsExplicit)
    (hupdate : t.update.length ≤ t.stages.length)
    (hlines : List.Forall₂ IntegratorLine.IsWrittenAs t.lines lines) :
    t.IsRunBy literalValue lines := by
  intro n m _ _ steps f w
  rw [finalState, runWritten_eq hlines]
  apply t.state_runLines_lines steps f w ht
  intro i hstages hlt
  exact absurd hlt (hupdate.trans hstages).not_gt

/-- The emitted integrator does what a step does. -/
theorem Tableau.run_text :
    (∀ t : Tableau, t.IsExplicit → t.update.length ≤ t.stages.length →
      ∃ lines, readLines? ("".intercalate (t.lines.map IntegratorLine.text)) = some lines ∧
        t.IsRunBy literalValue lines) ∧
    ∀ s : Scheme, ∃ lines, readCase? s.order integratorText = some lines ∧
      s.tableau.IsRunBy literalValue lines := by
  constructor
  · intro t ht hupdate
    obtain ⟨lines, hlines⟩ := exists_forall₂_isWrittenAs t.lines
    refine ⟨lines, ?_, t.isRunBy_of_isWrittenAs ht hupdate hlines⟩
    rw [readLines?_text, mapM_readLine? hlines]
  · intro s
    obtain ⟨lines, hlines⟩ := exists_forall₂_isWrittenAs s.tableau.lines
    have hupdate : s.tableau.update.length ≤ s.tableau.stages.length :=
      (s.update_length.trans s.stages_length.symm).le
    refine ⟨lines, ?_, s.tableau.isRunBy_of_isWrittenAs s.isExplicit_tableau hupdate hlines⟩
    rw [readCase?_integratorText, mapM_readLine? hlines]

/-- Slopes of a rotation, where the points at which they are taken are kept. -/
def rotationM (y : Fin 2 → ℚ) : StateM (List (List ℚ)) (Fin 2 → ℚ) := do
  modify fun points => points ++ [List.ofFn y]
  pure ![y 1, -y 0]

theorem Tableau.run_text_rotation :
    let t : Tableau := ⟨[[], [⟨1, 2⟩], [⟨0, 1⟩, ⟨3, 4⟩]], [⟨1, 4⟩, ⟨0, 1⟩, ⟨3, 4⟩]⟩
    let w : Workspace 2 := ⟨![1, 0], ![0, 0], fun _ => ![7, 7]⟩
    t.lines.map IntegratorLine.text =
      ["        f(state, &k[0], aux);\n",
        "        y = state_add(*state, state_mul_dt(state_scale(k[0], 0.5)));\n",
        "        f(&y, &k[1], aux);\n",
        "        y = state_add(*state, state_mul_dt(state_scale(k[1], 0.75)));\n",
        "        f(&y, &k[2], aux);\n",
        "        *state = state_add(*state, state_mul_dt(state_add(state_scale(k[0], 0.25), " ++
          "state_scale(k[2], 0.75))));\n"] ∧
    ∃ lines, readLines? ("".intercalate (t.lines.map IntegratorLine.text)) = some lines ∧
      ((finalState literalValue ![1 / 2, 1] rotationM lines w).run []).run =
        ([23 / 32, -55 / 64], [[1, 0], [1, -1 / 2], [13 / 16, -3 / 4]]) := by
  intro t w
  obtain ⟨lines, hread, hrun⟩ := Tableau.run_text.1 t (by decide) (by decide)
  refine ⟨by decide +kernel, lines, hread, ?_⟩
  rw [hrun]
  decide +kernel

theorem mapM_readLine?_kutta3 :
    ((Scheme.kutta3.tableau.lines.map IntegratorLine.line).map String.toList).mapM readLine? =
      some [.slopeAtState 0,
        .setPoint (.sum .state (.timesStep (.scaled (.slope 0) "0.5".toList))),
        .slopeAtPoint 1,
        .setPoint (.sum .state (.timesStep (.sum (.scaled (.slope 0) "-1.0".toList)
          (.scaled (.slope 1) "2.0".toList)))),
        .slopeAtPoint 2,
        .setState (.sum .state (.timesStep (.sum (.sum
          (.scaled (.slope 0) "0.16666666666666666".toList)
          (.scaled (.slope 1) "0.6666666666666666".toList))
          (.scaled (.slope 2) "0.16666666666666666".toList))))] := by decide +kernel

/-- Slopes whose first component is one at the start of `Tableau.run_text_fails`, and zero at the
points that Kutta's scheme goes on to. -/
def decayM (y : Fin 4 → ℚ) : Id (Fin 4 → ℚ) :=
  pure ![3 * y 3 - 3 / 2 * y 1 - 1 / 2 * y 2, 0, -2 * y 2, -y 3]

/-- Weights that are read as exact decimals leave a rest where a step cancels.  An update without
stages moves the state along whatever the slopes hold. -/
theorem Tableau.run_text_fails :
    (let w : Workspace 4 := ⟨![-(⟨1, 6⟩ : Coefficient).value, 1, 1, 1], 0, 0⟩
      ∃ lines, readCase? Scheme.kutta3.order integratorText = some lines ∧
        (Id.run (finalState exactValue 1 decayM lines w)).head? =
          some (71061213079 / 27487790694400000000000000000) ∧
        (Id.run (Scheme.kutta3.tableau.stepM .rational (List.ofFn w.state) [1, 1, 1, 1]
          (onLists decayM))).head? = some 0) ∧
    let t : Tableau := ⟨[], [⟨1, 1⟩]⟩
    let w : Workspace 1 := ⟨![0], ![0], fun _ => ![1]⟩
    t.IsExplicit ∧
      ∃ lines, readLines? ("".intercalate (t.lines.map IntegratorLine.text)) = some lines ∧
        (∀ weight, Id.run (finalState weight ![1] pure lines w) = [1]) ∧
        Id.run (t.stepM .rational [0] [1] pure) = [0] := by
  refine ⟨⟨_, (readCase?_integratorText .kutta3).trans mapM_readLine?_kutta3, ?_⟩, by decide, ?_⟩
  · decide +kernel
  · refine ⟨[.setState (.sum .state (.timesStep (.slope 0)))], ?_, fun weight => ?_, rfl⟩
    · rw [readLines?_text]
      decide
    · simp [finalState, runWritten, WrittenLine.run, WrittenVector.eval, Matrix.vecHead]

end Agreement

end DiffAnalyzer
