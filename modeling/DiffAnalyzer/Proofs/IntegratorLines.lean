import DiffAnalyzer.Proofs.CLayout
import DiffAnalyzer.Proofs.Integrator
import Mathlib

/-!
# Reading lines of an integrator

`readLine?` reads a line from its tokens and `runWritten` runs what has been read.  A line that
has been read knows the weights of slopes as the texts that are printed, so it can be run with any
meaning of those.  With the doubles that they denote it does what the line does that it was
written from (`IntegratorLine.exists_isWrittenAs`, `runWritten_eq`).
-/

namespace DiffAnalyzer

theorem Coefficient.isNaN_toNumber (c : Coefficient) : c.toNumber.isNaN = false := by
  have hle : nearestMagnitude c.num.natAbs c.den ≤ Number.infiniteMagnitude := Nat.min_le_left _ _
  rw [Number.isNaN, Coefficient.toNumber, Number.magnitude_ofMagnitude _ hle]
  simpa using hle

namespace CSource

/-- A vector as it is written, with the texts of its weights. -/
inductive WrittenVector where
  | state
  | slope (stage : Nat)
  | scaled (v : WrittenVector) (weight : List Char)
  | timesStep (v : WrittenVector)
  | sum (u v : WrittenVector)
deriving DecidableEq, Repr

/-- A line of an integrator as it is written. -/
inductive WrittenLine where
  | setPoint (v : WrittenVector)
  | slopeAtPoint (stage : Nat)
  | slopeAtState (stage : Nat)
  | setState (v : WrittenVector)
deriving DecidableEq, Repr

section Reading

/-- Names that lines of an integrator are made of. -/
def stateName : String := "state"

def slopesName : String := "k"

def pointName : String := "y"

def sumName : String := "state_add"

def scaleName : String := "state_scale"

def stepName : String := "state_mul_dt"

def expect? (c : Char) (tokens : List Token) : Option (List Token) :=
  if tokens.head? = some (.symbol c) then some tokens.tail else none

/-- The text of a weight, without the parentheses around what is infinite. -/
def readWeight? : List Token → Option (List Char × List Token)
  | .number text :: rest => some (text, rest)
  | .word name :: rest => some (name, rest)
  | .symbol '-' :: .number text :: rest => some ('-' :: text, rest)
  | .symbol '(' :: .symbol '-' :: .word name :: .symbol ')' :: rest => some ('-' :: name, rest)
  | _ => none

/-- A vector whose parts are nested no deeper than this, and the tokens behind it. -/
def readVector? : (depth : Nat) → List Token → Option (WrittenVector × List Token)
  | _ + 1, .symbol '*' :: .word name :: rest =>
    if name = stateName.toList then some (.state, rest) else none
  | _ + 1, .word name :: .symbol '[' :: .number digits :: .symbol ']' :: rest =>
    if name = slopesName.toList then some (.slope (Nat.ofDigitChars 10 digits 0), rest) else none
  | depth + 1, .word name :: .symbol '(' :: rest =>
    (readVector? depth rest).bind fun u =>
      if name = stepName.toList then (expect? ')' u.2).map fun rest => (.timesStep u.1, rest)
      else (expect? ',' u.2).bind fun rest =>
        if name = scaleName.toList then
          (readWeight? rest).bind fun x => (expect? ')' x.2).map fun rest => (.scaled u.1 x.1, rest)
        else if name = sumName.toList then
          (readVector? depth rest).bind fun v =>
            (expect? ')' v.2).map fun rest => (.sum u.1 v.1, rest)
        else none
  | _, _ => none

/-- The vector that makes up the rest of a statement. -/
def assigned? (tokens : List Token) : Option WrittenVector :=
  (readVector? tokens.length tokens).bind fun v => if v.2 = [.symbol ';'] then some v.1 else none

def readAssignment? : List Token → Option WrittenLine
  | .word name :: .symbol '=' :: rest =>
    if name = pointName.toList then (assigned? rest).map .setPoint else none
  | .symbol '*' :: .word name :: .symbol '=' :: rest =>
    if name = stateName.toList then (assigned? rest).map .setState else none
  | _ => none

/-- A call of the derivative function that sets a slope. -/
def slopeCall (point : List Token) (digits : List Char) : List Token :=
  .word ['f'] :: .symbol '(' :: (point ++ [.symbol ',', .symbol '&', .word slopesName.toList,
    .symbol '[', .number digits, .symbol ']', .symbol ',', .word "aux".toList, .symbol ')',
    .symbol ';'])

/-- The text of a number. -/
def Token.digits? : Token → Option (List Char)
  | .number digits => some digits
  | _ => none

def readCall? (tokens : List Token) : Option WrittenLine :=
  (tokens.findSome? Token.digits?).bind fun digits =>
    if tokens = slopeCall [.symbol '&', .word pointName.toList] digits then
      some (.slopeAtPoint (Nat.ofDigitChars 10 digits 0))
    else if tokens = slopeCall [.word stateName.toList] digits then
      some (.slopeAtState (Nat.ofDigitChars 10 digits 0))
    else none

def readLine? (line : List Char) : Option WrittenLine :=
  (readAssignment? (lex line)).or (readCall? (lex line))

/-- The lines of a text in which each line ends in a line feed. -/
def readLines? (text : String) : Option (List WrittenLine) :=
  (text.toList.splitOn '\n').dropLast.mapM readLine?

end Reading

section Running

variable {n : Nat}

/-- The value of the double that a literal denotes. -/
def literalValue (text : List Char) : ℚ := ((Number.ofText? text).map Number.value).getD 0

/-- The value of a decimal, not rounded to a double. -/
def exactValue (text : List Char) : ℚ :=
  ((Decimal.scan text).map fun e =>
    (if e.1.negative then -1 else 1) * e.1.coefficient * (10 : ℚ) ^ e.1.exponent).getD 0

/-- The value of a vector, for given values of the texts of weights. -/
def WrittenVector.eval (weight : List Char → ℚ) (steps : Fin n → ℚ) (w : Workspace n) :
    WrittenVector → Fin n → ℚ
  | .state => w.state
  | .slope stage => w.slopes stage
  | .scaled v text => weight text • v.eval weight steps w
  | .timesStep v => v.eval weight steps w * steps
  | .sum u v => u.eval weight steps w + v.eval weight steps w

variable {m : Type → Type} [Monad m] (weight : List Char → ℚ) (steps : Fin n → ℚ)
  (f : (Fin n → ℚ) → m (Fin n → ℚ))

/-- Run a line that has been read. -/
def WrittenLine.run (w : Workspace n) : WrittenLine → m (Workspace n)
  | .setPoint v => pure { w with point := v.eval weight steps w }
  | .slopeAtPoint stage => do
    let slope ← f w.point
    pure { w with slopes := Function.update w.slopes stage slope }
  | .slopeAtState stage => do
    let slope ← f w.state
    pure { w with slopes := Function.update w.slopes stage slope }
  | .setState v => pure { w with state := v.eval weight steps w }

def runWritten (lines : List WrittenLine) (w : Workspace n) : m (Workspace n) :=
  lines.foldlM (WrittenLine.run weight steps f) w

/-- The state after lines are run. -/
def finalState (lines : List WrittenLine) (w : Workspace n) : m (List ℚ) :=
  (fun w => List.ofFn w.state) <$> runWritten weight steps f lines w

end Running

section Weights

theorem expect?_symbol (c : Char) (rest : List Token) : expect? c (.symbol c :: rest) = some rest :=
  if_pos rfl

/-- Digits are read as one number. -/
theorem lex_digits (count : Nat) {rest : List Char} (hrest : EndsToken rest) :
    lex ((toString count).toList ++ rest) = .number (Nat.toDigits 10 count) :: lex rest := by
  have htext : (toString count).toList = Nat.toDigits 10 count := by simp
  obtain ⟨d, front, hdigits⟩ := List.exists_cons_of_ne_nil (@Nat.toDigits_ne_nil count 10)
  have hall : ∀ c ∈ d :: front, c.isDigit = true := by
    rw [← hdigits]
    exact fun c => Number.isDigit_of_mem_toDigits
  obtain ⟨hd, hfront⟩ := List.forall_mem_cons.mp hall
  have hlex := lex_numeral hd (fun c hc => .inl (hfront c hc)) (.inl rfl) hrest
  rw [List.append_nil] at hlex
  rw [htext, hdigits, hlex]

/-- The tokens of a literal are read as a text that denotes it. -/
theorem IsLiteral.exists_readWeight? {x : Number} {ts : List Token} (h : IsLiteral x ts)
    (hnan : x.isNaN = false) : ∃ text, Number.ofText? text = some x ∧
      ∀ rest, readWeight? (ts ++ rest) = some (text, rest) := by
  have hinfinite : x.isInfinite = true → x = .ofMagnitude x.negative Number.infiniteMagnitude := by
    intro h
    rw [← beq_iff_eq.mp h, Number.ofMagnitude_magnitude]
  cases h with
  | nan h => cases hnan.symm.trans h
  | infinity h hpositive =>
    refine ⟨"INFINITY".toList, ?_, fun _ => rfl⟩
    rw [hinfinite h, hpositive]
    decide
  | negativeInfinity h hnegative =>
    refine ⟨'-' :: "INFINITY".toList, ?_, fun _ => rfl⟩
    rw [hinfinite h, hnegative]
    decide
  | positive h => exact ⟨x.sourceText, Number.ofText?_sourceText h, fun _ => rfl⟩
  | negative h htext => exact ⟨_, htext ▸ Number.ofText?_sourceText h, fun _ => rfl⟩

end Weights

section Vectors

/-- The vector is read as one with the same value. -/
structure VectorExpr.IsWrittenAs (v : VectorExpr) (ts : List Token) (v' : WrittenVector) :
    Prop where
  lex : ∀ rest, EndsToken rest → lex (v.text.toList ++ rest) = ts ++ lex rest
  read : ∀ depth, ts.length ≤ depth → ∀ rest, readVector? depth (ts ++ rest) = some (v', rest)
  eval : ∀ {n : Nat} (steps : Fin n → ℚ) (w : Workspace n),
    v'.eval literalValue steps w = v.eval steps w

namespace VectorExpr.IsWrittenAs

variable {u v : VectorExpr} {ts us : List Token} {u' v' : WrittenVector}

theorem endsToken_close {rest : List Char} : EndsToken (')' :: rest) :=
  endsToken_cons rfl (by decide)

theorem endsToken_comma {rest : List Char} : EndsToken (',' :: rest) :=
  endsToken_cons rfl (by decide)

theorem state : IsWrittenAs .state [.symbol '*', .word stateName.toList] .state where
  lex rest hrest := by
    have htext : VectorExpr.state.text.toList ++ rest = '*' :: ("state".toList ++ rest) := by
      simp [text]
    rw [htext, lex_symbol rfl, lex_name (by decide) hrest.head]
    rfl
  read depth hdepth rest := by
    obtain ⟨depth, rfl⟩ : ∃ k, depth = k + 1 := Nat.exists_eq_add_of_le' (Nat.le_of_lt hdepth)
    exact if_pos rfl
  eval _ _ := rfl

theorem slope (stage : Nat) : IsWrittenAs (.slope stage)
    [.word slopesName.toList, .symbol '[', .number (Nat.toDigits 10 stage), .symbol ']']
      (.slope stage) where
  lex rest _ := by
    have htext : (VectorExpr.slope stage).text.toList ++ rest =
        "k".toList ++ '[' :: ((toString stage).toList ++ ']' :: rest) := by simp [text]
    have hopen : isPlainPart '[' = false := rfl
    have hclose : EndsToken (']' :: rest) := endsToken_cons rfl (by decide)
    rw [htext, lex_name (by decide) (not_isPlainPart_head hopen), lex_symbol rfl,
      lex_digits stage hclose, lex_symbol rfl]
    rfl
  read depth hdepth rest := by
    obtain ⟨depth, rfl⟩ : ∃ k, depth = k + 1 := Nat.exists_eq_add_of_le' (by simp at hdepth; omega)
    simp [readVector?, Nat.ofDigitChars_ten_toDigits]
  eval _ _ := rfl

theorem timesStep (h : IsWrittenAs v ts v') : IsWrittenAs (.timesStep v)
    (.word stepName.toList :: .symbol '(' :: (ts ++ [.symbol ')'])) (.timesStep v') where
  lex rest _ := by
    have htext : (VectorExpr.timesStep v).text.toList ++ rest =
        "state_mul_dt".toList ++ '(' :: (v.text.toList ++ ')' :: rest) := by simp [text]
    have hopen : isPlainPart '(' = false := rfl
    rw [htext, lex_name (by decide) (not_isPlainPart_head hopen), lex_symbol rfl,
      h.lex _ endsToken_close, lex_symbol rfl]
    simp [stepName]
  read depth hdepth rest := by
    simp only [List.length_cons, List.length_append, List.length_nil] at hdepth
    obtain ⟨depth, rfl⟩ : ∃ k, depth = k + 1 := Nat.exists_eq_add_of_le' (by omega)
    rw [List.cons_append, List.cons_append, List.append_assoc, List.singleton_append, readVector?,
      h.read depth (by omega)]
    simp [expect?_symbol]
  eval steps w := congrArg (· * steps) (h.eval steps w)

theorem scaled (h : IsWrittenAs v ts v') (c : Coefficient) : ∃ us text,
    IsWrittenAs (.scaled v c) (.word scaleName.toList :: .symbol '(' :: (ts ++ us))
      (.scaled v' text) := by
  obtain ⟨ws, hliteral, hlex⟩ := exists_lex_sourceText c.toNumber
  obtain ⟨text, htext, hread⟩ := hliteral.exists_readWeight? c.isNaN_toNumber
  refine ⟨.symbol ',' :: (ws ++ [.symbol ')']), text, ⟨?lex, ?read, ?eval⟩⟩
  case lex =>
    intro rest _
    have htext : (VectorExpr.scaled v c).text.toList ++ rest = "state_scale".toList ++
        '(' :: (v.text.toList ++ ',' :: ' ' :: (c.toNumber.sourceText ++ ')' :: rest)) := by
      simp [VectorExpr.text]
    have hopen : isPlainPart '(' = false := rfl
    rw [htext, lex_name (by decide) (not_isPlainPart_head hopen), lex_symbol rfl,
      h.lex _ endsToken_comma, lex_symbol rfl, lex_blank, hlex _ endsToken_close, lex_symbol rfl]
    simp [scaleName]
  case read =>
    intro depth hdepth rest
    simp only [List.length_cons, List.length_append, List.length_nil] at hdepth
    obtain ⟨depth, rfl⟩ : ∃ k, depth = k + 1 := Nat.exists_eq_add_of_le' (by omega)
    have hne : scaleName.toList ≠ stepName.toList := by decide
    simp [readVector?, h.read depth (by omega), hread, hne, expect?_symbol]
  case eval =>
    intro n steps w
    have hweight : literalValue text = c.value := by
      rw [literalValue, htext]
      rfl
    rw [WrittenVector.eval, hweight, h.eval steps w]
    rfl

theorem sum (hu : IsWrittenAs u us u') (hv : IsWrittenAs v ts v') : IsWrittenAs (.sum u v)
    (.word sumName.toList :: .symbol '(' :: (us ++ .symbol ',' :: (ts ++ [.symbol ')'])))
      (.sum u' v') where
  lex rest _ := by
    have htext : (VectorExpr.sum u v).text.toList ++ rest = "state_add".toList ++
        '(' :: (u.text.toList ++ ',' :: ' ' :: (v.text.toList ++ ')' :: rest)) := by
      simp [text]
    have hopen : isPlainPart '(' = false := rfl
    rw [htext, lex_name (by decide) (not_isPlainPart_head hopen), lex_symbol rfl,
      hu.lex _ endsToken_comma, lex_symbol rfl, lex_blank, hv.lex _ endsToken_close, lex_symbol rfl]
    simp [sumName]
  read depth hdepth rest := by
    simp only [List.length_cons, List.length_append, List.length_nil] at hdepth
    obtain ⟨depth, rfl⟩ : ∃ k, depth = k + 1 := Nat.exists_eq_add_of_le' (by omega)
    have hne : sumName.toList ≠ stepName.toList ∧ sumName.toList ≠ scaleName.toList := by decide
    simp [readVector?, hu.read depth (by omega), hv.read depth (by omega), hne, expect?_symbol]
  eval steps w := congrArg₂ (· + ·) (hu.eval steps w) (hv.eval steps w)

end VectorExpr.IsWrittenAs

theorem VectorExpr.exists_isWrittenAs (v : VectorExpr) : ∃ ts v', v.IsWrittenAs ts v' := by
  induction v with
  | state => exact ⟨_, _, .state⟩
  | slope stage => exact ⟨_, _, .slope stage⟩
  | scaled v weight ih =>
    obtain ⟨ts, v', h⟩ := ih
    obtain ⟨us, text, hscaled⟩ := h.scaled weight
    exact ⟨_, _, hscaled⟩
  | timesStep v ih =>
    obtain ⟨ts, v', h⟩ := ih
    exact ⟨_, _, h.timesStep⟩
  | sum u v ihu ihv =>
    obtain ⟨us, u', hu⟩ := ihu
    obtain ⟨ts, v', hv⟩ := ihv
    exact ⟨_, _, hu.sum hv⟩

theorem VectorExpr.IsWrittenAs.assigned? {v : VectorExpr} {ts : List Token} {v' : WrittenVector}
    (h : v.IsWrittenAs ts v') : assigned? (ts ++ [.symbol ';']) = some v' := by
  rw [CSource.assigned?, h.read _ (by simp)]
  simp

end Vectors

section Lines

/-- The text of a line without the line feed. -/
def IntegratorLine.line : IntegratorLine → String
  | .setPoint v => "        y = " ++ v.text ++ ";"
  | .slopeAtPoint stage => "        f(&y, &k[" ++ toString stage ++ "], aux);"
  | .slopeAtState stage => "        f(state, &k[" ++ toString stage ++ "], aux);"
  | .setState v => "        *state = " ++ v.text ++ ";"

/-- The line is read as one that does the same. -/
structure IntegratorLine.IsWrittenAs (l : IntegratorLine) (l' : WrittenLine) : Prop where
  read : readLine? l.line.toList = some l'
  run : ∀ {n : Nat} {m : Type → Type} [Monad m] (steps : Fin n → ℚ)
    (f : (Fin n → ℚ) → m (Fin n → ℚ)) (w : Workspace n),
    l'.run literalValue steps f w = l.run steps f w

theorem readLine?_of_readAssignment? {line : List Char} {l : WrittenLine}
    (h : readAssignment? (lex line) = some l) : readLine? line = some l := by
  rw [readLine?, h]
  rfl

theorem lex_slopeCall (stage : Nat) {point : List Char} {pointTokens : List Token}
    (hpoint : ∀ rest, lex (point ++ ',' :: rest) = pointTokens ++ lex (',' :: rest)) :
    lex ('f' :: '(' :: (point ++ ',' :: ' ' :: '&' :: 'k' :: '[' :: ((toString stage).toList ++
      ']' :: ',' :: ' ' :: ("aux".toList ++ [')', ';'])))) =
        slopeCall pointTokens (Nat.toDigits 10 stage) := by
  have hopen : isPlainPart '(' = false := rfl
  have hindex : isPlainPart '[' = false := rfl
  have hclose : isPlainPart ')' = false := rfl
  have hfunction : ∀ rest, lex ('f' :: '(' :: rest) = .word ['f'] :: .symbol '(' :: lex rest := by
    intro rest
    show lex (['f'] ++ '(' :: rest) = _
    rw [lex_name (by decide) (not_isPlainPart_head hopen), lex_symbol rfl]
  have hslopes : ∀ rest, lex ('k' :: '[' :: rest) =
      .word slopesName.toList :: .symbol '[' :: lex rest := by
    intro rest
    show lex (['k'] ++ '[' :: rest) = _
    rw [lex_name (by decide) (not_isPlainPart_head hindex), lex_symbol rfl]
    rfl
  have hends : ∀ rest, EndsToken (']' :: rest) := fun _ => endsToken_cons rfl (by decide)
  rw [hfunction, hpoint, lex_symbol rfl, lex_blank, lex_symbol rfl, hslopes,
    lex_digits stage (hends _), lex_symbol rfl, lex_symbol rfl, lex_blank,
    lex_name (by decide) (not_isPlainPart_head hclose), lex_symbol rfl, lex_symbol rfl, lex_nil]
  rfl

/-- The blanks in front of a line of the integrator. -/
theorem lex_indented (rest : List Char) : lex ("        ".toList ++ rest) = lex rest := by
  simp

theorem isWrittenAs_slopeAtPoint (stage : Nat) :
    (IntegratorLine.slopeAtPoint stage).IsWrittenAs (.slopeAtPoint stage) where
  read := by
    have htext : (IntegratorLine.slopeAtPoint stage).line.toList = "        ".toList ++
        'f' :: '(' :: ("&y".toList ++ ',' :: ' ' :: '&' :: 'k' :: '[' ::
          ((toString stage).toList ++ ']' :: ',' :: ' ' :: ("aux".toList ++ [')', ';']))) := by
      show ("        f(&y, &k[" ++ toString stage ++ "], aux);").toList = _
      simp
    have hpoint : ∀ rest, lex ("&y".toList ++ ',' :: rest) =
        [.symbol '&', .word pointName.toList] ++ lex (',' :: rest) := by
      intro rest
      have hcomma : isPlainPart ',' = false := rfl
      show lex ('&' :: ("y".toList ++ ',' :: rest)) = _
      rw [lex_symbol rfl, lex_name (by decide) (not_isPlainPart_head hcomma)]
      rfl
    have hnone : ∀ digits,
        readAssignment? (slopeCall [.symbol '&', .word pointName.toList] digits) = none :=
      fun _ => rfl
    have hdigits : ∀ digits, (slopeCall [.symbol '&', .word pointName.toList] digits).findSome?
        Token.digits? = some digits := fun _ => rfl
    rw [readLine?, htext, lex_indented, lex_slopeCall stage hpoint, hnone, readCall?, hdigits]
    simp [Nat.ofDigitChars_ten_toDigits]
  run _ _ _ := rfl

theorem isWrittenAs_slopeAtState (stage : Nat) :
    (IntegratorLine.slopeAtState stage).IsWrittenAs (.slopeAtState stage) where
  read := by
    have htext : (IntegratorLine.slopeAtState stage).line.toList = "        ".toList ++
        'f' :: '(' :: ("state".toList ++ ',' :: ' ' :: '&' :: 'k' :: '[' ::
          ((toString stage).toList ++ ']' :: ',' :: ' ' :: ("aux".toList ++ [')', ';']))) := by
      show ("        f(state, &k[" ++ toString stage ++ "], aux);").toList = _
      simp
    have hpoint : ∀ rest, lex ("state".toList ++ ',' :: rest) =
        [.word stateName.toList] ++ lex (',' :: rest) := by
      intro rest
      have hcomma : isPlainPart ',' = false := rfl
      rw [lex_name (by decide) (not_isPlainPart_head hcomma)]
      rfl
    have hnone : ∀ digits, readAssignment? (slopeCall [.word stateName.toList] digits) = none :=
      fun _ => rfl
    have hdigits : ∀ digits, (slopeCall [.word stateName.toList] digits).findSome? Token.digits? =
        some digits := fun _ => rfl
    have hne : ∀ digits, slopeCall [.word stateName.toList] digits ≠
        slopeCall [.symbol '&', .word pointName.toList] digits := by simp [slopeCall]
    rw [readLine?, htext, lex_indented, lex_slopeCall stage hpoint, hnone, readCall?, hdigits]
    simp [hne, Nat.ofDigitChars_ten_toDigits]
  run _ _ _ := rfl

variable {v : VectorExpr} {ts : List Token} {v' : WrittenVector}

theorem VectorExpr.IsWrittenAs.lex_assigned (h : v.IsWrittenAs ts v') (rest : List Char) :
    CSource.lex ('=' :: ' ' :: (v.text.toList ++ ';' :: rest)) =
      .symbol '=' :: (ts ++ .symbol ';' :: CSource.lex rest) := by
  have hends : EndsToken (';' :: rest) := endsToken_cons rfl (by decide)
  rw [lex_symbol rfl, lex_blank, h.lex _ hends, lex_symbol rfl]

theorem VectorExpr.IsWrittenAs.setPoint (h : v.IsWrittenAs ts v') :
    (IntegratorLine.setPoint v).IsWrittenAs (.setPoint v') where
  read := by
    have htext : (IntegratorLine.setPoint v).line.toList = "        ".toList ++
        ("y".toList ++ ' ' :: ('=' :: ' ' :: (v.text.toList ++ [';']))) := by
      show ("        y = " ++ v.text ++ ";").toList = _
      simp
    have hblank : isPlainPart ' ' = false := rfl
    have hread : readAssignment? (.word "y".toList :: .symbol '=' :: (ts ++ [.symbol ';'])) =
        some (.setPoint v') := by
      have hname : "y".toList = pointName.toList := rfl
      rw [readAssignment?, if_pos hname, h.assigned?]
      rfl
    refine readLine?_of_readAssignment? ?_
    rw [htext, lex_indented, lex_name (by decide) (not_isPlainPart_head hblank), lex_blank,
      h.lex_assigned, lex_nil, hread]
  run steps f w := congrArg (fun point => pure { w with point }) (h.eval steps w)

theorem VectorExpr.IsWrittenAs.setState (h : v.IsWrittenAs ts v') :
    (IntegratorLine.setState v).IsWrittenAs (.setState v') where
  read := by
    have htext : (IntegratorLine.setState v).line.toList = "        ".toList ++
        '*' :: ("state".toList ++ ' ' :: ('=' :: ' ' :: (v.text.toList ++ [';']))) := by
      show ("        *state = " ++ v.text ++ ";").toList = _
      simp
    have hblank : isPlainPart ' ' = false := rfl
    have hread : readAssignment? (.symbol '*' :: .word "state".toList :: .symbol '=' ::
        (ts ++ [.symbol ';'])) = some (.setState v') := by
      have hname : "state".toList = stateName.toList := rfl
      rw [readAssignment?, if_pos hname, h.assigned?]
      rfl
    refine readLine?_of_readAssignment? ?_
    rw [htext, lex_indented, lex_symbol rfl, lex_name (by decide) (not_isPlainPart_head hblank),
      lex_blank, h.lex_assigned, lex_nil, hread]
  run steps f w := congrArg (fun state => pure { w with state }) (h.eval steps w)

theorem IntegratorLine.exists_isWrittenAs (l : IntegratorLine) : ∃ l', l.IsWrittenAs l' := by
  cases l with
  | setPoint v =>
    obtain ⟨ts, v', h⟩ := v.exists_isWrittenAs
    exact ⟨_, h.setPoint⟩
  | slopeAtPoint stage => exact ⟨_, isWrittenAs_slopeAtPoint stage⟩
  | slopeAtState stage => exact ⟨_, isWrittenAs_slopeAtState stage⟩
  | setState v =>
    obtain ⟨ts, v', h⟩ := v.exists_isWrittenAs
    exact ⟨_, h.setState⟩

theorem IntegratorLine.text_eq (l : IntegratorLine) : l.text = l.line ++ "\n" := by
  refine String.toList_inj.mp ?_
  delta text line
  cases l <;> simp

theorem VectorExpr.newline_not_mem_text (v : VectorExpr) : '\n' ∉ v.text.toList := by
  induction v with
  | state | slope stage => simp [text]
  | scaled v weight ih | timesStep v ih => simp [text, ih]
  | sum u v ihu ihv => simp [text, ihu, ihv]

theorem IntegratorLine.newline_not_mem_line (l : IntegratorLine) : '\n' ∉ l.line.toList := by
  delta line
  cases l with
  | setPoint v | setState v => simp [v.newline_not_mem_text]
  | slopeAtPoint stage | slopeAtState stage => simp

theorem intercalate_text (ls : List IntegratorLine) :
    "".intercalate (ls.map IntegratorLine.text) = linesText (ls.map IntegratorLine.line) := by
  rw [linesText, List.map_map]
  exact congrArg _ (List.map_congr_left fun l _ => l.text_eq)

variable {ls : List IntegratorLine} {ls' : List WrittenLine}

theorem exists_forall₂_isWrittenAs (ls : List IntegratorLine) :
    ∃ ls', List.Forall₂ IntegratorLine.IsWrittenAs ls ls' := by
  induction ls with
  | nil => exact ⟨[], .nil⟩
  | cons l ls ih =>
    obtain ⟨l', h⟩ := l.exists_isWrittenAs
    obtain ⟨ls', hs⟩ := ih
    exact ⟨l' :: ls', .cons h hs⟩

theorem mapM_readLine? (h : List.Forall₂ IntegratorLine.IsWrittenAs ls ls') :
    ((ls.map IntegratorLine.line).map String.toList).mapM readLine? = some ls' := by
  induction h with
  | nil => rfl
  | cons h _ ih =>
    rw [List.map_cons, List.map_cons, List.mapM_cons, h.read, ih]
    rfl

/-- A text is read line by line. -/
theorem readLines?_text (ls : List IntegratorLine) :
    readLines? ("".intercalate (ls.map IntegratorLine.text)) =
      ((ls.map IntegratorLine.line).map String.toList).mapM readLine? := by
  have hlines : ∀ line ∈ ls.map IntegratorLine.line, '\n' ∉ line.toList := by
    rw [List.forall_mem_map]
    exact fun l _ => l.newline_not_mem_line
  rw [intercalate_text, readLines?, splitOn_linesText hlines, List.dropLast_concat]

theorem runWritten_eq (h : List.Forall₂ IntegratorLine.IsWrittenAs ls ls') {n : Nat}
    {m : Type → Type} [Monad m] (steps : Fin n → ℚ) (f : (Fin n → ℚ) → m (Fin n → ℚ))
    (w : Workspace n) : runWritten literalValue steps f ls' w = runLines steps f ls w := by
  induction h generalizing w with
  | nil => rfl
  | cons h _ ih =>
    rw [runWritten, runLines, List.foldlM_cons, List.foldlM_cons, h.run]
    exact bind_congr fun w => ih w

end Lines

end CSource

end DiffAnalyzer
