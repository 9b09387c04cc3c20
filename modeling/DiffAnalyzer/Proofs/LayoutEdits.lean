import DiffAnalyzer.Proofs.Tokens
import Mathlib

/-!
# Edits of the layout

No name and no number goes over a break, so what stands behind one can be replaced by what has the
same tokens there (`Grammar.tokens_append_congr`).  Comments, blanks at breaks and the choice of a
separator can therefore be changed without a change of the circuit
(`EquationSet.parse_of_layoutEdit`).
-/

namespace DiffAnalyzer

namespace Grammar

variable {text rest front back s t : List Char} {b c : Char} {comment : Bool}

/-- Whether the text behind a character is in a comment. -/
def staysOpen (comment : Bool) (c : Char) : Bool :=
  if comment then c != '\n' && c != '\r' else c == '#'

/-- A comment is open at the end of the text. -/
def EndsInComment (text : List Char) : Prop :=
  ∃ front comment, text = front ++ '#' :: comment ∧ ∀ c ∈ comment, c ≠ '\n' ∧ c ≠ '\r'

theorem endsInComment_of_foldl (h : text.foldl staysOpen false = true) : EndsInComment text := by
  induction text using List.reverseRecOn with
  | nil => cases h
  | append_singleton text c ih =>
    rw [List.foldl_append, List.foldl_cons, List.foldl_nil] at h
    cases hopen : text.foldl staysOpen false with
    | true =>
      obtain ⟨front, comment, rfl, hcomment⟩ := ih hopen
      have hc : c ≠ '\n' ∧ c ≠ '\r' := by simpa [hopen, staysOpen] using h
      refine ⟨front, comment ++ [c], by simp, List.forall_mem_append.mpr ⟨hcomment, ?_⟩⟩
      exact List.forall_mem_singleton.mpr hc
    | false =>
      obtain rfl : c = '#' := by simpa [hopen, staysOpen] using h
      exact ⟨text, [], rfl, nofun⟩

/-- The tokens of a text, the front of which may be in a comment. -/
def tokensFrom (comment : Bool) (text : List Char) : List Token :=
  tokens (dropLayout (fun _ => false) comment text)

theorem tokensFrom_false (text : List Char) : tokensFrom false text = tokens text :=
  tokens_pastLayout text

/-- Nothing that stands before the text goes on in it. -/
def Breaks (text : List Char) : Prop := ∀ c ∈ text.head?, isWord c = false

section Front

theorem firstToken?_append (hs : Breaks s) : firstToken? (c :: front ++ s) =
    (firstToken? (c :: front)).map fun r => (r.1, r.2 ++ s) := by
  have hpart : ∀ d ∈ s.head?, isNamePart d = false := fun d hd =>
    (Bool.or_eq_false_iff.mp (hs d hd)).1
  have hnumeral : ∀ d ∈ s.head?, Decimal.isNumeral d = false := fun d hd =>
    (Bool.or_eq_false_iff.mp (hs d hd)).2
  have hscan : Decimal.scan (c :: front ++ s) =
      (Decimal.scan (c :: front)).map fun r => (r.1, r.2 ++ s) := Decimal.scan_append hnumeral
  have hname : scanIdentifier (c :: front ++ s) =
      (scanIdentifier (c :: front)).map fun r => (r.1, r.2 ++ s) :=
    scanIdentifier_append_of_head? hpart
  rw [List.cons_append] at hscan hname ⊢
  rw [firstToken?, firstToken?, hscan, hname]
  cases scanIdentifier (c :: front) with
  | some r => rfl
  | none =>
    cases Decimal.scan (c :: front) with
    | some r => rfl
    | none => rfl

theorem foldl_staysOpen (h : '#' ∉ front) : front.foldl staysOpen false = false := by
  induction front with
  | nil => rfl
  | cons c front ih =>
    rw [List.mem_cons, not_or] at h
    rw [List.foldl_cons, staysOpen, if_neg (by decide), beq_false_of_ne (Ne.symm h.1), ih h.2]

/-- Whether a character is skipped as layout. -/
def isLayout (comment : Bool) (c : Char) : Bool :=
  if comment then c != '\n' else isBlank c || c == '#'

theorem tokensFrom_cons_of_isLayout (h : isLayout comment c = true) (rest : List Char) :
    tokensFrom comment (c :: rest) = tokensFrom (staysOpen comment c) rest := by
  unfold tokensFrom
  cases comment with
  | true =>
    have hfeed : c ≠ '\n' := by simpa [isLayout] using h
    by_cases hreturn : c = '\r'
    · subst hreturn
      rfl
    · have hopen : staysOpen true c = true := by simp [staysOpen, hfeed, hreturn]
      rw [hopen]
      simp [dropLayout, hfeed, hreturn]
  | false =>
    rw [isLayout, if_neg (by decide), Bool.or_eq_true] at h
    by_cases hcomment : c = '#'
    · subst hcomment
      rfl
    · have hblank : isBlank c = true := h.resolve_right (by simpa using hcomment)
      have hopen : staysOpen false c = false := by simp [staysOpen, hcomment]
      rw [hopen]
      simp [dropLayout, hblank]

/-- What is no layout is a token, and no comment is open in front of it. -/
theorem tokensFrom_cons_of_not_isLayout (h : isLayout comment c = false) (rest : List Char) :
    IsPlain (c :: rest) ∧ tokensFrom comment (c :: rest) = tokens (c :: rest) ∧
      staysOpen comment c = staysOpen false c := by
  unfold tokensFrom
  cases comment with
  | true =>
    obtain rfl : c = '\n' := by simpa [isLayout] using h
    exact ⟨startsPlain_cons (by decide), rfl, rfl⟩
  | false =>
    rw [isLayout, if_neg (by decide), Bool.or_eq_false_iff, beq_eq_false_iff_ne] at h
    exact ⟨startsPlain_cons ⟨h.1, rfl, h.2⟩, tokens_pastLayout _, rfl⟩

/-- What stands behind a text may be replaced by what has the same tokens there. -/
theorem tokensFrom_append_congr (hs : Breaks s) (ht : Breaks t)
    (h : tokensFrom (front.foldl staysOpen comment) s =
      tokensFrom (front.foldl staysOpen comment) t) :
    tokensFrom comment (front ++ s) = tokensFrom comment (front ++ t) := by
  induction hlength : front.length using Nat.strongRecOn generalizing front comment with
  | ind n ih =>
    subst hlength
    cases front with
    | nil => exact h
    | cons c front =>
      cases hc : isLayout comment c with
      | true =>
        rw [List.cons_append, List.cons_append, tokensFrom_cons_of_isLayout hc,
          tokensFrom_cons_of_isLayout hc]
        exact ih _ (Nat.lt_succ_self _) h rfl
      | false =>
        obtain ⟨⟨token, rest⟩, hfirst⟩ := exists_firstToken? c front
        obtain ⟨used, hused, -, hplain⟩ := exists_append_of_firstToken? hfirst
        obtain ⟨hfront, -, hopen⟩ := tokensFrom_cons_of_not_isLayout hc front
        -- The first token opens no comment, so `rest` starts outside of one.
        have hrest : (c :: front).foldl staysOpen comment = rest.foldl staysOpen false := by
          rw [List.foldl_cons, hopen, ← List.foldl_cons, hused, List.foldl_append,
            foldl_staysOpen (hplain hfront)]
        have htokens : ∀ u, Breaks u →
            tokensFrom comment (c :: front ++ u) = token :: tokensFrom false (rest ++ u) := by
          intro u hu
          obtain ⟨hplain, heq, -⟩ := tokensFrom_cons_of_not_isLayout hc (front ++ u)
          rw [List.cons_append, heq, tokens_of_isPlain hplain, ← List.cons_append,
            firstToken?_append hu, hfirst, tokensFrom_false]
          rfl
        rw [hrest] at h
        rw [htokens s hs, htokens t ht, ih _ (length_lt_of_firstToken? hfirst) h rfl]

end Front

section Edits

theorem tokens_append_congr (hs : Breaks s) (ht : Breaks t)
    (h : tokensFrom (front.foldl staysOpen false) s = tokensFrom (front.foldl staysOpen false) t) :
    tokens (front ++ s) = tokens (front ++ t) := by
  rw [← tokensFrom_false, ← tokensFrom_false, tokensFrom_append_congr hs ht h]

theorem breaks_cons (h : isWord c = false) : Breaks (c :: rest) := by
  rintro _ ⟨⟩
  exact h

/-- The rest of a comment is skipped. -/
theorem tokensFrom_true_append (htext : ∀ c ∈ text, c ≠ '\n' ∧ c ≠ '\r') (back : List Char) :
    tokensFrom true (text ++ back) = tokensFrom true back := by
  induction text with
  | nil => rfl
  | cons c text ih =>
    obtain ⟨⟨hfeed, hreturn⟩, htext⟩ := List.forall_mem_cons.mp htext
    have hlayout : isLayout true c = true := by simp [isLayout, hfeed]
    have hopen : staysOpen true c = true := by simp [staysOpen, hfeed, hreturn]
    rw [List.cons_append, tokensFrom_cons_of_isLayout hlayout, hopen, ih htext]

/-- At the end of a line it does not matter whether a comment ends there. -/
theorem tokensFrom_lineEnd (hback : ∀ c ∈ back.head?, c = '\n' ∨ c = '\r') (comment : Bool) :
    tokensFrom comment back = tokens back := by
  cases comment with
  | false => exact tokensFrom_false back
  | true =>
    rw [← tokensFrom_false]
    cases back with
    | nil => rfl
    | cons c back => rcases hback c rfl with rfl | rfl <;> rfl

theorem tokensFrom_blank (hb : b = ' ' ∨ b = '\t') (comment : Bool) (rest : List Char) :
    tokensFrom comment (b :: rest) = tokensFrom comment rest := by
  have hlayout : isLayout comment b = true ∧ staysOpen comment b = comment := by
    rcases hb with rfl | rfl <;> cases comment <;> decide
  rw [tokensFrom_cons_of_isLayout hlayout.1, hlayout.2]

theorem tokensFrom_cons_blank (hb : b = ' ' ∨ b = '\t') (hc : isWord c = false) (comment : Bool)
    (rest : List Char) : tokensFrom comment (c :: b :: rest) = tokensFrom comment (c :: rest) := by
  cases hlayout : isLayout comment c with
  | true =>
    rw [tokensFrom_cons_of_isLayout hlayout, tokensFrom_cons_of_isLayout hlayout,
      tokensFrom_blank hb]
  | false =>
    obtain ⟨hplain, heq, -⟩ := tokensFrom_cons_of_not_isLayout hlayout rest
    obtain ⟨hplain', heq', -⟩ := tokensFrom_cons_of_not_isLayout hlayout (b :: rest)
    rw [heq, heq', tokens_cons_of_not_isWord hc hplain, tokens_cons_of_not_isWord hc hplain',
      ← tokensFrom_false, tokensFrom_blank hb, tokensFrom_false]

theorem tokensFrom_separator (hc : isSeparator c = true) (rest : List Char) :
    tokensFrom false (c :: rest) = .mark '\n' :: tokens rest := by
  have hplain : IsPlain (c :: rest) := by
    rw [isSeparator, Bool.or_eq_true, beq_iff_eq, beq_iff_eq] at hc
    rcases hc with rfl | rfl <;> exact startsPlain_cons (by decide)
  rw [tokensFrom_false, tokens_cons_of_not_isWord (not_isWord_of_isSeparator hc) hplain,
    canonical_eq_lineFeed_iff.mpr hc]

/-- The characters that blanks may stand around. -/
def IsDelimiter (c : Char) : Prop := c ∈ ['=', '(', ')', ',', ';', '\n']

theorem IsDelimiter.isWord (hc : IsDelimiter c) : isWord c = false := by
  simp only [IsDelimiter, List.mem_cons, List.not_mem_nil, or_false] at hc
  rcases hc with rfl | rfl | rfl | rfl | rfl | rfl <;> decide

/-- Edits of the layout of a text. -/
inductive LayoutEdit : List Char → List Char → Prop where
  /-- A comment is deleted up to the end of its line. -/
  | uncomment (front : List Char) {text back : List Char} (htext : ∀ c ∈ text, c ≠ '\n' ∧ c ≠ '\r')
    (hback : ∀ c ∈ back.head?, c = '\n' ∨ c = '\r') :
    LayoutEdit (front ++ '#' :: (text ++ back)) (front ++ back)
  /-- A semicolon outside of comments becomes a line feed. -/
  | breakLine {front : List Char} (back : List Char) (hfront : ¬ EndsInComment front) :
    LayoutEdit (front ++ ';' :: back) (front ++ '\n' :: back)
  | blankBefore (front back : List Char) {b c : Char} (hb : b = ' ' ∨ b = '\t')
    (hc : IsDelimiter c) : LayoutEdit (front ++ c :: back) (front ++ b :: c :: back)
  | blankBehind (front back : List Char) {b c : Char} (hb : b = ' ' ∨ b = '\t')
    (hc : IsDelimiter c) : LayoutEdit (front ++ c :: back) (front ++ c :: b :: back)

theorem LayoutEdit.tokens_eq (h : LayoutEdit s t) : tokens s = tokens t := by
  cases h with
  | @uncomment front text back htext hback =>
    have hbreaks : Breaks back := fun c hc => by
      rcases hback c hc with rfl | rfl <;> decide
    have hopen : ∀ comment, isLayout comment '#' = true ∧ staysOpen comment '#' = true := by
      decide
    refine tokens_append_congr (breaks_cons (by decide)) hbreaks ?_
    rw [tokensFrom_cons_of_isLayout (hopen _).1, (hopen _).2, tokensFrom_true_append htext,
      tokensFrom_lineEnd hback, tokensFrom_lineEnd hback]
  | @breakLine front back hfront =>
    have hclosed := Bool.eq_false_iff.mpr (mt endsInComment_of_foldl hfront)
    refine tokens_append_congr (breaks_cons (by decide)) (breaks_cons (by decide)) ?_
    rw [hclosed, tokensFrom_separator (by decide), tokensFrom_separator (by decide)]
  | @blankBefore front back b c hb hc =>
    refine tokens_append_congr (breaks_cons hc.isWord) (breaks_cons ?_) ?_
    · rcases hb with rfl | rfl <;> decide
    · rw [tokensFrom_blank hb]
  | @blankBehind front back b c hb hc =>
    refine tokens_append_congr (breaks_cons hc.isWord) (breaks_cons hc.isWord) ?_
    rw [tokensFrom_cons_blank hb hc.isWord]

end Edits

end Grammar

open Grammar in
/-- An edit of the layout leaves a text what it is: no circuit, or the same one. -/
theorem EquationSet.parse_of_layoutEdit {s t : List Char} (h : LayoutEdit s t) :
    (EquationSet.parse s).toOption = (EquationSet.parse t).toOption :=
  parse_of_tokens_eq h.tokens_eq

open Grammar in
/-- One edit of each kind, to and from the same circuit. -/
theorem EquationSet.parse_of_layoutEdit_mutual :
    let s : EquationSet := .ofList
      [(⟨['x'], .refl true⟩, .var ⟨['y'], .refl true⟩),
        (⟨['y'], .refl true⟩, .var ⟨['x'], .refl true⟩)]
    (EquationSet.parse ['x', '=', 'y', ';', 'y', '=', 'x', '#', ';']).toOption = some s ∧
      (EquationSet.parse ['x', '=', 'y', '\n', 'y', '=', 'x']).toOption = some s ∧
      (EquationSet.parse ['x', '\t', '=', 'y', ';', 'y', '=', 'x']).toOption = some s ∧
      (EquationSet.parse ['x', '=', 'y', ';', ' ', 'y', '=', 'x']).toOption = some s := by
  have hparse : (EquationSet.parse ['x', '=', 'y', ';', 'y', '=', 'x']).toOption = some (.ofList
      [(⟨['x'], .refl true⟩, .var ⟨['y'], .refl true⟩),
        (⟨['y'], .refl true⟩, .var ⟨['x'], .refl true⟩)]) := by rfl
  have hclosed : ¬ EndsInComment ['x', '=', 'y'] := by
    rintro ⟨front, comment, htext, -⟩
    have hmem : '#' ∈ ['x', '=', 'y'] := by simp [htext]
    exact absurd hmem (by decide)
  have hcomment : ∀ c ∈ [';'], c ≠ '\n' ∧ c ≠ '\r' := by simp
  have hback : ∀ c ∈ ([] : List Char).head?, c = '\n' ∨ c = '\r' := nofun
  have hequals : IsDelimiter '=' := by simp [IsDelimiter]
  have hsemicolon : IsDelimiter ';' := by simp [IsDelimiter]
  refine ⟨?_, ?_, ?_, ?_⟩
  · exact (parse_of_layoutEdit (.uncomment ['x', '=', 'y', ';', 'y', '=', 'x'] hcomment
      hback)).trans hparse
  · exact (parse_of_layoutEdit (.breakLine ['y', '=', 'x'] hclosed)).symm.trans hparse
  · exact (parse_of_layoutEdit (.blankBefore ['x'] ['y', ';', 'y', '=', 'x'] (.inr rfl)
      hequals)).symm.trans hparse
  · exact (parse_of_layoutEdit (.blankBehind ['x', '=', 'y'] ['y', '=', 'x'] (.inl rfl)
      hsemicolon)).symm.trans hparse

end DiffAnalyzer
