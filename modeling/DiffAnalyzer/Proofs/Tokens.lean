import DiffAnalyzer.Proofs.Files
import Mathlib

/-!
# Tokens

The grammar goes through a text by names, numbers, separators and other characters, and skips what
layout stands between them.  What it makes of a text is therefore up to the `tokens` of the text:
each rule respects them (`Recognizer.Respects`), so that texts with the same tokens are read as the
same circuit (`EquationSet.parse_of_tokens_eq`).
-/

namespace DiffAnalyzer

namespace Recognizer

variable {α β : Type} {P Q R : List Char → List Char → Prop} {x y : Recognizer α}
  {f : α → Recognizer β}

/-- Texts that are related by `P` are both refused, or read as the same value with rests that are
related by `Q`. -/
def Respects (P Q : List Char → List Char → Prop) (x : Recognizer α) : Prop :=
  ∀ s t, P s t → Option.Rel (fun r r' => r.1 = r'.1 ∧ Q r.2 r'.2) (x s).result (x t).result

namespace Respects

theorem pure (a : α) : Respects P P (pure a) := fun _ _ h => .some ⟨rfl, h⟩

theorem bind (hx : Respects P Q x) (hf : ∀ a, Respects Q R (f a)) : Respects P R (x >>= f) := by
  intro s t h
  have hst := hx s t h
  rw [result_bind, result_bind]
  generalize (x s).result = read, (x t).result = read' at hst
  cases hst with
  | none => exact .none
  | @some r r' hr =>
    obtain ⟨a, rest⟩ := r
    obtain ⟨b, rest'⟩ := r'
    obtain ⟨rfl, hrest⟩ : a = b ∧ Q rest rest' := hr
    exact hf a rest rest' hrest

theorem orElse (hx : Respects P Q x) (hy : Respects P Q y) : Respects P Q (x <|> y) := by
  intro s t h
  have hst := hx s t h
  change Option.Rel _ ((OrElse.orElse x fun _ => y) s).result
    ((OrElse.orElse x fun _ => y) t).result
  rw [result_orElse, result_orElse]
  generalize (x s).result = read, (x t).result = read' at hst
  cases hst with
  | none => exact hy s t h
  | some hr => exact .some hr

theorem refuse : Respects P Q (refuse : Recognizer α) := fun _ _ _ => .none

/-- What one of two related texts is read as, the other is too. -/
theorem exists_result (hx : Respects P Q x) {s t rest : List Char} {a : α} (h : P s t)
    (hs : (x s).result = some (a, rest)) :
    ∃ rest', (x t).result = some (a, rest') ∧ Q rest rest' := by
  have hst := hx s t h
  rw [hs] at hst
  generalize (x t).result = read at hst
  cases hst with
  | @some _ r hr =>
    obtain ⟨b, rest'⟩ := r
    obtain ⟨rfl, hrest⟩ : a = b ∧ Q rest rest' := hr
    exact ⟨rest', rfl, hrest⟩

end Respects

end Recognizer

namespace Grammar

open Recognizer

inductive Token where
  | name (a : Atom)
  | number (x : Number)
  /-- A single character, in its `canonical` form. -/
  | mark (c : Char)
deriving DecidableEq

/-- The line feed stands for all separators. -/
def canonical (c : Char) : Char := if isSeparator c then '\n' else c

/-- The token that a text without layout in front starts with. -/
def firstToken? : List Char → Option (Token × List Char)
  | [] => none
  | c :: rest =>
    ((scanIdentifier (c :: rest)).map fun r => (.name r.1, r.2)).or <|
      ((Decimal.scan (c :: rest)).map fun r => (.number r.1.toNumber, r.2)).or
        (some (.mark (canonical c), rest))

/-- The characters of names and decimals. -/
def isWord (c : Char) : Bool := isNamePart c || Decimal.isNumeral c

/-- The text starts with something that is not layout, if at all. -/
abbrev IsPlain (text : List Char) : Prop := StartsPlain (fun _ => false) text

variable {text rest s t : List Char} {token : Token} {c : Char}

section FirstToken

/-- No decimal starts like a name. -/
theorem scan_eq_none_of_isNameStart (h : isNameStart c = true) :
    Decimal.scan (c :: rest) = none := by
  have hother : ∀ d, isNameStart d = false → c ≠ d := by
    rintro d hd rfl
    rw [hd] at h
    cases h
  have hdigit : c.isDigit = false := by
    rw [← Bool.not_eq_true]
    intro hdigit
    rw [(plain_of_isDigit (.inr hdigit)).1] at h
    cases h
  have hsign : Decimal.scanSign (c :: rest) = (false, c :: rest) := by
    simp [Decimal.scanSign, hother '-' (by decide), hother '+' (by decide)]
  have hfraction : Decimal.scanFraction (c :: rest) = ([], c :: rest) := by
    simp [Decimal.scanFraction, hother '.' (by decide)]
  simp [Decimal.scan, hsign, hdigit, hfraction]

theorem firstToken?_of_scanIdentifier {a : Atom} (h : scanIdentifier text = some (a, rest)) :
    firstToken? text = some (.name a, rest) := by
  cases text with
  | nil => cases h
  | cons c text => rw [firstToken?, h, Option.map_some, Option.some_or]

theorem firstToken?_of_scan {d : Decimal} (h : Decimal.scan text = some (d, rest)) :
    firstToken? text = some (.number d.toNumber, rest) := by
  cases text with
  | nil => cases h
  | cons c text =>
    have hname : isNameStart c = false := by
      rw [← Bool.not_eq_true]
      intro hc
      rw [scan_eq_none_of_isNameStart hc] at h
      cases h
    rw [firstToken?, h, scanIdentifier_eq_none hname]
    rfl

theorem firstToken?_of_not_isWord (h : isWord c = false) :
    firstToken? (c :: rest) = some (.mark (canonical c), rest) := by
  rw [isWord, Bool.or_eq_false_iff] at h
  have hnumeral : ∀ d ∈ (c :: rest).head?, Decimal.isNumeral d = false := by
    rintro _ ⟨⟩
    exact h.2
  have hscan : Decimal.scan ([] ++ c :: rest) = none := Decimal.scan_append hnumeral
  rw [List.nil_append] at hscan
  rw [firstToken?, scanIdentifier_eq_none (isNameStart_eq_false h.1), hscan]
  rfl

/-- The first token is a name, a number or a character. -/
theorem firstToken?_cases (h : firstToken? text = some (token, rest)) :
    (∃ a, scanIdentifier text = some (a, rest) ∧ token = .name a) ∨
      (∃ d, Decimal.scan text = some (d, rest) ∧ token = .number d.toNumber) ∨
        ∃ c, text = c :: rest ∧ token = .mark (canonical c) := by
  cases text with
  | nil => cases h
  | cons c text =>
    rw [firstToken?, Option.or_eq_some_iff, Option.or_eq_some_iff] at h
    rcases h with h | ⟨-, h | ⟨-, h⟩⟩
    · obtain ⟨r, hr, heq⟩ := Option.map_eq_some_iff.mp h
      cases heq
      exact .inl ⟨r.1, hr, rfl⟩
    · obtain ⟨r, hr, heq⟩ := Option.map_eq_some_iff.mp h
      cases heq
      exact .inr (.inl ⟨r.1, hr, rfl⟩)
    · cases h
      exact .inr (.inr ⟨c, rfl, rfl⟩)

/-- The first token is some characters at the front of a text, and no comment starts in it. -/
theorem exists_append_of_firstToken? (h : firstToken? text = some (token, rest)) :
    ∃ front, text = front ++ rest ∧ front ≠ [] ∧ (IsPlain text → '#' ∉ front) := by
  rcases firstToken?_cases h with ⟨a, ha, -⟩ | ⟨d, hd, -⟩ | ⟨c, rfl, -⟩
  · cases text with
    | nil => cases ha
    | cons c text =>
      rw [scanIdentifier] at ha
      split at ha
      · rename_i hc
        cases ha
        refine ⟨c :: text.takeWhile isNamePart, ?_, List.cons_ne_nil _ _, fun _ hmem => ?_⟩
        · rw [List.cons_append, List.takeWhile_append_dropWhile]
        · rcases List.mem_cons.mp hmem with rfl | hmem
          · cases hc
          · cases (List.mem_takeWhile_imp hmem : isNamePart '#' = true)
      · cases ha
  · obtain ⟨⟨front, htext, hfront⟩, hlength⟩ := Decimal.leaves_scan hd
    refine ⟨front, htext, ?_, fun _ hmem => ?_⟩
    · rintro rfl
      rw [htext] at hlength
      exact absurd hlength (Nat.lt_irrefl _)
    · cases (hfront '#' hmem : Decimal.isNumeral '#' = true)
  · refine ⟨[c], rfl, List.cons_ne_nil _ _, fun hplain hmem => ?_⟩
    exact (hplain c rfl).2.2 (List.mem_singleton.mp hmem).symm

theorem exists_firstToken? (c : Char) (rest : List Char) :
    ∃ r, firstToken? (c :: rest) = some r := by
  rw [firstToken?]
  cases scanIdentifier (c :: rest) with
  | some r => exact ⟨_, rfl⟩
  | none =>
    cases Decimal.scan (c :: rest) with
    | some r => exact ⟨_, rfl⟩
    | none => exact ⟨_, rfl⟩

theorem eq_nil_of_firstToken? (h : firstToken? text = none) : text = [] := by
  cases text with
  | nil => rfl
  | cons c text =>
    obtain ⟨r, hr⟩ := exists_firstToken? c text
    rw [hr] at h
    cases h

theorem length_lt_of_firstToken? (h : firstToken? text = some (token, rest)) :
    rest.length < text.length := by
  obtain ⟨front, rfl, hfront, -⟩ := exists_append_of_firstToken? h
  rw [List.length_append]
  exact Nat.lt_add_of_pos_left (List.length_pos_of_ne_nil hfront)

end FirstToken

section Tokens

/-- The tokens of a text. -/
def tokens (text : List Char) : List Token :=
  match _h : firstToken? (pastLayout text) with
  | none => []
  | some (token, rest) => token :: tokens rest
termination_by text.length
decreasing_by exact (length_lt_of_firstToken? _h).trans_le (length_pastLayout_le text)

theorem isPlain_pastLayout (text : List Char) : IsPlain (pastLayout text) :=
  startsPlain_dropLayout _ _ _

theorem tokens_eq (text : List Char) :
    tokens text = (firstToken? (pastLayout text)).elim [] fun r => r.1 :: tokens r.2 := by
  rw [tokens]
  split
  · rename_i h
    rw [h]
    rfl
  · rename_i h
    rw [h]
    rfl

theorem tokens_of_isPlain (h : IsPlain text) :
    tokens text = (firstToken? text).elim [] fun r => r.1 :: tokens r.2 := by
  rw [tokens_eq, pastLayout, dropLayout_eq h]

/-- Layout in front makes no difference. -/
theorem tokens_pastLayout (text : List Char) : tokens (pastLayout text) = tokens text := by
  rw [tokens_of_isPlain (isPlain_pastLayout text), ← tokens_eq]

theorem eq_nil_of_tokens_eq_nil (hplain : IsPlain text) (h : tokens text = []) : text = [] := by
  refine eq_nil_of_firstToken? ?_
  rw [tokens_of_isPlain hplain] at h
  cases hfirst : firstToken? text with
  | none => rfl
  | some r =>
    rw [hfirst] at h
    cases h

theorem tokens_cons_of_not_isWord (hword : isWord c = false) (hplain : IsPlain (c :: rest)) :
    tokens (c :: rest) = .mark (canonical c) :: tokens rest := by
  rw [tokens_of_isPlain hplain, firstToken?_of_not_isWord hword]
  rfl

theorem not_isWord_of_isSeparator (h : isSeparator c = true) : isWord c = false := by
  rw [isSeparator, Bool.or_eq_true, beq_iff_eq, beq_iff_eq] at h
  rcases h with rfl | rfl <;> decide

theorem canonical_eq_lineFeed_iff : canonical c = '\n' ↔ isSeparator c = true := by
  rw [canonical]
  split
  · rename_i hc
    exact ⟨fun _ => hc, fun _ => rfl⟩
  · rename_i hc
    refine ⟨?_, fun h => absurd h hc⟩
    rintro rfl
    exact absurd rfl hc

theorem firstToken?_separator_iff : firstToken? text = some (.mark '\n', rest) ↔
    ∃ c, text = c :: rest ∧ isSeparator c = true := by
  constructor
  · intro h
    rcases firstToken?_cases h with ⟨a, -, heq⟩ | ⟨d, -, heq⟩ | ⟨c, rfl, heq⟩
    · cases heq
    · cases heq
    · exact ⟨c, rfl, canonical_eq_lineFeed_iff.mp (Token.mark.inj heq).symm⟩
  · rintro ⟨c, rfl, hc⟩
    rw [firstToken?_of_not_isWord (not_isWord_of_isSeparator hc), canonical, if_pos hc]

/-- A gap is layout and separators. -/
theorem tokens_pastGap (text : List Char) :
    tokens (pastGap text) = (tokens text).dropWhile (· = .mark '\n') := by
  fun_induction tokens text with
  | case1 text h =>
    rw [← pastGap_pastLayout, eq_nil_of_firstToken? h, tokens_eq]
    rfl
  | case2 text token rest h ih =>
    by_cases htoken : token = .mark '\n'
    · subst htoken
      obtain ⟨c, hlayout, hc⟩ := firstToken?_separator_iff.mp h
      rw [pastGap_of_pastLayout hlayout, if_pos hc, ih, List.dropWhile_cons_of_pos (by simp)]
    · have hseparator : ¬∃ c next, pastLayout text = c :: next ∧ isSeparator c = true := by
        rintro ⟨c, next, hlayout, hc⟩
        have hfirst := firstToken?_separator_iff.mpr ⟨c, hlayout, hc⟩
        rw [h] at hfirst
        cases hfirst
        exact htoken rfl
      rw [(pastGap_of_not_separator hseparator).2, tokens_pastLayout, tokens_eq, h,
        List.dropWhile_cons_of_neg (by simpa using htoken)]
      rfl

end Tokens

section Rules

/-- The texts have the same tokens. -/
def Alike (s t : List Char) : Prop := tokens s = tokens t

/-- The texts have the same tokens and start with the first. -/
structure Aligned (s t : List Char) : Prop where
  left : IsPlain s
  right : IsPlain t
  alike : Alike s t

variable {α : Type} {x : Recognizer α} {f : Token → Option α}

/-- The recognizer reads those first tokens that have a value. -/
def ReadsToken (x : Recognizer α) (f : Token → Option α) : Prop := ∀ text a rest,
  (x text).result = some (a, rest) ↔
    ∃ token, firstToken? text = some (token, rest) ∧ f token = some a

theorem ReadsToken.exists_result (hx : ReadsToken x f) (h : Aligned s t) {a : α}
    (hs : (x s).result = some (a, rest)) :
    ∃ rest', (x t).result = some (a, rest') ∧ Alike rest rest' := by
  obtain ⟨token, hfirst, ha⟩ := (hx s a rest).mp hs
  have hst := h.alike
  rw [Alike, tokens_of_isPlain h.left, tokens_of_isPlain h.right, hfirst] at hst
  cases hfirst' : firstToken? t with
  | none =>
    rw [hfirst'] at hst
    cases hst
  | some r =>
    obtain ⟨token', rest'⟩ := r
    rw [hfirst'] at hst
    obtain ⟨rfl, hrest⟩ : token = token' ∧ tokens rest = tokens rest' := List.cons_eq_cons.mp hst
    exact ⟨rest', (hx t a rest').mpr ⟨token, hfirst', ha⟩, hrest⟩

theorem Aligned.symm (h : Aligned s t) : Aligned t s := ⟨h.right, h.left, h.alike.symm⟩

theorem ReadsToken.respects (hx : ReadsToken x f) : Respects Aligned Alike x := by
  intro s t h
  cases hs : (x s).result with
  | none =>
    cases ht : (x t).result with
    | none => exact .none
    | some r =>
      obtain ⟨rest, hrest, -⟩ := hx.exists_result h.symm ht
      rw [hs] at hrest
      cases hrest
  | some r =>
    obtain ⟨rest, hrest, halike⟩ := hx.exists_result h hs
    rw [hrest]
    exact .some ⟨rfl, halike⟩

/-- The name that a token is. -/
def Token.name? : Token → Option Atom
  | .name a => some a
  | _ => none

/-- The expression that a number is. -/
def Token.number? : Token → Option Arg
  | .number x => some (.number x)
  | _ => none

/-- Whether a token is a given character. -/
def Token.mark? (c : Char) : Token → Option Unit
  | .mark d => if d = c then some () else none
  | _ => none

theorem readsToken_identifier : ReadsToken identifier Token.name? := by
  intro text a rest
  change scanIdentifier text = some (a, rest) ↔ _
  constructor
  · exact fun h => ⟨_, firstToken?_of_scanIdentifier h, rfl⟩
  · rintro ⟨token, hfirst, htoken⟩
    rcases firstToken?_cases hfirst with ⟨b, hb, rfl⟩ | ⟨d, -, rfl⟩ | ⟨c, -, rfl⟩
    · cases htoken
      exact hb
    · cases htoken
    · cases htoken

theorem readsToken_number : ReadsToken number Token.number? := by
  intro text a rest
  change (Decimal.scan text).map _ = some (a, rest) ↔ _
  constructor
  · intro h
    obtain ⟨r, hr, heq⟩ := Option.map_eq_some_iff.mp h
    cases heq
    exact ⟨_, firstToken?_of_scan hr, rfl⟩
  · rintro ⟨token, hfirst, htoken⟩
    rcases firstToken?_cases hfirst with ⟨b, -, rfl⟩ | ⟨d, hd, rfl⟩ | ⟨c, -, rfl⟩
    · cases htoken
    · cases htoken
      rw [hd]
      rfl
    · cases htoken

/-- A character that is no part of names and decimals is read by its token. -/
theorem readsToken_oneOf {p : Char → Bool} (hword : ∀ d, p d = true → isWord d = false)
    (hp : ∀ d, p d = true ↔ canonical d = c) : ReadsToken (oneOf p) (Token.mark? c) := by
  intro text _ rest
  constructor
  · intro h
    cases text with
    | nil => cases h
    | cons d text =>
      change (if p d then some ((), text) else none) = some ((), rest) at h
      split at h
      · rename_i hd
        cases h
        exact ⟨_, firstToken?_of_not_isWord (hword d hd), if_pos ((hp d).mp hd)⟩
      · cases h
  · rintro ⟨token, hfirst, htoken⟩
    rcases firstToken?_cases hfirst with ⟨b, -, rfl⟩ | ⟨d, -, rfl⟩ | ⟨d, rfl, rfl⟩
    · cases htoken
    · cases htoken
    · rw [Token.mark?] at htoken
      split at htoken
      · rename_i hd
        change (if p d then some ((), rest) else none) = some ((), rest)
        rw [if_pos ((hp d).mpr hd)]
      · cases htoken

theorem aligned_pastLayout (h : Alike s t) : Aligned (pastLayout s) (pastLayout t) := by
  refine ⟨isPlain_pastLayout s, isPlain_pastLayout t, ?_⟩
  rw [Alike, tokens_pastLayout, tokens_pastLayout]
  exact h

theorem aligned_pastGap (h : Alike s t) : Aligned (pastGap s) (pastGap t) := by
  refine ⟨(startsPlain_dropLayout _ _ _).mono, (startsPlain_dropLayout _ _ _).mono, ?_⟩
  rw [Alike, tokens_pastGap, tokens_pastGap, h]

theorem respects_layout : Respects Alike Aligned layout := fun _ _ h =>
  .some ⟨rfl, aligned_pastLayout h⟩

theorem respects_symbol (hword : isWord c = false) (hc : isSeparator c = false) :
    Respects Aligned Alike (symbol c) := by
  refine (readsToken_oneOf (c := c) (fun d hd => ?_) fun d => ?_).respects
  · rwa [beq_iff_eq.mp hd]
  · rw [beq_iff_eq, canonical]
    split
    · rename_i hd
      have hfeed : '\n' ≠ c := by
        rintro rfl
        cases hc
      refine ⟨fun hdc => ?_, fun hfeed' => absurd hfeed' hfeed⟩
      rw [hdc, hc] at hd
      cases hd
    · rfl

theorem respects_separator : Respects Aligned Alike separator :=
  (readsToken_oneOf (fun _ => not_isWord_of_isSeparator)
    fun _ => canonical_eq_lineFeed_iff.symm).respects

theorem respects_delimiter (hword : isWord c = false) (hc : isSeparator c = false) :
    Respects Alike Aligned (delimiter c) :=
  respects_layout.bind fun _ => (respects_symbol hword hc).bind fun _ => respects_layout

theorem respects_expression (depth : Nat) :
    Respects Aligned Alike (expression depth) ∧ Respects Alike Alike (arguments depth) := by
  induction depth with
  | zero => exact ⟨.refuse, .pure _⟩
  | succ depth ih =>
    constructor
    · rw [expression]
      have hreference : Respects Aligned Alike reference :=
        readsToken_identifier.respects.bind fun _ => .pure _
      refine .orElse ?_ (.orElse hreference readsToken_number.respects)
      refine readsToken_identifier.respects.bind fun head => ?_
      refine (respects_delimiter (by decide) (by decide)).bind fun _ => ih.1.bind fun first => ?_
      refine ih.2.bind fun rest => respects_layout.bind fun _ => ?_
      exact (respects_symbol (by decide) (by decide)).bind fun _ => .pure _
    · rw [arguments]
      refine .orElse ?_ (.pure _)
      refine (respects_delimiter (by decide) (by decide)).bind fun _ => ih.1.bind fun argument => ?_
      exact ih.2.bind fun rest => .pure _

theorem respects_equation : Respects Aligned Alike equation := by
  intro s t h
  have hrespects : Respects Aligned Alike (equationWithin (s.length + t.length + 1)) :=
    readsToken_identifier.respects.bind fun _ =>
      (respects_delimiter (by decide) (by decide)).bind fun _ =>
        (respects_expression _).1.bind fun _ => .pure _
  have hst := hrespects s t h
  rwa [result_equation (by omega), result_equation (by omega)] at hst

end Rules

section Texts

variable {es : List (Atom × Term)}

theorem Aligned.eq_nil (h : Aligned s t) (hs : s = []) : t = [] := by
  subst hs
  refine eq_nil_of_tokens_eq_nil h.right (h.alike.symm.trans ?_)
  rw [tokens_eq]
  rfl

/-- A text is made up of the equations that its tokens make up. -/
theorem Spells.of_alike (h : Spells s es) (hst : Alike s t) : Spells t es := by
  induction h generalizing t with
  | @empty s h => exact .empty ((aligned_pastGap hst).eq_nil h)
  | @last s rest e he hend =>
    obtain ⟨rest', he', hrest⟩ := respects_equation.exists_result (aligned_pastGap hst) he
    exact .last he' ((aligned_pastLayout hrest).eq_nil hend)
  | @cons s rest next e c es he hnext hc _ ih =>
    obtain ⟨rest', he', hrest⟩ := respects_equation.exists_result (aligned_pastGap hst) he
    have hseparator : (separator (pastLayout rest)).result = some ((), next) := by
      rw [hnext, result_separator, if_pos hc]
    obtain ⟨next', hnext', hes⟩ :=
      respects_separator.exists_result (aligned_pastLayout hrest) hseparator
    cases hlayout : pastLayout rest' with
    | nil =>
      rw [hlayout] at hnext'
      cases hnext'
    | cons c' next'' =>
      rw [hlayout, result_separator] at hnext'
      split at hnext'
      · rename_i hc'
        cases hnext'
        exact .cons he' hlayout hc' (ih hes)
      · cases hnext'

end Texts

end Grammar

/-- Texts with the same tokens are both no circuit, or the same one. -/
theorem EquationSet.parse_of_tokens_eq {s t : List Char}
    (h : Grammar.tokens s = Grammar.tokens t) :
    (EquationSet.parse s).toOption = (EquationSet.parse t).toOption := by
  have hparse : ∀ e, EquationSet.parse s = .ok e ↔ EquationSet.parse t = .ok e := fun e => by
    rw [EquationSet.parse_eq_ok_iff, EquationSet.parse_eq_ok_iff]
    exact exists_congr fun es =>
      and_congr_left fun _ => ⟨fun hs => hs.of_alike h, fun ht => ht.of_alike h.symm⟩
  cases hs : EquationSet.parse s with
  | ok e => rw [(hparse e).mp hs]
  | error fault =>
    cases ht : EquationSet.parse t with
    | ok e =>
      rw [(hparse e).mpr ht] at hs
      cases hs
    | error fault' => rfl

end DiffAnalyzer
