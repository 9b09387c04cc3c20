import DiffAnalyzer.Source.Span
import Mathlib

/-!
# The lines around a span

Offsets between characters cut a text into what stands before and behind them (`cut_eq_ok_iff`),
and two of them make a region.  The lines of a span are the excerpt of its region
(`Region.lines_span`): no part of the text is taken at a wrong offset, whole lines come out, and the
range in them is the span, or the character beside it if the span is empty (`Span.lines_covers`).
-/

namespace DiffAnalyzer

variable {text before after : List Char} {offset : Nat}

@[simp] theorem utf8Size_nil : utf8Size [] = 0 := rfl

@[simp] theorem utf8Size_cons (c : Char) (text : List Char) :
    utf8Size (c :: text) = c.utf8Size + utf8Size text := rfl

@[simp] theorem utf8Size_append (text rest : List Char) :
    utf8Size (text ++ rest) = utf8Size text + utf8Size rest := by
  induction text with
  | nil => simp
  | cons c text ih => simp [ih, Nat.add_assoc]

theorem utf8Size_eq_zero_iff : utf8Size text = 0 ↔ text = [] := by
  cases text with
  | nil => simp
  | cons c text => simp [(Char.utf8Size_pos c).ne']

/-- The offset is between two characters of the text, or at one of its ends. -/
def IsBoundary (text : List Char) (offset : Nat) : Prop :=
  ∃ before after, text = before ++ after ∧ utf8Size before = offset

section Cuts

theorem cut?_append (before after : List Char) :
    cut? (before ++ after) (utf8Size before) = some (before, after) := by
  induction before with
  | nil => cases after <;> rfl
  | cons c before ih =>
    rw [List.cons_append, cut?, utf8Size_cons, if_pos (Nat.le_add_right ..),
      Nat.add_sub_cancel_left, ih]
    · rfl
    · exact fun h => List.cons_ne_nil c before (utf8Size_eq_zero_iff.mp h)

theorem append_of_cut?_eq_some {parts : List Char × List Char}
    (h : cut? text offset = some parts) :
    text = parts.1 ++ parts.2 ∧ utf8Size parts.1 = offset := by
  induction text, offset using cut?.induct generalizing parts with
  | case1 text => cases text <;> cases h <;> exact ⟨rfl, rfl⟩
  | case2 offset => cases h
  | case3 offset c rest hne hle ih =>
    rw [cut?, if_pos hle, Option.map_eq_some_iff] at h
    · obtain ⟨parts, hrest, rfl⟩ := h
      obtain ⟨rfl, hsize⟩ := ih hrest
      exact ⟨rfl, by rw [utf8Size_cons, hsize, Nat.add_sub_cancel' hle]⟩
    · exact hne
  | case4 offset c rest hne hlt =>
    rw [cut?, if_neg hlt] at h
    · cases h
    · exact hne

theorem cut_append (before after : List Char) :
    cut (before ++ after) (utf8Size before) = .ok (before, after) := by
  rw [cut, cut?_append]

/-- A text can be cut between its characters and nowhere else. -/
theorem cut_eq_ok_iff :
    cut text offset = .ok (before, after) ↔ text = before ++ after ∧ utf8Size before = offset := by
  constructor
  · intro h
    rw [cut] at h
    split at h
    · rename_i parts hcut
      cases h
      exact append_of_cut?_eq_some hcut
    · cases h
  · rintro ⟨rfl, rfl⟩
    exact cut_append before after

/-- The part between two offsets is what stands between two parts of their sizes. -/
theorem slice_append (before inside after : List Char) :
    slice (before ++ inside ++ after) (utf8Size before) (utf8Size before + utf8Size inside) =
      .ok inside := by
  rw [slice, ← utf8Size_append, cut_append]
  change (cut (before ++ inside) (utf8Size before) >>= fun parts => pure parts.2) = _
  rw [cut_append]
  rfl

end Cuts

section LineEnds

theorem fullLines_eq_nil_or (text : List Char) :
    fullLines text = [] ∨ (fullLines text).getLast? = some '\n' := by
  rw [fullLines, List.getLast?_reverse, List.reverse_eq_nil_iff]
  cases h : text.reverse.dropWhile (· != '\n') with
  | nil => exact .inl rfl
  | cons c rest =>
    have hc := List.head?_dropWhile_not (· != '\n') text.reverse
    rw [h] at hc
    exact .inr (congrArg some (by simpa using hc))

/-- The first line ends with a line feed, unless nothing follows it. -/
theorem exists_firstLine_append (text : List Char) : ∃ rest, firstLine text ++ rest = text ∧
    (rest = [] ∨ (firstLine text).getLast? = some '\n') := by
  induction text with
  | nil => exact ⟨[], rfl, .inl rfl⟩
  | cons c text ih =>
    by_cases hc : c = '\n'
    · rw [firstLine, if_pos hc]
      exact ⟨text, rfl, .inr (congrArg some hc)⟩
    · obtain ⟨rest, htext, hend⟩ := ih
      rw [firstLine, if_neg hc]
      refine ⟨rest, by rw [List.cons_append, htext], hend.imp_right fun hlast => ?_⟩
      rw [List.getLast?_cons, hlast]
      rfl

end LineEnds

namespace Span

/-- The region that a span marks in its text. -/
inductive Marks (s : Span) : Region → Prop
  /-- A span that is not empty marks its own text. -/
  | own {r : Region} (h : s = r.span) (ne : r.inside ≠ []) : Marks s r
  /-- An empty span marks the character behind it. -/
  | next {before after : List Char} {c : Char} (h : s = Region.span ⟨before, [], c :: after⟩) :
    Marks s ⟨before, [c], after⟩
  /-- An empty span at the end marks the last character. -/
  | last {before : List Char} {c : Char} (h : s = Region.span ⟨before ++ [c], [], []⟩) :
    Marks s ⟨before, [c], []⟩
  /-- There is nothing to mark in an empty text. -/
  | nothing (h : s = Region.span ⟨[], [], []⟩) : Marks s ⟨[], [], []⟩

end Span

namespace Region

variable {r : Region}

/-- Two offsets in their order make a region. -/
theorem exists_span_eq {s : Span} (hstart : IsBoundary s.source s.start)
    (hstop : IsBoundary s.source s.stop) (hle : s.start ≤ s.stop) : ∃ r : Region, s = r.span := by
  obtain ⟨source, start, stop⟩ := s
  obtain ⟨before, rest, rfl, rfl⟩ := hstart
  obtain ⟨front, after, hsource, rfl⟩ := hstop
  dsimp only at hsource hle
  rcases List.prefix_or_prefix_of_prefix (hsource ▸ List.prefix_append before rest)
    (List.prefix_append front after) with ⟨inside, rfl⟩ | ⟨inside, rfl⟩
  · rw [List.append_assoc, List.append_cancel_left_eq] at hsource
    refine ⟨⟨before, inside, after⟩, ?_⟩
    rw [span, text, hsource, utf8Size_append, List.append_assoc]
  · rw [utf8Size_append] at hle
    have hinside : inside = [] := utf8Size_eq_zero_iff.mp (by omega)
    rw [hinside, List.append_nil] at hsource ⊢
    refine ⟨⟨front, [], rest⟩, ?_⟩
    rw [span, text, List.append_nil]
    rfl

/-- A span marks what is visible of its region. -/
theorem marks_visible (r : Region) : r.span.Marks r.visible := by
  obtain ⟨before, inside, after⟩ := r
  cases inside with
  | cons c inside => exact .own rfl (List.cons_ne_nil c inside)
  | nil =>
    cases after with
    | cons c after => exact .next rfl
    | nil =>
      rcases List.eq_nil_or_concat' before with rfl | ⟨before, c, rfl⟩
      · exact .nothing rfl
      · have hvisible : visible ⟨before ++ [c], [], []⟩ = ⟨before, [c], []⟩ := by
          simp only [visible, List.getLast?_concat, List.dropLast_concat]
        rw [hvisible]
        exact .last rfl

theorem span_stop_le (r : Region) : r.span.stop ≤ utf8Size r.span.source := by
  rw [span, text, utf8Size_append, utf8Size_append]
  exact Nat.le_add_right _ _

theorem span_start_le_stop (r : Region) : r.span.start ≤ r.span.stop := Nat.le_add_right _ _

theorem span_start_lt_stop_iff : r.span.start < r.span.stop ↔ r.inside ≠ [] := by
  rw [span, Nat.lt_add_right_iff_pos, Nat.pos_iff_ne_zero, Ne, utf8Size_eq_zero_iff]

theorem cut_span_start (r : Region) :
    cut r.span.source r.span.start = .ok (r.before, r.inside ++ r.after) := by
  rw [span, text, List.append_assoc, cut_append]

theorem cut_span_stop (r : Region) :
    cut r.span.source r.span.stop = .ok (r.before ++ r.inside, r.after) := by
  rw [span, text, ← utf8Size_append, cut_append]

/-- The text in three parts, the second one on whole lines. -/
theorem exists_text_eq (r : Region) : ∃ rest,
    (rest = [] ∨ (firstLine r.after).getLast? = some '\n') ∧
    r.text = fullLines r.before ++ (lastLine r.before ++ r.inside ++ firstLine r.after) ++ rest := by
  obtain ⟨rest, hafter, hend⟩ := exists_firstLine_append r.after
  refine ⟨rest, hend, ?_⟩
  calc r.text
      = (fullLines r.before ++ lastLine r.before) ++ r.inside ++ (firstLine r.after ++ rest) := by
        rw [fullLines_append_lastLine, hafter, text]
    _ = _ := by simp only [List.append_assoc]

end Region

namespace Span

variable {s : Span} {r : Region}

/-- The empty span and the others are told apart behind the clamping. -/
theorem clamp_span (r : Region) :
    max r.span.start (min r.span.stop (utf8Size r.span.source)) = r.span.stop := by
  rw [min_eq_left r.span_stop_le, max_eq_right r.span_start_le_stop]

namespace Marks

theorem source_eq (h : s.Marks r) : s.source = r.span.source := by
  cases h with
  | own h ne => rw [h]
  | next h => rw [h]; simp [Region.span, Region.text]
  | last h => rw [h]; simp [Region.span, Region.text]
  | nothing h => rw [h]

theorem start_le (h : s.Marks r) : s.start ≤ utf8Size s.source := by
  obtain ⟨r', rfl⟩ : ∃ r' : Region, s = r'.span := by
    cases h with
    | own h | next h | last h | nothing h => exact ⟨_, h⟩
  exact r'.span_start_le_stop.trans r'.span_stop_le

/-- The ends of what a span marks are found without a cut inside a character. -/
theorem visible_eq (h : s.Marks r) : s.visible = .ok (r.span.start, r.span.stop) := by
  have hempty (before after : List Char) :
      ¬(Region.span ⟨before, [], after⟩).start < (Region.span ⟨before, [], after⟩).stop :=
    fun hlt => Region.span_start_lt_stop_iff.mp hlt rfl
  cases h with
  | own h ne =>
    rw [h, visible, clamp_span, if_pos (Region.span_start_lt_stop_iff.mpr ne)]
    rfl
  | next h =>
    rw [h, visible, clamp_span, if_neg (hempty _ _), Region.cut_span_stop]
    rfl
  | last h =>
    rw [h, visible, clamp_span, if_neg (hempty _ _), Region.cut_span_stop]
    simp [bind, Except.bind, pure, Except.pure, Region.span]
  | nothing h => rw [h]; rfl

/-- A span is inside its text, so it has lines: what its region is widened to. -/
theorem lines_eq (h : s.Marks r) : s.lines = .ok (some
    ⟨lastLine r.before ++ r.inside ++ firstLine r.after, (fullLines r.before).count '\n' + 1,
      utf8Size (lastLine r.before), utf8Size (lastLine r.before) + utf8Size r.inside⟩) := by
  obtain ⟨rest, -, htext⟩ := r.exists_text_eq
  have hstart : r.span.start = utf8Size (fullLines r.before) + utf8Size (lastLine r.before) := by
    rw [← utf8Size_append, fullLines_append_lastLine, Region.span]
  have hstop : r.span.stop = utf8Size (fullLines r.before) +
      (utf8Size (lastLine r.before) + utf8Size r.inside) := by
    rw [← Nat.add_assoc, ← hstart]
    rfl
  have hfirst : cut r.span.source (utf8Size (fullLines r.before)) =
      .ok (fullLines r.before, lastLine r.before ++ r.inside ++ firstLine r.after ++ rest) := by
    rw [Region.span, htext, List.append_assoc, cut_append]
  have hslice : slice r.span.source (utf8Size (fullLines r.before))
      (r.span.stop + utf8Size (firstLine r.after)) =
      .ok (lastLine r.before ++ r.inside ++ firstLine r.after) := by
    have hend : r.span.stop + utf8Size (firstLine r.after) = utf8Size (fullLines r.before) +
        utf8Size (lastLine r.before ++ r.inside ++ firstLine r.after) := by
      rw [hstop, utf8Size_append, utf8Size_append, Nat.add_assoc]
    rw [hend, Region.span, htext, slice_append]
  rw [lines, if_neg (not_lt.mpr h.start_le), h.visible_eq, h.source_eq]
  simp only [bind, Except.bind, r.cut_span_start, r.cut_span_stop, hfirst, hslice]
  rw [hstart, hstop, Nat.add_sub_cancel_left, Nat.add_sub_cancel_left]
  rfl

end Marks

end Span

/-- The lines of the span of a region are its excerpt. -/
theorem Region.lines_span (r : Region) :
    r.span.lines = .ok (some ⟨r.excerpt.text, r.excerpt.lineNumber, r.excerpt.byteRange⟩) :=
  r.marks_visible.lines_eq

/-- The lines are a part of the text between line ends, and their range is the region that the span
marks. -/
structure Lines.Covers (l : Lines) (s : Span) (before after : List Char) (r : Region) : Prop where
  source : s.source = before ++ l.text ++ after
  starts : before = [] ∨ before.getLast? = some '\n'
  ends : after = [] ∨ l.text.getLast? = some '\n'
  number : l.number = before.count '\n' + 1
  marks : s.Marks r
  start : utf8Size before + l.range.1 = utf8Size r.before
  inside : slice l.text l.range.1 l.range.2 = .ok r.inside
  range_le : l.range.1 ≤ l.range.2 ∧ l.range.2 ≤ utf8Size l.text

namespace Span

variable {s : Span} {r : Region}

theorem Marks.exists_lines (h : s.Marks r) :
    ∃ l before after, s.lines = .ok (some l) ∧ l.Covers s before after r := by
  obtain ⟨rest, hend, htext⟩ := r.exists_text_eq
  refine ⟨_, fullLines r.before, rest, h.lines_eq, {
    source := h.source_eq.trans htext
    starts := fullLines_eq_nil_or r.before
    ends := ?ends
    number := rfl
    marks := h
    start := ?start
    inside := slice_append ..
    range_le := ⟨Nat.le_add_right .., ?stop⟩ }⟩
  case ends =>
    refine hend.imp_right fun hlast => ?_
    rw [List.getLast?_append, hlast]
    rfl
  case start => rw [← utf8Size_append, fullLines_append_lastLine]
  case stop =>
    rw [utf8Size_append, utf8Size_append]
    exact Nat.le_add_right ..

/-- A span between characters of its text has lines, and they cover it. -/
theorem lines_covers {s : Span} (hstart : IsBoundary s.source s.start)
    (hstop : IsBoundary s.source s.stop) (hle : s.start ≤ s.stop) :
    ∃ l before after r, s.lines = .ok (some l) ∧ l.Covers s before after r := by
  obtain ⟨r, rfl⟩ := Region.exists_span_eq hstart hstop hle
  obtain ⟨l, before, after, hlines, hcovers⟩ := r.marks_visible.exists_lines
  exact ⟨l, before, after, r.visible, hlines, hcovers⟩

/-- At the end of a text the last character is covered, whatever its size. -/
theorem lines_covers_last_character :
    (IsBoundary ['é', '\n', '日'] 6 ∧ 6 ≤ 6) ∧ ∃ l before after r,
      (Span.mk ['é', '\n', '日'] 6 6).lines = .ok (some l) ∧
      l.Covers ⟨['é', '\n', '日'], 6, 6⟩ before after r := by
  have hend : IsBoundary ['é', '\n', '日'] 6 := ⟨['é', '\n', '日'], [], rfl, rfl⟩
  exact ⟨⟨hend, le_refl 6⟩, lines_covers hend hend (le_refl 6)⟩

example : (Span.mk ['é', '\n', '日'] 6 6).lines = .ok (some ⟨['日'], 2, 0, 3⟩) := rfl

end Span

end DiffAnalyzer
