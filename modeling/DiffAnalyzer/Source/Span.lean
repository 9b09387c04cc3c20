import DiffAnalyzer.Source.Region

/-!
# Spans of a text

A span is a part of a text between two offsets, counted in bytes.  A text can be cut between its
characters only, and whatever takes a part of it by offsets fails at other ones.  `Span.lines`
widens a span to whole lines.
-/

namespace DiffAnalyzer

/-- The offset is inside a character or behind the end, so that the text cannot be cut there. -/
structure CutError where
  offset : Nat
deriving DecidableEq, Repr

/-- What stands before a byte offset and what behind it. -/
def cut? : List Char → Nat → Option (List Char × List Char)
  | text, 0 => some ([], text)
  | [], _ + 1 => none
  | c :: rest, offset =>
    if c.utf8Size ≤ offset then
      (cut? rest (offset - c.utf8Size)).map fun parts => (c :: parts.1, parts.2)
    else none

def cut (text : List Char) (offset : Nat) : Except CutError (List Char × List Char) :=
  match cut? text offset with
  | some parts => .ok parts
  | none => .error ⟨offset⟩

/-- The part of a text between two byte offsets. -/
def slice (text : List Char) (start stop : Nat) : Except CutError (List Char) := do
  let (front, _) ← cut text stop
  let (_, inside) ← cut front start
  pure inside

/-- A part of a text, by the byte offsets of its ends. -/
structure Span where
  source : List Char
  start : Nat
  stop : Nat
deriving DecidableEq, Repr

/-- Whole lines of a text around a span. -/
structure Lines where
  text : List Char
  /-- The number of the first line, counted from one. -/
  number : Nat
  /-- Where the span starts and ends, in bytes of the lines. -/
  range : Nat × Nat
deriving DecidableEq, Repr

namespace Span

/-- The ends of the span, with a character beside it if it is empty: the next one, or the last
one at the end of the text. -/
def visible (s : Span) : Except CutError (Nat × Nat) := do
  let stop := max s.start (min s.stop (utf8Size s.source))
  if s.start < stop then
    pure (s.start, stop)
  else
    let (before, after) ← cut s.source stop
    match after, before.getLast? with
    | c :: _, _ => pure (s.start, stop + c.utf8Size)
    | [], some c => pure (s.start - c.utf8Size, stop)
    | [], none => pure (s.start, stop)

/-- The lines of the span, unless it starts behind the end of the text. -/
def lines (s : Span) : Except CutError (Option Lines) :=
  if utf8Size s.source < s.start then pure none
  else do
    let (start, stop) ← s.visible
    let (before, _) ← cut s.source start
    let (_, after) ← cut s.source stop
    let first := utf8Size (fullLines before)
    let (skipped, _) ← cut s.source first
    let text ← slice s.source first (stop + utf8Size (firstLine after))
    pure (some ⟨text, skipped.count '\n' + 1, (start - first, stop - first)⟩)

end Span

/-- Where the region stands in its text. -/
def Region.span (r : Region) : Span :=
  ⟨r.text, utf8Size r.before, utf8Size r.before + utf8Size r.inside⟩

end DiffAnalyzer
