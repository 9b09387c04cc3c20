import DiffAnalyzer.Element
import DiffAnalyzer.Source.Recognition
import DiffAnalyzer.Term.Basic

/-!
# The circuit language

A circuit is written as definitions `name = expression`, one per line or with
semicolons between them.  An expression is an application `head(argument, …)`, a name
or a number.  Blanks, tabs, carriage returns and comments from `#` to the end of the
line may stand between any two tokens.
-/

namespace DiffAnalyzer

namespace Grammar

open Recognizer

def isBlank (c : Char) : Bool := c == ' ' || c == '\t' || c == '\r'

def isSeparator (c : Char) : Bool := c == '\n' || c == ';'

/-- Drop blanks, comments, and what else `also` admits outside comments.  A carriage
return ends a comment like a line feed does. -/
def dropLayout (also : Char → Bool) : (comment : Bool) → List Char → List Char
  | _, [] => []
  | true, c :: rest =>
    if c == '\r' || c == '\n' && also c then dropLayout also false rest
    else if c == '\n' then c :: rest
    else dropLayout also true rest
  | false, c :: rest =>
    if isBlank c || also c then dropLayout also false rest
    else if c == '#' then dropLayout also true rest
    else c :: rest

/-- Blanks and comments. -/
def layout : Recognizer Unit := skip (dropLayout (fun _ => false) false)

/-- Blanks, comments and separators. -/
def gap : Recognizer Unit := skip (dropLayout isSeparator false)

def separator : Recognizer Unit := oneOf isSeparator

/-- A character with layout around it. -/
def delimiter (c : Char) : Recognizer Unit := do
  layout
  symbol c
  layout

def scanIdentifier : List Char → Option (Atom × List Char)
  | [] => none
  | c :: rest =>
    if h : isNameStart c = true then
      some (⟨c :: rest.takeWhile isNamePart, by simp [isName, h]⟩, rest.dropWhile isNamePart)
    else none

def identifier : Recognizer Atom := attempt .identifier (ofFunction scanIdentifier)

def number : Recognizer Arg := attempt .number <| ofFunction fun text =>
  (Decimal.scan text).map fun (decimal, rest) => (.number decimal.toNumber, rest)

def reference : Recognizer Arg := attempt .reference do
  let name ← identifier
  pure (.node name [])

mutual

/-- An expression with fewer than `depth` levels of parentheses and commas. -/
def expression : (depth : Nat) → Recognizer Arg
  | 0 => refuse
  | depth + 1 =>
    (attempt .application do
      let head ← identifier
      delimiter '('
      let first ← expression depth
      let rest ← arguments depth
      layout
      symbol ')'
      pure (.node head (first :: rest)))
    <|> reference
    <|> number

/-- The arguments after the first, as far as they go. -/
def arguments : (depth : Nat) → Recognizer (List Arg)
  | 0 => pure []
  | depth + 1 =>
    (do
      delimiter ','
      let argument ← expression depth
      let rest ← arguments depth
      pure (argument :: rest))
    <|> pure []

end

/-- A definition as written. -/
structure Definition where
  name : Atom
  rhs : Term
  /-- The text from the name on. -/
  site : List Char

/-- The right-hand side that an expression stands for; a number is a constant. -/
def rightHandSide : Arg → Term
  | .number x => ⟨Element.const.name, [.number x]⟩
  | .node head tail => ⟨head, tail⟩

def definition (depth : Nat) : Recognizer Definition := attempt .equation do
  let site ← remaining
  let name ← identifier
  delimiter '='
  let rhs ← expression depth
  pure ⟨name, rightHandSide rhs, site⟩

/-- Up to `count` definitions, each with a separator before it. -/
def furtherDefinitions (depth : Nat) : (count : Nat) → Recognizer (List Definition)
  | 0 => pure []
  | count + 1 =>
    (do
      layout
      separator
      gap
      let first ← definition depth
      let rest ← furtherDefinitions depth count
      pure (first :: rest))
    <|> pure []

/-- A whole circuit. -/
def program (depth : Nat) : Recognizer (List Definition) := attempt .program do
  gap
  let definitions ←
    (do
      let first ← definition depth
      let rest ← furtherDefinitions depth depth
      pure (first :: rest))
    <|> pure []
  gap
  endOfInput
  pure definitions

/-- Read a text as a circuit.  Every level and every definition takes a character at
least, so the length of the text bounds them. -/
def recognize (text : List Char) : Outcome (List Definition) := program (text.length + 1) text

end Grammar

end DiffAnalyzer
