import StylesheetReversal.Path.Lexeme
import StylesheetReversal.Text.Offset
/-!
# What can be wrong with an expression

A `Fault` is a cause and the window of bytes it is found in.  Together with the text of the
expression it is a `ParseError`, which can be shown to a reader: `message` says what is
wrong, `marked` shows where, with the window written as ` -->...<-- ` inside the text, and
`detailed` puts the second under the first.

Three parts of the text are shown, before, in and after the window, and each is shortened
when it has more than `segmentLimit` characters.
-/
namespace StylesheetReversal.Path

/-- The two steps that are written with dots and take no predicate. -/
inductive DottedStep
  | dot
  | dotDot
  deriving DecidableEq, Repr

namespace DottedStep

def spelling : DottedStep → String
  | .dot => "."
  | .dotDot => ".."

/-- The name of the axis the step moves along. -/
def axisName : DottedStep → String
  | .dot => "self"
  | .dotDot => "parent"

end DottedStep

/-- Why an expression is refused.  `found` is the text of the lexeme in the window, and
`rejected` carries the reason a builder gave. -/
inductive Cause
  | unexpectedToken (found : String)
  | nodeTestExpected (found : String)
  | tokenExpected (expected : Kind) (found : String)
  | predicateAfterDottedStep (step : DottedStep)
  | scientificNotation
  | unclosedString
  | endExpected (found : String)
  | rejected (reason : String)
  deriving DecidableEq, Repr

namespace Cause

def message : Cause → String
  | .unexpectedToken found => "Unexpected token '" ++ found ++ "' in the expression."
  | .nodeTestExpected found => "Expected a node test, found '" ++ found ++ "'."
  | .tokenExpected expected found =>
    "Expected token '" ++ expected.spelling ++ "', found '" ++ found ++ "'."
  | .predicateAfterDottedStep step =>
    "Abbreviated step '" ++ step.spelling ++
      "' cannot be followed by a predicate. Use the full form '" ++ step.axisName ++
      "::node()[predicate]' instead."
  | .scientificNotation => "Scientific notation is not allowed."
  | .unclosedString => "String literal was not closed."
  | .endExpected found => "Expected end of the expression, found '" ++ found ++ "'."
  | .rejected reason => reason

end Cause

/-- A cause and the window it is found in. -/
structure Fault where
  cause : Cause
  span : Span
  deriving DecidableEq, Repr

/-- A fault in an expression. -/
structure ParseError extends Fault where
  expression : String
  deriving DecidableEq, Repr

namespace ParseError

/-- The most characters of a part of the expression that are shown unshortened. -/
def segmentLimit : Nat := 32

/-- The end of a long part, as shown before the window. -/
def keepEnd (cs : List Char) : List Char :=
  if cs.length ≤ segmentLimit then cs
  else "...".toList ++ cs.drop (cs.length - segmentLimit)

/-- The beginning of a long part, as shown after the window. -/
def keepStart (cs : List Char) : List Char :=
  if cs.length ≤ segmentLimit then cs
  else cs.take segmentLimit ++ "...".toList

/-- Both ends of a long part, as shown in the window. -/
def keepEnds (cs : List Char) : List Char :=
  if cs.length ≤ segmentLimit then cs
  else cs.take (segmentLimit / 2) ++ "...".toList ++ cs.drop (cs.length - segmentLimit / 2)

/-- The characters before, in and after the window.  A window that reaches past the end, runs
backwards or starts or ends inside a character is first brought to character boundaries. -/
def segments (e : ParseError) : List Char × List Char × List Char :=
  let (before, rest) := Text.cut e.span.start e.expression.toList
  let (inside, after) := Text.cut (e.span.stop - Text.width before) rest
  (before, inside, after)

/-- The expression with the window marked, or nothing if it consists of spaces alone. -/
def marked (e : ParseError) : Option String :=
  if e.expression.toList.all (· == ' ') then none
  else
    let (before, inside, after) := e.segments
    let window := if inside.isEmpty then [] else " -->".toList ++ keepEnds inside
    some (String.ofList (keepEnd before ++ window ++ "<-- ".toList ++ keepStart after))

def message (e : ParseError) : String := e.cause.message

/-- The message, and under it the marked expression. -/
def detailed (e : ParseError) : String :=
  match e.marked with
  | some marked => e.message ++ "\n" ++ marked
  | none => e.message

/-- The message with the whole expression in front, for a reader who has not seen it. -/
def inContext (e : ParseError) : String :=
  "XPath parse error in '" ++ e.expression ++ "': " ++ e.message

end ParseError

end StylesheetReversal.Path
