import StylesheetReversal.Text.Digit
/-!
# Characters of XML and the ways to write them

Not every character may stand in an XML document (`isChar`).  Some may be written in other
ways: any by a reference such as `&#65;`, five of them also by name, and a line end as a
carriage return with or without a line feed.

A text is read in two steps.  `written?` replaces the references, and keeps apart which
characters stand in the text themselves and which are only referred to.  The second step sees
to the blanks that stand there themselves: `lineEnds` in a text, `spaced` in the value of an
attribute.  A character that is referred to is never changed.
-/
namespace StylesheetReversal.Xml

/-- The characters that may stand in a document. -/
def isChar (c : Char) : Bool :=
  let n := c.toNat
  n == 0x9 || n == 0xA || n == 0xD || (0x20 ≤ n && n ≤ 0xD7FF) || (0xE000 ≤ n && n ≤ 0xFFFD) ||
  0x10000 ≤ n

/-- A character of a text, which stands there itself or is referred to. -/
inductive Written
  | plain (c : Char)
  | referred (c : Char)
  deriving DecidableEq, Repr

/-- The character with a number of at most 32 bits.  A number without a character stands for
the replacement character, and the character has to be one that may stand in a document. -/
def numbered? (n : Nat) : Option Char :=
  if n < UInt32.size then
    let c := if n.isValidChar then Char.ofNat n else Char.ofNat 0xFFFD
    if isChar c then some c else none
  else none

/-- The character whose number one or more digits spell. -/
def spelled? (base : Nat) (digits : List Char) : Option Char :=
  if digits.isEmpty then none else (Text.number? base digits).bind numbered?

/-- The character that the text between `&` and `;` refers to. -/
def referent? : List Char → Option Char
  | ['l', 't'] => some '<'
  | ['g', 't'] => some '>'
  | ['a', 'm', 'p'] => some '&'
  | ['a', 'p', 'o', 's'] => some '\''
  | ['q', 'u', 'o', 't'] => some '"'
  | '#' :: 'x' :: digits => spelled? 16 digits
  | '#' :: digits => spelled? 10 digits
  | _ => none

/-- Reads on inside a reference, of which the characters since `&` are given, last first. -/
def writtenFrom? (reference : Option (List Char)) : List Char → Option (List Written)
  | [] => if reference.isNone then some [] else none
  | c :: cs =>
    match reference with
    | none =>
      if c = '&' then writtenFrom? (some []) cs else (writtenFrom? none cs).map (.plain c :: ·)
    | some read =>
      if c = ';' then
        (referent? read.reverse).bind fun c => (writtenFrom? none cs).map (.referred c :: ·)
      else writtenFrom? (some (c :: read)) cs

/-- The characters of a text, every reference replaced by its character. -/
def written? (raw : List Char) : Option (List Written) := writtenFrom? none raw

/-- What a carriage return that stands in a text itself is read as: a line feed, but in front
of a reference it stays, and so does one that ends the text right behind a reference. -/
def carriageReturn (behindReference : Bool) : List Written → Char
  | [] => if behindReference then '\r' else '\n'
  | .plain _ :: _ => '\n'
  | .referred _ :: _ => '\r'

/-- Makes the line ends of a text line feeds; a carriage return and the line feed behind it are
one line end. -/
def lineEnds (behindReference : Bool) : List Written → List Char
  | [] => []
  | .referred c :: cs => c :: lineEnds true cs
  | .plain '\r' :: .plain '\n' :: cs => '\n' :: lineEnds false cs
  | .plain c :: cs =>
    (if c = '\r' then carriageReturn behindReference cs else c) :: lineEnds false cs

/-- Makes the line ends and tabs of an attribute's value spaces. -/
def spaced : List Written → List Char
  | [] => []
  | .referred c :: cs => c :: spaced cs
  | .plain '\r' :: .plain '\n' :: cs => ' ' :: spaced cs
  | .plain c :: cs => (if c = '\t' ∨ c = '\n' ∨ c = '\r' then ' ' else c) :: spaced cs

/-- The text that a run of characters between tags stands for. -/
def textValue (raw : List Char) : Option (List Char) := (written? raw).map (lineEnds false)

/-- The text that the characters of a CDATA section stand for.  There are no references in it. -/
def cdataValue (raw : List Char) : List Char := lineEnds false (raw.map .plain)

/-- The value that the characters between the quotes of an attribute stand for. -/
def attributeValue (raw : List Char) : Option (List Char) := (written? raw).map spaced

end StylesheetReversal.Xml
