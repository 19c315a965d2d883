import StylesheetReversal.Text.Blank
import StylesheetReversal.Text.Name
import StylesheetReversal.Xml.Character
/-!
# The pieces of a document's text

A document is written as a sequence of pieces: tags, comments, processing instructions,
CDATA sections and the text between them.  `Piece.next?` takes one piece off the front of a
text, and `pieces?` cuts a whole document up.  Whether the tags match is not asked here.
-/
namespace StylesheetReversal.Xml

/-- A name as written in a tag.  The qualifier is empty when there is none. -/
structure TagName where
  qualifier : List Char
  base : List Char
  deriving DecidableEq, Repr

/-- An attribute as written in a tag, with the characters between its quotes. -/
structure RawAttribute where
  name : TagName
  raw : List Char
  deriving DecidableEq, Repr

inductive Piece
  | text (raw : List Char)
  | cdata (raw : List Char)
  | comment (body : List Char)
  | instruction (target value : List Char)
  | opening (name : TagName) (attributes : List RawAttribute) (closed : Bool)
  | closing (name : TagName)
  deriving DecidableEq, Repr

/-- What stands before the first `mark`, and what follows it. -/
def splitAt? (mark : List Char) : List Char → Option (List Char × List Char)
  | [] => none
  | c :: cs =>
    if mark.isPrefixOf (c :: cs) then some ([], (c :: cs).drop mark.length)
    else (splitAt? mark cs).map fun (front, back) => (c :: front, back)

def skipSpace (text : List Char) : List Char := text.dropWhile Text.isSpace

/-- The characters of names and the colon. -/
def isNameOrColon (c : Char) : Bool := Text.isNameChar c || c == ':'

namespace TagName

/-- Reads a name with at most one colon.  Both its parts start like names; the one before the
colon may also be empty. -/
def ofChars? (cs : List Char) : Option TagName :=
  let name : TagName :=
    match Text.splitColon? cs with
    | some (qualifier, base) => ⟨qualifier, base⟩
    | none => ⟨[], cs⟩
  if Text.isName name.base && (name.qualifier.isEmpty || Text.isName name.qualifier) then
    some name
  else none

/-- Takes the longest name off the front of a text. -/
def next? (text : List Char) : Option (TagName × List Char) :=
  (ofChars? (text.takeWhile isNameOrColon)).map fun name => (name, text.dropWhile isNameOrColon)

end TagName

namespace RawAttribute

/-- Takes a value in quotes off the front of a text.  `<` cannot stand in it. -/
def value? : List Char → Option (List Char × List Char)
  | [] => none
  | quote :: text =>
    if quote = '"' ∨ quote = '\'' then
      let inside := fun c => c != quote && c != '<'
      match text.dropWhile inside with
      | c :: rest => if c = quote then some (text.takeWhile inside, rest) else none
      | [] => none
    else none

/-- Takes an attribute off the front of a text. -/
def next? (text : List Char) : Option (RawAttribute × List Char) :=
  (TagName.next? text).bind fun (name, rest) =>
    match skipSpace rest with
    | '=' :: rest => (value? (skipSpace rest)).map fun (raw, rest) => (⟨name, raw⟩, rest)
    | _ => none

end RawAttribute

namespace Piece

/-- The attributes of a tag, each after white space, whether the tag closes itself, and what
follows the tag. -/
def attributes? : Nat → List Char → Option (List RawAttribute × Bool × List Char)
  | 0, _ => none
  | fuel + 1, cs =>
    match skipSpace cs with
    | '>' :: rest => some ([], false, rest)
    | '/' :: '>' :: rest => some ([], true, rest)
    | ahead =>
      if cs.head?.any Text.isSpace then
        (RawAttribute.next? ahead).bind fun (first, rest) =>
          (attributes? fuel rest).map fun (more, closed, rest) => (first :: more, closed, rest)
      else none

/-- A comment, behind `<!--`.  Two hyphens can only stand at its end. -/
def comment? (text : List Char) : Option (Piece × List Char) :=
  (splitAt? ['-', '-', '>'] text).bind fun (body, rest) =>
    if (splitAt? ['-', '-'] body).isNone ∧ body.getLast? ≠ some '-' then
      some (.comment body, rest)
    else none

/-- A CDATA section, behind `<![CDATA[`. -/
def cdata? (text : List Char) : Option (Piece × List Char) :=
  (splitAt? [']', ']', '>'] text).map fun (raw, rest) => (.cdata raw, rest)

/-- A processing instruction, behind `<?`.  One that looks like an XML declaration is none. -/
def instruction? (text : List Char) : Option (Piece × List Char) :=
  let target := text.takeWhile isNameOrColon
  let starts := target.head?.any fun c => Text.isNameStart c || c == ':'
  if !starts || "xml ".toList.isPrefixOf text then none
  else
    (splitAt? ['?', '>'] (skipSpace (text.dropWhile isNameOrColon))).map fun (value, rest) =>
      (.instruction target value, rest)

/-- An end tag, behind `</`. -/
def closing? (text : List Char) : Option (Piece × List Char) :=
  (TagName.next? text).bind fun (name, rest) =>
    match skipSpace rest with
    | '>' :: rest => some (.closing name, rest)
    | _ => none

/-- A start tag, behind `<`. -/
def opening? (text : List Char) : Option (Piece × List Char) :=
  (TagName.next? text).bind fun (name, rest) =>
    (attributes? (rest.length + 1) rest).map fun (attributes, closed, rest) =>
      (.opening name attributes closed, rest)

/-- The text up to the next `<`.  The end of a CDATA section cannot stand in it. -/
def text? (text : List Char) : Option (Piece × List Char) :=
  let raw := text.takeWhile (· != '<')
  if (splitAt? [']', ']', '>'] raw).isNone then some (.text raw, text.dropWhile (· != '<'))
  else none

/-- Takes one piece off the front of a text. -/
def next? (text : List Char) : Option (Piece × List Char) :=
  match text with
  | '<' :: '!' :: '-' :: '-' :: rest => comment? rest
  | '<' :: '!' :: '[' :: 'C' :: 'D' :: 'A' :: 'T' :: 'A' :: '[' :: rest => cdata? rest
  | '<' :: '?' :: rest => instruction? rest
  | '<' :: '/' :: rest => closing? rest
  | '<' :: rest => opening? rest
  | _ => text? text

end Piece

/-- A piece and the number of characters before it. -/
structure Placed where
  start : Nat
  piece : Piece
  deriving DecidableEq, Repr

/-- Cuts up a text with `start` characters before it, at most `fuel` pieces. -/
def piecesFrom? : Nat → Nat → List Char → Option (List Placed)
  | 0, _, _ => none
  | fuel + 1, start, text =>
    if text.isEmpty then some []
    else
      (Piece.next? text).bind fun (piece, rest) =>
        (piecesFrom? fuel (start + (text.length - rest.length)) rest).map (⟨start, piece⟩ :: ·)

/-- An attribute of the XML declaration. -/
def pseudo? (name : String) (text : List Char) : Option (List Char) :=
  if name.toList.isPrefixOf text then (RawAttribute.next? text).map (·.2) else none

/-- The space between two attributes of the XML declaration, which can only be missing at its
end. -/
def gap? (text : List Char) : Option (List Char) :=
  if text.head?.any Text.isSpace ∨ ['?', '>'].isPrefixOf text then some (skipSpace text)
  else none

/-- Passes an XML declaration, behind `<?xml`: a version, then an encoding and a statement
about standing alone if they are given. -/
def declaration? (text : List Char) : Option (List Char) :=
  (pseudo? "version" (skipSpace text)).bind fun rest =>
  (gap? rest).bind fun rest =>
  (if "encoding".toList.isPrefixOf rest then (pseudo? "encoding" rest).bind gap?
    else some rest).bind fun rest =>
  (if "standalone".toList.isPrefixOf rest then pseudo? "standalone" rest
    else some rest).bind fun rest =>
  match skipSpace rest with
  | '?' :: '>' :: rest => some rest
  | _ => none

/-- Passes what may stand before the first piece: a byte order mark and an XML declaration. -/
def prolog? (text : List Char) : Option (List Char) :=
  let body := if text.head? = some '\uFEFF' then text.drop 1 else text
  if "<?xml ".toList.isPrefixOf body then declaration? (body.drop 5) else some body

/-- The pieces of a document. -/
def pieces? (text : List Char) : Option (List Placed) :=
  if text.all isChar then
    (prolog? text).bind fun body =>
      piecesFrom? (body.length + 1) (text.length - body.length) body
  else none

end StylesheetReversal.Xml
