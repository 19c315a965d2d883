import StylesheetReversal.Path.Operator
import StylesheetReversal.Text.Name
/-!
# Lexemes

A lexeme is a run of characters of an expression that belongs together, with the kind it was
given.  The kind and the text of a lexeme say everything about it: the name it spells, the
content of a literal and the axis it names are all read off its text.
-/
namespace StylesheetReversal.Path

/-- What a lexeme is.  `multiply` and `star` are both written `*`, `name` covers everything
that is spelled like a name and is neither a keyword operator nor an axis, and `unknown` is
a character that starts no lexeme. -/
inductive Kind
  | or
  | and
  | eq
  | ne
  | lt
  | le
  | gt
  | ge
  | plus
  | minus
  | multiply
  | divide
  | modulo
  | union
  | slash
  | slashSlash
  | dot
  | dotDot
  | colonColon
  | lparen
  | rparen
  | lbracket
  | rbracket
  | comma
  | at
  | dollar
  | star
  | number
  | string
  | name
  | axis
  | eof
  | unknown
  deriving DecidableEq, Repr

namespace Kind

/-- The binary operator a lexeme of this kind denotes. -/
def operator? : Kind → Option Operator
  | .or => some .or
  | .and => some .and
  | .eq => some .eq
  | .ne => some .ne
  | .lt => some .lt
  | .le => some .le
  | .gt => some .gt
  | .ge => some .ge
  | .plus => some .plus
  | .minus => some .minus
  | .multiply => some .multiply
  | .divide => some .divide
  | .modulo => some .modulo
  | .union => some .union
  | _ => none

def isOperator (k : Kind) : Bool := k.operator?.isSome

/-- Whether an operand can end with a lexeme of this kind.  After any other lexeme, and at
the start, a new operand begins. -/
def endsOperand : Kind → Bool
  | .slash | .slashSlash | .at | .colonColon | .lparen | .lbracket | .comma | .dollar => false
  | .unknown => false
  | k => !k.isOperator

/-- How the kind is named in a message. -/
def spelling : Kind → String
  | .or => "or"
  | .and => "and"
  | .eq => "="
  | .ne => "!="
  | .lt => "<"
  | .le => "<="
  | .gt => ">"
  | .ge => ">="
  | .plus => "+"
  | .minus => "-"
  | .multiply => "*"
  | .divide => "div"
  | .modulo => "mod"
  | .union => "|"
  | .slash => "/"
  | .slashSlash => "//"
  | .dot => "."
  | .dotDot => ".."
  | .colonColon => "::"
  | .lparen => "("
  | .rparen => ")"
  | .lbracket => "["
  | .rbracket => "]"
  | .comma => ","
  | .at => "@"
  | .dollar => "$"
  | .star => "*"
  | .number => "<number>"
  | .string => "<string literal>"
  | .name => "<name>"
  | .axis => "<axis>"
  | .eof => "<eof>"
  | .unknown => "<unknown>"

end Kind

/-- A half-open window of bytes in the expression. -/
structure Span where
  start : Nat
  stop : Nat
  deriving DecidableEq, Repr

namespace Span

def size (s : Span) : Nat := s.stop - s.start

def isEmpty (s : Span) : Bool := s.size == 0

def display (s : Span) : String := s!"{s.start}..{s.stop}"

end Span

/-- One lexeme: its kind, its window and the characters in the window. -/
structure Lexeme where
  kind : Kind
  span : Span
  text : List Char
  deriving DecidableEq, Repr

/-- What stands between the first and the last character. -/
def unquote (cs : List Char) : List Char := (cs.drop 1).dropLast

/-- A name as written: `qualifier:base`, or `base` alone with an empty qualifier.  The base
of `qualifier:*` is `*`. -/
structure WrittenName where
  qualifier : String
  base : String
  deriving DecidableEq, Repr

namespace WrittenName

/-- Splits a name at its colon. -/
def ofChars (cs : List Char) : WrittenName :=
  match Text.splitColon? cs with
  | some (qualifier, base) => ⟨String.ofList qualifier, String.ofList base⟩
  | none => ⟨"", String.ofList cs⟩

/-- The qualifier, if there is one. -/
def qualifier? (n : WrittenName) : Option String :=
  if n.qualifier = "" then none else some n.qualifier

/-- Whether the name is `qualifier:*`. -/
def isWildcard (n : WrittenName) : Bool := n.base = "*"

/-- The base, unless the name is a wildcard. -/
def base? (n : WrittenName) : Option String :=
  if n.isWildcard then none else some n.base

end WrittenName

namespace Lexeme

/-- The name a lexeme of kind `name` or `axis` spells. -/
def name (l : Lexeme) : WrittenName := .ofChars l.text

/-- What a string literal says. -/
def content (l : Lexeme) : List Char := unquote l.text

end Lexeme

end StylesheetReversal.Path
