import StylesheetReversal.Path.Session
/-!
# Phrases

A `Phrase` is a piece of an expression that the grammar has recognised.  It records what a
builder will be asked to construct and, for each construction, the window that is blamed if
the builder refuses.

Reading a phrase ends in an `Outcome`: the phrase and the place behind it, or a fault together
with the phrases that were complete by then, in the order in which they were read.  Those are
kept because a builder sees every complete phrase, even of an expression that turns out to be
wrong.
-/
namespace StylesheetReversal.Path

/-- A recognised piece of an expression.  `blame` is the window reported when a builder
refuses to construct it. -/
inductive Phrase
  | string (blame : Span) (value : String)
  | number (blame : Span) (text : String)
  | binary (blame : Span) (op : Operator) (left right : Phrase)
  | negation (blame : Span) (operand : Phrase)
  | axis (blame : Span) (axis : Axis) (kind : NodeKind) (qualifier name : Option String)
  | join (blame : Span) (left right : Phrase)
  | predicate (blame : Span) (node condition : Phrase) (reverse : Bool)
  | variable (blame : Span) (qualifier : Option String) (name : String)
  | function (blame : Span) (qualifier : Option String) (name : String) (args : List Phrase)
  deriving Repr

/-- A place between two lexemes: the end of the last one passed, and those that follow. -/
structure Place where
  last : Nat
  ahead : List Lexeme
  deriving DecidableEq, Repr

/-- What reading a phrase comes to. -/
inductive Outcome (α : Type)
  | read (value : α) (place : Place)
  | broken (complete : List Phrase) (fault : Fault)
  deriving Repr

namespace Outcome

variable {α β : Type}

/-- Goes on behind a phrase that was read.  `held` are the phrases complete before it; they
stay complete when it breaks. -/
def andThen (held : List Phrase) (o : Outcome α) (next : α → Place → Outcome β) : Outcome β :=
  match o with
  | read value place => next value place
  | broken complete fault => broken (held ++ complete) fault

@[simp] theorem andThen_read (held : List Phrase) (a : α) (p : Place)
    (next : α → Place → Outcome β) : (read a p).andThen held next = next a p := rfl

@[simp] theorem andThen_broken (held done : List Phrase) (f : Fault)
    (next : α → Place → Outcome β) :
    (broken done f : Outcome α).andThen held next = broken (held ++ done) f := rfl

theorem andThen_eq_read_iff {held : List Phrase} {o : Outcome α}
    {next : α → Place → Outcome β} {b : β} {q : Place} :
    o.andThen held next = read b q ↔ ∃ a p, o = read a p ∧ next a p = read b q := by
  cases o with
  | read a p => exact ⟨fun h => ⟨a, p, rfl, h⟩, fun ⟨_, _, h, h'⟩ => by cases h; exact h'⟩
  | broken done f => simp

end Outcome

namespace Place

/-- The kind of the lexeme ahead. -/
def kind (p : Place) : Kind :=
  match p.ahead with
  | [] => .eof
  | l :: _ => l.kind

/-- The kind of the lexeme after the one ahead. -/
def kindAfter (p : Place) : Kind :=
  match p.ahead with
  | _ :: l :: _ => l.kind
  | _ => .eof

/-- The window of the lexeme ahead; at the end of the text, the empty window there. -/
def span (e : Ending) (p : Place) : Span :=
  match p.ahead with
  | [] =>
    match e with
    | .atEnd n => ⟨n, n⟩
    | .faulty f => f.span
  | l :: _ => l.span

/-- The text of the lexeme ahead as it is quoted in messages. -/
def found (p : Place) : String :=
  match p.ahead with
  | [] => Kind.eof.spelling
  | l :: _ => String.ofList l.text

/-- The characters of the lexeme ahead. -/
def text (p : Place) : List Char :=
  match p.ahead with
  | [] => []
  | l :: _ => l.text

/-- The name the lexeme ahead spells. -/
def name (p : Place) : WrittenName := .ofChars p.text

/-- What the lexeme ahead says, when it is a string literal. -/
def content (p : Place) : String := String.ofList (unquote p.text)

/-- A fault at the lexeme ahead. -/
def fault {α : Type} (e : Ending) (p : Place) (cause : Cause) : Outcome α :=
  .broken [] ⟨cause, p.span e⟩

/-- The window to blame for a construction made here: that of the unit it belongs to, or
otherwise the lexeme ahead. -/
def blame (e : Ending) (unit : Option Span) (p : Place) : Span := unit.getD (p.span e)

/-- Passes the lexeme ahead.  That brings the next lexeme ahead, so it fails when that lexeme
cannot be read. -/
def advance (e : Ending) (p : Place) : Outcome Unit :=
  match p.ahead with
  | [] => .read () p
  | [l] =>
    match e with
    | .atEnd _ => .read () ⟨l.span.stop, []⟩
    | .faulty f => .broken [] f
  | l :: ls => .read () ⟨l.span.stop, ls⟩

/-- Fails unless the lexeme ahead is of the expected kind. -/
def expect (e : Ending) (expected : Kind) (p : Place) : Outcome Unit :=
  if p.kind = expected then .read () p
  else if expected = .eof then p.fault e (.endExpected p.found)
  else p.fault e (.tokenExpected expected p.found)

/-- Passes a lexeme of the expected kind. -/
def pass (e : Ending) (expected : Kind) (p : Place) : Outcome Unit :=
  (p.expect e expected).andThen [] fun _ p => p.advance e

end Place

end StylesheetReversal.Path
