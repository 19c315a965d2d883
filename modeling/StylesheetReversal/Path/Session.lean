import StylesheetReversal.Path.Lexer
/-!
# Reading an expression lexeme by lexeme

A `Session` stands at one lexeme of an expression and remembers where the lexeme before it
ended.  `advance` moves to the next lexeme.  When that lexeme is faulty the session stands at
it all the same and the fault is reported beside it, so a reader may go on.

`scan` reads to the end: the lexemes in order, and how the reading came to its end.
-/
namespace StylesheetReversal.Path

/-- `text` and `kind` describe the current lexeme, which takes the bytes from `start` to
`stop`; `before` is the end of the lexeme in front of it and `rest` the characters after it.
`axis` and `content` keep what the last name and the last closed string said, for as long as
no other name and no other closed string is read. -/
structure Session where
  before : Nat
  start : Nat
  stop : Nat
  kind : Kind
  text : List Char
  rest : List Char
  axis : Option Axis
  content : List Char
  deriving DecidableEq, Repr

namespace Session

def span (s : Session) : Span := ⟨s.start, s.stop⟩

/-- The current lexeme. -/
def lexeme (s : Session) : Lexeme := ⟨s.kind, s.span, s.text⟩

/-- The name the current lexeme spells, when it is a name or an axis. -/
def name (s : Session) : WrittenName := s.lexeme.name

/-- Whether the current name may be called: an opening parenthesis follows, and the name is
no wildcard. -/
def isCallable (s : Session) : Bool :=
  s.kind = .name && !s.name.isWildcard && Munch.beforeParen s.rest

/-- The text of the current lexeme as it is quoted in messages. -/
def found (s : Session) : String :=
  if s.kind = .eof then Kind.eof.spelling else String.ofList s.text

/-- Stands in front of the text, at byte `start`, with nothing read yet.  An offset past the
end or inside a character is moved down to the nearest character boundary. -/
def fresh (text : String) (start : Nat) : Session :=
  let (skipped, rest) := Text.cut start text.toList
  let offset := Text.width skipped
  ⟨offset, offset, offset, .unknown, [], rest, none, []⟩

/-- What the last name says about an axis, after a lexeme was read. -/
def axisAfter (m : Munch) (held : Option Axis) : Option Axis :=
  match m.kind with
  | .axis => Axis.ofName? (String.ofList m.taken)
  | .name | .or | .and | .divide | .modulo => none
  | _ => held

/-- The content of the last closed string, after a lexeme was read. -/
def contentAfter (m : Munch) (held : List Char) : List Char :=
  if m.kind = .string ∧ m.defect.isNone then unquote m.taken else held

/-- Moves to the next lexeme, behind any white space. -/
def advance (s : Session) : Session × Option Fault :=
  let start := s.stop + Text.width (s.rest.takeWhile Text.isSpace)
  let m := munch s.kind (s.rest.dropWhile Text.isSpace)
  let next : Session :=
    { before := s.stop
      start := start
      stop := start + Text.width m.taken
      kind := m.kind
      text := m.taken
      rest := m.rest
      axis := axisAfter m s.axis
      content := contentAfter m s.content }
  (next, m.defect.map fun cause => ⟨cause, next.span⟩)

/-- The fault at the current lexeme when it is not of the expected kind. -/
def check (s : Session) (expected : Kind) : Option Fault :=
  if s.kind = expected then none
  else if expected = .eof then some ⟨.endExpected s.found, s.span⟩
  else some ⟨.tokenExpected expected s.found, s.span⟩

/-- Checks the current lexeme and moves past it. -/
def pass (s : Session) (expected : Kind) : Session × Option Fault :=
  match s.check expected with
  | some fault => (s, some fault)
  | none => s.advance

/-- The fault of a lexeme that fits nowhere. -/
def unexpected (s : Session) : Fault := ⟨.unexpectedToken s.found, s.span⟩

/-- The fault of a lexeme that starts no node test. -/
def noNodeTest (s : Session) : Fault := ⟨.nodeTestExpected s.found, s.span⟩

/-- The fault of a predicate after `.` or `..`. -/
def noPredicate (s : Session) (step : DottedStep) : Fault :=
  ⟨.predicateAfterDottedStep step, s.span⟩

end Session

/-- How the reading of lexemes ends: at the end of the text, or before a lexeme that cannot
be read. -/
inductive Ending
  | atEnd (offset : Nat)
  | faulty (fault : Fault)
  deriving DecidableEq, Repr

/-- The lexemes of a text. -/
structure Scan where
  lexemes : List Lexeme
  ending : Ending
  deriving DecidableEq, Repr

/-- Reads on from a session, at most `fuel` lexemes. -/
def Session.scan : Nat → Session → Scan
  | 0, s => ⟨[], .atEnd s.stop⟩
  | fuel + 1, s =>
    match s.advance with
    | (_, some fault) => ⟨[], .faulty fault⟩
    | (next, none) =>
      if next.kind = .eof then ⟨[], .atEnd next.start⟩
      else
        let scan := next.scan fuel
        ⟨next.lexeme :: scan.lexemes, scan.ending⟩

/-- Reads the text from byte `start` on.  Each lexeme takes at least one character, so there
are no more lexemes than characters. -/
def scan (text : String) (start : Nat) : Scan :=
  let s := Session.fresh text start
  s.scan (s.rest.length + 1)

/-- All lexemes of the text, or what is wrong with the first faulty one. -/
def tokenize (text : String) : Except ParseError (List Lexeme) :=
  let result := scan text 0
  match result.ending with
  | .atEnd _ => .ok result.lexemes
  | .faulty fault => .error ⟨fault, text⟩

end StylesheetReversal.Path
