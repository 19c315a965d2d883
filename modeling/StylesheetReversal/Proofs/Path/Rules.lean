import StylesheetReversal.Proofs.Path.Phrase
/-!
# Reading without building

The rules of the parser over lexemes that have been scanned already.  They read phrases and ask no
builder for anything; a phrase says what will be asked.  The parser proper comes to the same as reading
a phrase and building it afterwards.

Every rule takes the ending of the lexemes and the unit it is part of, whose window is blamed for
constructions that have no window of their own.
-/
namespace StylesheetReversal.Path

namespace Place

/-- Whether the name ahead is that of a node type. -/
def namesNodeType (p : Place) : Bool :=
  p.name.qualifier = "" && (NodeKind.ofTypeName? p.name.base).isSome

/-- Whether the name ahead is followed by `(` and is no wildcard. -/
def isCall (p : Place) : Bool :=
  p.kind = .name && !p.name.isWildcard && p.kindAfter = .lparen

/-- Whether a step starts here. -/
def startsStep (p : Place) : Bool :=
  match p.kind with
  | .dot | .dotDot | .at | .axis | .star | .name => true
  | _ => false

/-- Whether a primary expression starts here. -/
def startsPrimary (p : Place) : Bool :=
  match p.kind with
  | .string | .number | .dollar | .lparen => true
  | .name => p.isCall && !p.namesNodeType
  | _ => false

end Place

namespace Rule

/-- The step that keeps every node of an axis. -/
def wholeAxis (blame : Span) (axis : Axis) : Phrase := .axis blame axis .all none none

/-- What a node test keeps: the kind, and the qualifier and name if it asks for them. -/
abbrev Test := NodeKind × Option String × Option String

/-- The target of a processing-instruction test, if one is given. -/
def target (e : Ending) (kind : NodeKind) (p : Place) : Outcome (Option String) :=
  if kind = .processingInstruction ∧ p.kind ≠ .rparen then
    (p.expect e .string).andThen [] fun _ p =>
    (p.advance e).andThen [] fun _ q => .read (some p.content) q
  else .read none p

/-- A node test on an axis. -/
def test (e : Ending) (axis : Axis) (p : Place) : Outcome Test :=
  match p.kind with
  | .name =>
    if p.isCall ∧ p.namesNodeType then
      let kind := (NodeKind.ofTypeName? p.name.base).getD .all
      (p.advance e).andThen [] fun _ p =>
      (p.pass e .lparen).andThen [] fun _ p =>
      (target e kind p).andThen [] fun name p =>
      (p.pass e .rparen).andThen [] fun _ p => .read (kind, none, name) p
    else
      (p.advance e).andThen [] fun _ q =>
        .read (axis.principalKind, p.name.qualifier?, p.name.base?) q
  | .star => (p.advance e).andThen [] fun _ q => .read (axis.principalKind, none, none) q
  | _ => p.fault e (.nodeTestExpected p.found)

/-- A node test as a phrase, blamed on its own lexemes. -/
def nodeTest (e : Ending) (axis : Axis) (p : Place) : Outcome Phrase :=
  (test e axis p).andThen [] fun (kind, qualifier, name) q =>
    .read (.axis ⟨(p.span e).start, q.last⟩ axis kind qualifier name) q

/-- The axis in front of a node test; without one it is `child`. -/
def axisOf (e : Ending) (p : Place) : Outcome Axis :=
  match p.kind with
  | .axis =>
    match Axis.ofName? p.name.base with
    | some axis =>
      (p.advance e).andThen [] fun _ p =>
      (p.pass e .colonColon).andThen [] fun _ p => .read axis p
    | none => p.fault e (.unexpectedToken p.found)
  | .at => (p.advance e).andThen [] fun _ p => .read .attribute p
  | .name | .star => .read .child p
  | _ => p.fault e (.unexpectedToken p.found)

/-- The step `.` or `..`, which takes no predicate. -/
def dotted (e : Ending) (unit : Option Span) (step : DottedStep) (axis : Axis) (p : Place) :
    Outcome Phrase :=
  (p.advance e).andThen [] fun _ p =>
  let node := wholeAxis (p.blame e unit) axis
  if p.kind = .lbracket then .broken [node] ⟨.predicateAfterDottedStep step, p.span e⟩
  else .read node p

mutual

/-- An expression of operators that bind tighter than `limit`; an expression of any operators
when `limit` is `0`. -/
def operand (e : Ending) : Nat → Option Span → Nat → Place → Outcome Phrase
  | 0, _, _, p => p.fault e (.unexpectedToken p.found)
  | fuel + 1, unit, limit, p =>
    if p.kind = .minus then
      (p.advance e).andThen [] fun _ p =>
      (operand e fuel unit Operator.unaryMinus.precedence p).andThen [] fun inner p =>
      operators e fuel unit limit (.negation (p.blame e unit) inner) p
    else
      (union e fuel unit p).andThen [] fun left p => operators e fuel unit limit left p

/-- The operators that bind tighter than `limit`, and their right operands. -/
def operators (e : Ending) : Nat → Option Span → Nat → Phrase → Place → Outcome Phrase
  | 0, _, _, left, p => .broken [left] ⟨.unexpectedToken p.found, p.span e⟩
  | fuel + 1, unit, limit, left, p =>
    match p.kind.operator? with
    | none => .read left p
    | some op =>
      if op = .union ∨ op.precedence ≤ limit then .read left p
      else
        (p.advance e).andThen [left] fun _ p =>
        (operand e fuel unit op.precedence p).andThen [left] fun right p =>
        operators e fuel unit limit (.binary (p.blame e unit) op left right) p

def union (e : Ending) : Nat → Option Span → Place → Outcome Phrase
  | 0, _, p => p.fault e (.unexpectedToken p.found)
  | fuel + 1, unit, p =>
    (path e fuel unit p).andThen [] fun left p => members e fuel unit left p

/-- The further members of a union, folded to the left and each blamed on its own lexemes. -/
def members (e : Ending) : Nat → Option Span → Phrase → Place → Outcome Phrase
  | 0, _, left, p => .broken [left] ⟨.unexpectedToken p.found, p.span e⟩
  | fuel + 1, unit, left, p =>
    if p.kind = .union then
      (p.advance e).andThen [left] fun _ p =>
      (path e fuel unit p).andThen [left] fun right q =>
      members e fuel unit (.binary ⟨(p.span e).start, q.last⟩ .union left right) q
    else .read left p

/-- A path; one that starts with a primary expression is itself the unit of its steps. -/
def path (e : Ending) : Nat → Option Span → Place → Outcome Phrase
  | 0, _, p => p.fault e (.unexpectedToken p.found)
  | fuel + 1, unit, p =>
    if p.startsPrimary then
      (filter e fuel unit p).andThen [] fun node q =>
        steps e fuel (some ⟨(p.span e).start, q.last⟩) node q
    else location e fuel unit p

def location (e : Ending) : Nat → Option Span → Place → Outcome Phrase
  | 0, _, p => p.fault e (.unexpectedToken p.found)
  | fuel + 1, unit, p =>
    match p.kind with
    | .slash =>
      (p.advance e).andThen [] fun _ p =>
      let root := wholeAxis (p.blame e unit) .root
      if p.startsStep then
        (relative e fuel unit p).andThen [root] fun rest p =>
          .read (.join (p.blame e unit) root rest) p
      else .read root p
    | .slashSlash =>
      (p.advance e).andThen [] fun _ p =>
      let root := wholeAxis (p.blame e unit) .root
      let inside := wholeAxis (p.blame e unit) .descendantOrSelf
      (relative e fuel unit p).andThen [root, inside] fun rest p =>
        .read (.join (p.blame e unit) root (.join (p.blame e unit) inside rest)) p
    | _ => relative e fuel unit p

def relative (e : Ending) : Nat → Option Span → Place → Outcome Phrase
  | 0, _, p => p.fault e (.unexpectedToken p.found)
  | fuel + 1, unit, p =>
    (step e fuel unit p).andThen [] fun first p => steps e fuel unit first p

/-- The steps behind `/` or `//`, if any, joined to what stands in front of them. -/
def steps (e : Ending) : Nat → Option Span → Phrase → Place → Outcome Phrase
  | 0, _, first, p => .broken [first] ⟨.unexpectedToken p.found, p.span e⟩
  | fuel + 1, unit, first, p =>
    match p.kind with
    | .slash =>
      (p.advance e).andThen [first] fun _ p =>
      (relative e fuel unit p).andThen [first] fun rest p =>
        .read (.join (p.blame e unit) first rest) p
    | .slashSlash =>
      (p.advance e).andThen [first] fun _ p =>
      let inside := wholeAxis (p.blame e unit) .descendantOrSelf
      (relative e fuel unit p).andThen [first, inside] fun rest p =>
        .read (.join (p.blame e unit) first (.join (p.blame e unit) inside rest)) p
    | _ => .read first p

def step (e : Ending) : Nat → Option Span → Place → Outcome Phrase
  | 0, _, p => p.fault e (.unexpectedToken p.found)
  | fuel + 1, unit, p =>
    match p.kind with
    | .dot => dotted e unit .dot .self p
    | .dotDot => dotted e unit .dotDot .parent p
    | _ =>
      (axisOf e p).andThen [] fun axis p =>
      (nodeTest e axis p).andThen [] fun node p =>
      predicates e fuel unit axis.isReverse node p

/-- The predicates of a node. -/
def predicates (e : Ending) : Nat → Option Span → Bool → Phrase → Place → Outcome Phrase
  | 0, _, _, node, p => .broken [node] ⟨.unexpectedToken p.found, p.span e⟩
  | fuel + 1, unit, reverse, node, p =>
    if p.kind = .lbracket then
      (p.advance e).andThen [node] fun _ p =>
      (operand e fuel unit 0 p).andThen [node] fun condition p =>
      (p.pass e .rbracket).andThen [node, condition] fun _ p =>
      predicates e fuel unit reverse (.predicate (p.blame e unit) node condition reverse) p
    else .read node p

/-- A primary expression with its predicates, of which it is the unit. -/
def filter (e : Ending) : Nat → Option Span → Place → Outcome Phrase
  | 0, _, p => p.fault e (.unexpectedToken p.found)
  | fuel + 1, unit, p =>
    (primary e fuel unit p).andThen [] fun node q =>
      predicates e fuel (some ⟨(p.span e).start, q.last⟩) false node q

def primary (e : Ending) : Nat → Option Span → Place → Outcome Phrase
  | 0, _, p => p.fault e (.unexpectedToken p.found)
  | fuel + 1, unit, p =>
    match p.kind with
    | .string =>
      let node := .string (p.blame e unit) p.content
      (p.advance e).andThen [node] fun _ p => .read node p
    | .number =>
      let node := .number (p.blame e unit) (String.ofList p.text)
      (p.advance e).andThen [node] fun _ p => .read node p
    | .dollar =>
      (p.advance e).andThen [] fun _ q =>
      (q.expect e .name).andThen [] fun _ q =>
      let node := .variable ⟨(p.span e).start, (q.span e).stop⟩ q.name.qualifier? q.name.base
      (q.advance e).andThen [node] fun _ q => .read node q
    | .lparen =>
      (p.advance e).andThen [] fun _ p =>
      (operand e fuel unit 0 p).andThen [] fun inner p =>
      (p.pass e .rparen).andThen [inner] fun _ p => .read inner p
    | _ =>
      (p.pass e .name).andThen [] fun _ q =>
      (q.pass e .lparen).andThen [] fun _ q =>
      (arguments e fuel unit q).andThen [] fun args q =>
      (q.advance e).andThen args fun _ q =>
      .read (.function ⟨(p.span e).start, q.last⟩ p.name.qualifier? p.name.base args) q

/-- The arguments of a function, up to its closing parenthesis. -/
def arguments (e : Ending) : Nat → Option Span → Place → Outcome (List Phrase)
  | 0, _, p => p.fault e (.unexpectedToken p.found)
  | fuel + 1, unit, p =>
    if p.kind = .rparen then .read [] p else someArguments e fuel unit p

/-- One or more arguments. -/
def someArguments (e : Ending) : Nat → Option Span → Place → Outcome (List Phrase)
  | 0, _, p => p.fault e (.unexpectedToken p.found)
  | fuel + 1, unit, p =>
    (operand e fuel unit 0 p).andThen [] fun arg p =>
    if p.kind = .comma then
      (p.advance e).andThen [arg] fun _ p =>
      (someArguments e fuel unit p).andThen [arg] fun args p => .read (arg :: args) p
    else (p.expect e .rparen).andThen [arg] fun _ p => .read [arg] p

end

/-- Enough fuel to read this many lexemes. -/
def fuel (lexemes : Nat) : Nat := 12 * (lexemes + 1)

end Rule

/-- Reads one expression from the first lexeme to the last; `last` is where the text starts. -/
def Phrase.ofScan (last : Nat) (s : Scan) : Outcome Phrase :=
  match s.lexemes, s.ending with
  | [], .faulty f => .broken [] f
  | ls, e =>
    (Rule.operand e (Rule.fuel ls.length) none 0 ⟨last, ls⟩).andThen [] fun phrase p =>
    (p.expect e .eof).andThen [phrase] fun _ p => .read phrase p

end StylesheetReversal.Path
