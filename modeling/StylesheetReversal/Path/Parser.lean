import StylesheetReversal.Path.Desk
/-!
# The grammar

One function for each rule of the grammar reads the longest piece of text of that rule and has it
built.

    Expr               ::= OrExpr
    OrExpr             ::= AndExpr ('or' AndExpr)*
    AndExpr            ::= EqualityExpr ('and' EqualityExpr)*
    EqualityExpr       ::= RelationalExpr (('=' | '!=') RelationalExpr)*
    RelationalExpr     ::= AdditiveExpr (('<' | '<=' | '>' | '>=') AdditiveExpr)*
    AdditiveExpr       ::= MultiplicativeExpr (('+' | '-') MultiplicativeExpr)*
    MultiplicativeExpr ::= UnaryExpr (('*' | 'div' | 'mod') UnaryExpr)*
    UnaryExpr          ::= '-' UnaryExpr | UnionExpr
    UnionExpr          ::= PathExpr ('|' PathExpr)*
    PathExpr           ::= LocationPath | FilterExpr (('/' | '//') RelativePath)?
    LocationPath       ::= RelativePath | '/' RelativePath? | '//' RelativePath
    RelativePath       ::= Step (('/' | '//') RelativePath)?
    Step               ::= '.' | '..' | (AxisName '::' | '@')? NodeTest Predicate*
    NodeTest           ::= NameTest | NodeType '(' ')' | 'processing-instruction' '(' Literal? ')'
    Predicate          ::= '[' Expr ']'
    FilterExpr         ::= PrimaryExpr Predicate*
    PrimaryExpr        ::= Literal | Number | '$' Name | '(' Expr ')' | FunctionCall
    FunctionCall       ::= FunctionName '(' (Expr (',' Expr)*)? ')'

The six levels of binary operators are one rule, `operand`, with the precedence that an
operator has to exceed to belong to it.

The rules call one another without passing a lexeme only a few times in a row, which is what
bounds `fuel`.
-/
namespace StylesheetReversal.Path

namespace Session

/-- Whether the current name is that of a node type. -/
def namesNodeType (s : Session) : Bool :=
  s.name.qualifier = "" && (NodeKind.ofTypeName? s.name.base).isSome

/-- Whether a step starts here. -/
def startsStep (s : Session) : Bool :=
  match s.kind with
  | .dot | .dotDot | .at | .axis | .star | .name => true
  | _ => false

/-- Whether a primary expression starts here. -/
def startsPrimary (s : Session) : Bool :=
  match s.kind with
  | .string | .number | .dollar | .lparen => true
  | .name => s.isCallable && !s.namesNodeType
  | _ => false

end Session

namespace Parser

open Reading

variable {σ ν : Type}

/-- What a node test keeps: the kind, and the qualifier and name if it asks for them. -/
abbrev Test := NodeKind × Option String × Option String

/-- The target of a processing-instruction test, if one is given. -/
def target (kind : NodeKind) : Reading σ (Option String) := do
  let s ← here
  if kind = .processingInstruction ∧ s.kind ≠ .rparen then
    check .string
    advance
    return some (String.ofList s.content)
  else return none

/-- A node test on an axis. -/
def test (axis : Axis) : Reading σ Test := do
  let s ← here
  match s.kind with
  | .name =>
    if s.isCallable ∧ s.namesNodeType then
      match NodeKind.ofTypeName? s.name.base with
      | some kind =>
        advance
        pass .lparen
        let name ← target kind
        pass .rparen
        return (kind, none, name)
      | none => fail s.noNodeTest
    else
      advance
      return (axis.principalKind, s.name.qualifier?, s.name.base?)
  | .star =>
    advance
    return (axis.principalKind, none, none)
  | _ => fail s.noNodeTest

/-- The axis in front of a node test; without one it is `child`. -/
def axisOf : Reading σ Axis := do
  let s ← here
  match s.kind with
  | .axis =>
    match s.axis with
    | some axis =>
      advance
      pass .colonColon
      return axis
    | none => fail s.unexpected
  | .at =>
    advance
    return .attribute
  | .name | .star => return .child
  | _ => fail s.unexpected

variable (b : Builder σ ν)

/-- The step that keeps every node of an axis. -/
def whole (axis : Axis) : Reading σ ν := ask b (.axis axis .all none none)

/-- A node test, built as a unit of its own. -/
def nodeTest (axis : Axis) : Reading σ ν := do
  let first ← here
  let (kind, qualifier, name) ← test axis
  let s ← here
  within ⟨first.start, s.before⟩ (ask b (.axis axis kind qualifier name))

/-- The step `.` or `..`, which takes no predicate. -/
def dotted (step : DottedStep) (axis : Axis) : Reading σ ν := do
  advance
  let node ← whole b axis
  let s ← here
  if s.kind = .lbracket then fail (s.noPredicate step) else return node

/-- The fault of a rule that has run out of fuel. -/
def exhausted {α : Type} : Reading σ α := do
  let s ← here
  fail s.unexpected

mutual

/-- An expression of operators that bind tighter than `limit`; an expression of any operators
when `limit` is `0`. -/
def operand : Nat → Nat → Reading σ ν
  | 0, _ => exhausted
  | fuel + 1, limit => do
    let s ← here
    if s.kind = .minus then
      advance
      let inner ← operand fuel Operator.unaryMinus.precedence
      let node ← ask b (.operator .unaryMinus (some inner) none)
      operators fuel limit node
    else
      let left ← union fuel
      operators fuel limit left

/-- The operators that bind tighter than `limit`, and their right operands. -/
def operators : Nat → Nat → ν → Reading σ ν
  | 0, _, _ => exhausted
  | fuel + 1, limit, left => do
    let s ← here
    match s.kind.operator? with
    | none => return left
    | some op =>
      if op = .union ∨ op.precedence ≤ limit then return left
      else
        advance
        let right ← operand fuel op.precedence
        let node ← ask b (.operator op (some left) (some right))
        operators fuel limit node

def union : Nat → Reading σ ν
  | 0 => exhausted
  | fuel + 1 => do
    let left ← path fuel
    members fuel left

/-- The further members of a union, folded to the left; each is built as a unit of its own. -/
def members : Nat → ν → Reading σ ν
  | 0, _ => exhausted
  | fuel + 1, left => do
    let s ← here
    if s.kind = .union then
      advance
      let first ← here
      let right ← path fuel
      let s ← here
      let node ← within ⟨first.start, s.before⟩ (ask b (.operator .union (some left) (some right)))
      members fuel node
    else return left

/-- A path; one that starts with a primary expression is itself the unit of its steps. -/
def path : Nat → Reading σ ν
  | 0 => exhausted
  | fuel + 1 => do
    let first ← here
    if first.startsPrimary then
      let node ← filter fuel
      let s ← here
      within ⟨first.start, s.before⟩ (steps fuel node)
    else location fuel

def location : Nat → Reading σ ν
  | 0 => exhausted
  | fuel + 1 => do
    let s ← here
    match s.kind with
    | .slash =>
      advance
      let root ← whole b .root
      let s ← here
      if s.startsStep then
        let rest ← relative fuel
        ask b (.join root rest)
      else return root
    | .slashSlash =>
      advance
      let root ← whole b .root
      let inside ← whole b .descendantOrSelf
      let rest ← relative fuel
      let tail ← ask b (.join inside rest)
      ask b (.join root tail)
    | _ => relative fuel

def relative : Nat → Reading σ ν
  | 0 => exhausted
  | fuel + 1 => do
    let first ← step fuel
    steps fuel first

/-- The steps behind `/` or `//`, if any, joined to what stands in front of them. -/
def steps : Nat → ν → Reading σ ν
  | 0, _ => exhausted
  | fuel + 1, first => do
    let s ← here
    match s.kind with
    | .slash =>
      advance
      let rest ← relative fuel
      ask b (.join first rest)
    | .slashSlash =>
      advance
      let inside ← whole b .descendantOrSelf
      let rest ← relative fuel
      let tail ← ask b (.join inside rest)
      ask b (.join first tail)
    | _ => return first

def step : Nat → Reading σ ν
  | 0 => exhausted
  | fuel + 1 => do
    let s ← here
    match s.kind with
    | .dot => dotted b .dot .self
    | .dotDot => dotted b .dotDot .parent
    | _ =>
      let axis ← axisOf
      let node ← nodeTest b axis
      predicates fuel axis.isReverse node

/-- The predicates of a node. -/
def predicates : Nat → Bool → ν → Reading σ ν
  | 0, _, _ => exhausted
  | fuel + 1, reverse, node => do
    let s ← here
    if s.kind = .lbracket then
      pass .lbracket
      let condition ← operand fuel 0
      pass .rbracket
      let node ← ask b (.predicate node condition reverse)
      predicates fuel reverse node
    else return node

/-- A primary expression with its predicates, of which it is the unit. -/
def filter : Nat → Reading σ ν
  | 0 => exhausted
  | fuel + 1 => do
    let first ← here
    let node ← primary fuel
    let s ← here
    within ⟨first.start, s.before⟩ (predicates fuel false node)

/-- A variable and a function are built as units of their own.  A literal is built before the next
lexeme is read. -/
def primary : Nat → Reading σ ν
  | 0 => exhausted
  | fuel + 1 => do
    let first ← here
    match first.kind with
    | .string =>
      let node ← ask b (.string (String.ofList first.content))
      advance
      return node
    | .number =>
      let node ← ask b (.number (String.ofList first.text))
      advance
      return node
    | .dollar =>
      advance
      check .name
      let s ← here
      let node ← within ⟨first.start, s.stop⟩ (ask b (.variable s.name.qualifier? s.name.base))
      advance
      return node
    | .lparen =>
      advance
      let inner ← operand fuel 0
      pass .rparen
      return inner
    | _ =>
      check .name
      pass .name
      pass .lparen
      let args ← arguments fuel
      advance
      let s ← here
      within ⟨first.start, s.before⟩ (ask b (.function first.name.qualifier? first.name.base args))

/-- The arguments of a function, up to its closing parenthesis. -/
def arguments : Nat → Reading σ (List ν)
  | 0 => exhausted
  | fuel + 1 => do
    let s ← here
    if s.kind = .rparen then return [] else someArguments fuel

/-- One or more arguments. -/
def someArguments : Nat → Reading σ (List ν)
  | 0 => exhausted
  | fuel + 1 => do
    let arg ← operand fuel 0
    let s ← here
    if s.kind = .comma then
      advance
      let args ← someArguments fuel
      return arg :: args
    else
      check .rparen
      return [arg]

end

/-- Enough fuel to read this many lexemes. -/
def fuel (lexemes : Nat) : Nat := 12 * (lexemes + 1)

/-- A whole expression, from the first lexeme to the last. -/
def expression (fuel : Nat) : Reading σ ν := do
  advance
  let node ← operand b fuel 0
  check .eof
  return node

end Parser

namespace Builder

variable {σ ν : Type}

/-- Reads the expression that starts at byte `start` of the text and builds it.  There are no more
lexemes than characters. -/
def parse (b : Builder σ ν) (text : String) (start : Nat) (s : σ) : Except ParseError ν × σ :=
  let session := Session.fresh text start
  let fuel := Parser.fuel session.rest.length
  match Parser.expression b fuel ⟨session, [], b.start s⟩ with
  | (.error fault, d) => (.error ⟨fault, text⟩, (b.finish none d.state).2)
  | (.ok node, d) =>
    match b.finish (some node) d.state with
    | (some result, s) => (.ok result, s)
    | (none, s) =>
      let cause := Cause.rejected "the builder discarded the result"
      (.error ⟨⟨cause, ⟨start, text.utf8ByteSize⟩⟩, text⟩, s)

end Builder

end StylesheetReversal.Path
