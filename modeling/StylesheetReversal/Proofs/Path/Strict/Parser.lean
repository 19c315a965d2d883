import StylesheetReversal.Path.Parser
import StylesheetReversal.Proofs.Path.Strict.Scanner
/-!
# Strict parsing

The rules of the grammar as strict work.  Where a lexeme has been announced, or a name is known to stand for something, there
is no fault to find: it would be a slip.
-/
namespace StylesheetReversal.Path.Strict

variable {σ ν : Type}

/-- Whether the current name is that of a node type. -/
def namesNodeType : Strict σ Bool := do
  let word ← name
  return word.qualifier = "" && (NodeKind.ofTypeName? word.base).isSome

/-- Whether the current name is that of a node type, and may be called. -/
def callsNodeType : Strict σ Bool := do
  if ← callable then namesNodeType else return false

/-- Whether a primary expression starts here. -/
def startsPrimary : Strict σ Bool := do
  match ← kind with
  | .string | .number | .dollar | .lparen => return true
  | .name => if ← callable then return !(← namesNodeType) else return false
  | _ => return false

def target (type : NodeKind) : Strict σ (Option String) := do
  let k ← kind
  if type = .processingInstruction ∧ k ≠ .rparen then
    check .string
    let said ← content
    advance
    return some (String.ofList said)
  else return none

def test (axis : Axis) : Strict σ Parser.Test := do
  match ← kind with
  | .name =>
    if ← callsNodeType then
      match NodeKind.ofTypeName? (← name).base with
      | some type =>
        advance
        announced .lparen
        let said ← target type
        pass .rparen
        return (type, none, said)
      | none => slip .meaningless
    else
      let word ← name
      advance
      return (axis.principalKind, word.qualifier?, word.base?)
  | .star =>
    advance
    return (axis.principalKind, none, none)
  | _ => blame Session.noNodeTest

def axisOf : Strict σ Axis := do
  match ← kind with
  | .axis =>
    match ← axis with
    | some axis =>
      advance
      announced .colonColon
      return axis
    | none => slip .meaningless
  | .at =>
    advance
    return .attribute
  | .name | .star => return .child
  | _ => blame Session.unexpected

variable (b : Builder σ ν)

def whole (axis : Axis) : Strict σ ν := ask b (.axis axis .all none none)

def nodeTest (axis : Axis) : Strict σ ν := do
  let first ← start
  let (type, qualifier, name) ← test axis
  let last ← before
  within ⟨first, last⟩ (ask b (.axis axis type qualifier name))

def dotted (step : DottedStep) (axis : Axis) : Strict σ ν := do
  advance
  let node ← whole b axis
  if (← kind) = .lbracket then blame fun s => s.noPredicate step else return node

def exhausted {α : Type} : Strict σ α := blame Session.unexpected

mutual

def operand : Nat → Nat → Strict σ ν
  | 0, _ => exhausted
  | fuel + 1, limit => do
    if (← kind) = .minus then
      advance
      let inner ← operand fuel Operator.unaryMinus.precedence
      let node ← ask b (.operator .unaryMinus (some inner) none)
      operators fuel limit node
    else
      let left ← union fuel
      operators fuel limit left

def operators : Nat → Nat → ν → Strict σ ν
  | 0, _, _ => exhausted
  | fuel + 1, limit, left => do
    match (← kind).operator? with
    | none => return left
    | some op =>
      if op = .union ∨ op.precedence ≤ limit then return left
      else
        advance
        let right ← operand fuel op.precedence
        let node ← ask b (.operator op (some left) (some right))
        operators fuel limit node

def union : Nat → Strict σ ν
  | 0 => exhausted
  | fuel + 1 => do
    let left ← path fuel
    members fuel left

def members : Nat → ν → Strict σ ν
  | 0, _ => exhausted
  | fuel + 1, left => do
    if (← kind) = .union then
      advance
      let first ← start
      let right ← path fuel
      let last ← before
      let node ← within ⟨first, last⟩ (ask b (.operator .union (some left) (some right)))
      members fuel node
    else return left

def path : Nat → Strict σ ν
  | 0 => exhausted
  | fuel + 1 => do
    if ← startsPrimary then
      let first ← start
      let node ← filter fuel
      let last ← before
      within ⟨first, last⟩ (steps fuel node)
    else location fuel

def location : Nat → Strict σ ν
  | 0 => exhausted
  | fuel + 1 => do
    match ← kind with
    | .slash =>
      advance
      let root ← whole b .root
      if ← look Session.startsStep then
        let rest ← relative fuel
        ask b (.join root rest)
      else return root
    | .slashSlash =>
      advance
      let root ← whole b .root
      let inside ← whole b .descendantOrSelf
      let rest ← relative fuel
      let tail ← ask b (.join inside rest)
      ask b (.join root tail)
    | _ => relative fuel

def relative : Nat → Strict σ ν
  | 0 => exhausted
  | fuel + 1 => do
    let first ← step fuel
    steps fuel first

def steps : Nat → ν → Strict σ ν
  | 0, _ => exhausted
  | fuel + 1, first => do
    match ← kind with
    | .slash =>
      advance
      let rest ← relative fuel
      ask b (.join first rest)
    | .slashSlash =>
      advance
      let inside ← whole b .descendantOrSelf
      let rest ← relative fuel
      let tail ← ask b (.join inside rest)
      ask b (.join first tail)
    | _ => return first

def step : Nat → Strict σ ν
  | 0 => exhausted
  | fuel + 1 => do
    match ← kind with
    | .dot => dotted b .dot .self
    | .dotDot => dotted b .dotDot .parent
    | _ =>
      let axis ← axisOf
      let node ← nodeTest b axis
      predicates fuel axis.isReverse node

def predicates : Nat → Bool → ν → Strict σ ν
  | 0, _, _ => exhausted
  | fuel + 1, reverse, node => do
    if (← kind) = .lbracket then
      announced .lbracket
      let condition ← operand fuel 0
      pass .rbracket
      let node ← ask b (.predicate node condition reverse)
      predicates fuel reverse node
    else return node

def filter : Nat → Strict σ ν
  | 0 => exhausted
  | fuel + 1 => do
    let first ← start
    let node ← primary fuel
    let last ← before
    within ⟨first, last⟩ (predicates fuel false node)

/-- What starts a primary expression, and is nothing else, is the name of a function. -/
def primary : Nat → Strict σ ν
  | 0 => exhausted
  | fuel + 1 => do
    match ← kind with
    | .string =>
      let said ← content
      let node ← ask b (.string (String.ofList said))
      advance
      return node
    | .number =>
      let digits ← text
      let node ← ask b (.number (String.ofList digits))
      advance
      return node
    | .dollar =>
      let first ← start
      advance
      check .name
      let word ← name
      let last ← stop
      let node ← within ⟨first, last⟩ (ask b (.variable word.qualifier? word.base))
      advance
      return node
    | .lparen =>
      advance
      let inner ← operand fuel 0
      pass .rparen
      return inner
    | _ =>
      let first ← start
      let word ← name
      announced .name
      announced .lparen
      let args ← arguments fuel
      advance
      let last ← before
      within ⟨first, last⟩ (ask b (.function word.qualifier? word.base args))

def arguments : Nat → Strict σ (List ν)
  | 0 => exhausted
  | fuel + 1 => do
    if (← kind) = .rparen then return [] else someArguments fuel

def someArguments : Nat → Strict σ (List ν)
  | 0 => exhausted
  | fuel + 1 => do
    let arg ← operand fuel 0
    if (← kind) = .comma then
      advance
      let args ← someArguments fuel
      return arg :: args
    else
      check .rparen
      return [arg]

end

def expression (fuel : Nat) : Strict σ ν := do
  advance
  let node ← operand b fuel 0
  check .eof
  return node

/-- Reads an expression and builds it, and sees to it that no unit is left at the end. -/
def parse (text : String) (start : Nat) (st : σ) : Except Slip (Except ParseError ν × σ) :=
  match expression b (Parser.fuel (Session.fresh text start).rest.length) ⟨.fresh text start, [], b.start st⟩ with
  | .error slip => .error slip
  | .ok (result, d) =>
    if d.units ≠ [] then .error .unfinished
    else
      match result with
      | .error fault => .ok (.error ⟨fault, text⟩, (b.finish none d.state).2)
      | .ok node =>
        match b.finish (some node) d.state with
        | (some result, s) => .ok (.ok result, s)
        | (none, s) =>
          .ok (.error ⟨⟨.rejected "the builder discarded the result", ⟨start, text.utf8ByteSize⟩⟩, text⟩, s)

end StylesheetReversal.Path.Strict
