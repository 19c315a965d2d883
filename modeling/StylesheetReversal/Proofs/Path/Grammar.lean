import StylesheetReversal.Path.Expr
/-!
# The grammar as a relation

`Derives` is the stratified grammar of expressions, one constructor for each alternative of a rule,
as a relation between a symbol, a list of lexemes and the tree they stand for.  It says nothing of
how a list of lexemes is read: the levels of operators are symbols of their own, repetitions are
left-recursive, and no rule looks ahead.

    Expr               ::= OrExpr
    OrExpr             ::= AndExpr | OrExpr 'or' AndExpr
    AndExpr            ::= EqualityExpr | AndExpr 'and' EqualityExpr
    EqualityExpr       ::= RelationalExpr | EqualityExpr ('=' | '!=') RelationalExpr
    RelationalExpr     ::= AdditiveExpr | RelationalExpr ('<' | '<=' | '>' | '>=') AdditiveExpr
    AdditiveExpr       ::= MultiplicativeExpr | AdditiveExpr ('+' | '-') MultiplicativeExpr
    MultiplicativeExpr ::= UnaryExpr | MultiplicativeExpr ('*' | 'div' | 'mod') UnaryExpr
    UnaryExpr          ::= '-' UnaryExpr | UnionExpr
    UnionExpr          ::= PathExpr | UnionExpr '|' PathExpr
-/
namespace StylesheetReversal.Path

/-- A lexeme without its window, which is all the grammar looks at. -/
structure Token where
  kind : Kind
  text : List Char
  deriving DecidableEq, Repr

namespace Token

/-- The name a token of kind `name` or `axis` spells. -/
def name (x : Token) : WrittenName := .ofChars x.text

/-- What a string literal says. -/
def content (x : Token) : String := String.ofList (unquote x.text)

/-- Whether a name is that of a node type, without a qualifier. -/
def isNodeType (x : Token) : Bool :=
  x.name.qualifier = "" && (NodeKind.ofTypeName? x.name.base).isSome

/-- The names that functions can have: all but wildcards and the names of node types. -/
def isFunctionName (x : Token) : Bool := x.kind = .name && !x.name.isWildcard && !x.isNodeType

end Token

def Lexeme.token (l : Lexeme) : Token := ⟨l.kind, l.text⟩

/-- The symbols of the grammar.  The levels `1` to `6` are the binary operators from `OrExpr` to
`MultiplicativeExpr`, and level `7` is `UnaryExpr`; `tested` is a node test with its predicates. -/
inductive Symbol
  | level (n : Nat)
  | union
  | path
  | location
  | relative
  | step
  | tested (axis : Axis)
  | test (axis : Axis)
  | filter
  | primary
  deriving DecidableEq, Repr

/-- The whole expression. -/
abbrev Symbol.expr : Symbol := .level 1

/-- The operators of a level. -/
def operatorsAt : Nat → List Kind
  | 1 => [.or]
  | 2 => [.and]
  | 3 => [.eq, .ne]
  | 4 => [.lt, .le, .gt, .ge]
  | 5 => [.plus, .minus]
  | 6 => [.multiply, .divide, .modulo]
  | _ => []

namespace Expr

/-- The step that keeps every node of an axis. -/
def whole (along : Axis) : Expr := .axis along .all none none

/-- Steps joined by `/`. -/
def slash (left right : Expr) : Expr := .join left right

/-- Steps joined by `//`, which stands for a step of its own. -/
def slashSlash (left right : Expr) : Expr := .join left (.join (whole .descendantOrSelf) right)

/-- A binary operation. -/
def binary (op : Operator) (left right : Expr) : Expr := .operator op (some left) (some right)

def negation (inner : Expr) : Expr := .operator .unaryMinus (some inner) none

end Expr

mutual

/-- The lexemes of a symbol, and the tree they stand for. -/
inductive Derives : Symbol → List Token → Expr → Prop
  | tighter {n : Nat} {w : List Token} {t : Expr} :
    n < 7 → Derives (.level (n + 1)) w t → Derives (.level n) w t
  | binary {n : Nat} {v w : List Token} {x : Token} {op : Operator} {l r : Expr} :
    x.kind ∈ operatorsAt n → x.kind.operator? = some op →
    Derives (.level n) v l → Derives (.level (n + 1)) w r →
    Derives (.level n) (v ++ x :: w) (.binary op l r)
  | negation {w : List Token} {x : Token} {t : Expr} :
    x.kind = .minus → Derives (.level 7) w t → Derives (.level 7) (x :: w) (.negation t)
  | unary {w : List Token} {t : Expr} : Derives .union w t → Derives (.level 7) w t
  | member {w : List Token} {t : Expr} : Derives .path w t → Derives .union w t
  | union {v w : List Token} {x : Token} {l r : Expr} :
    x.kind = .union → Derives .union v l → Derives .path w r →
    Derives .union (v ++ x :: w) (.binary .union l r)
  | location {w : List Token} {t : Expr} : Derives .location w t → Derives .path w t
  | filter {w : List Token} {t : Expr} : Derives .filter w t → Derives .path w t
  | filterSlash {v w : List Token} {x : Token} {l r : Expr} :
    x.kind = .slash → Derives .filter v l → Derives .relative w r →
    Derives .path (v ++ x :: w) (.slash l r)
  | filterSlashSlash {v w : List Token} {x : Token} {l r : Expr} :
    x.kind = .slashSlash → Derives .filter v l → Derives .relative w r →
    Derives .path (v ++ x :: w) (.slashSlash l r)
  | relative {w : List Token} {t : Expr} : Derives .relative w t → Derives .location w t
  | root {x : Token} : x.kind = .slash → Derives .location [x] (.whole .root)
  | rootSlash {w : List Token} {x : Token} {r : Expr} :
    x.kind = .slash → Derives .relative w r → Derives .location (x :: w) (.slash (.whole .root) r)
  | rootSlashSlash {w : List Token} {x : Token} {r : Expr} :
    x.kind = .slashSlash → Derives .relative w r →
    Derives .location (x :: w) (.slashSlash (.whole .root) r)
  | step {w : List Token} {t : Expr} : Derives .step w t → Derives .relative w t
  | stepSlash {v w : List Token} {x : Token} {l r : Expr} :
    x.kind = .slash → Derives .step v l → Derives .relative w r →
    Derives .relative (v ++ x :: w) (.slash l r)
  | stepSlashSlash {v w : List Token} {x : Token} {l r : Expr} :
    x.kind = .slashSlash → Derives .step v l → Derives .relative w r →
    Derives .relative (v ++ x :: w) (.slashSlash l r)
  | dot {x : Token} : x.kind = .dot → Derives .step [x] (.whole .self)
  | dotDot {x : Token} : x.kind = .dotDot → Derives .step [x] (.whole .parent)
  | child {w : List Token} {t : Expr} : Derives (.tested .child) w t → Derives .step w t
  | attribute {w : List Token} {x : Token} {t : Expr} :
    x.kind = .at → Derives (.tested .attribute) w t → Derives .step (x :: w) t
  | axis {w : List Token} {x y : Token} {a : Axis} {t : Expr} :
    x.kind = .axis → Axis.ofName? x.name.base = some a → y.kind = .colonColon →
    Derives (.tested a) w t → Derives .step (x :: y :: w) t
  | test {a : Axis} {w : List Token} {t : Expr} : Derives (.test a) w t → Derives (.tested a) w t
  | testPredicate {a : Axis} {v w : List Token} {x y : Token} {t c : Expr} :
    x.kind = .lbracket → y.kind = .rbracket → Derives (.tested a) v t → Derives .expr w c →
    Derives (.tested a) (v ++ x :: (w ++ [y])) (.predicate t c a.isReverse)
  | star {a : Axis} {x : Token} :
    x.kind = .star → Derives (.test a) [x] (.axis a a.principalKind none none)
  | name {a : Axis} {x : Token} :
    x.kind = .name →
    Derives (.test a) [x] (.axis a a.principalKind x.name.qualifier? x.name.base?)
  | nodeType {a : Axis} {x y z : Token} {k : NodeKind} :
    x.kind = .name → x.name.qualifier = "" → NodeKind.ofTypeName? x.name.base = some k →
    y.kind = .lparen → z.kind = .rparen →
    Derives (.test a) [x, y, z] (.axis a k none none)
  | instruction {a : Axis} {x y s z : Token} :
    x.kind = .name → x.name.qualifier = "" →
    NodeKind.ofTypeName? x.name.base = some .processingInstruction →
    y.kind = .lparen → s.kind = .string → z.kind = .rparen →
    Derives (.test a) [x, y, s, z] (.axis a .processingInstruction none (some s.content))
  | primary {w : List Token} {t : Expr} : Derives .primary w t → Derives .filter w t
  | filterPredicate {v w : List Token} {x y : Token} {t c : Expr} :
    x.kind = .lbracket → y.kind = .rbracket → Derives .filter v t → Derives .expr w c →
    Derives .filter (v ++ x :: (w ++ [y])) (.predicate t c false)
  | string {x : Token} : x.kind = .string → Derives .primary [x] (.string x.content)
  | number {x : Token} : x.kind = .number → Derives .primary [x] (.number (String.ofList x.text))
  | variable {x y : Token} :
    x.kind = .dollar → y.kind = .name →
    Derives .primary [x, y] (.variable y.name.qualifier? y.name.base)
  | parens {w : List Token} {x y : Token} {t : Expr} :
    x.kind = .lparen → y.kind = .rparen → Derives .expr w t → Derives .primary (x :: (w ++ [y])) t
  | call {x y z : Token} :
    x.isFunctionName → y.kind = .lparen → z.kind = .rparen →
    Derives .primary [x, y, z] (.function x.name.qualifier? x.name.base [])
  | callWith {w : List Token} {x y z : Token} {args : List Expr} :
    x.isFunctionName → y.kind = .lparen → z.kind = .rparen → DerivesArguments w args →
    Derives .primary (x :: y :: (w ++ [z])) (.function x.name.qualifier? x.name.base args)

/-- One or more arguments of a function, with a comma between any two. -/
inductive DerivesArguments : List Token → List Expr → Prop
  | last {w : List Token} {t : Expr} : Derives .expr w t → DerivesArguments w [t]
  | more {v w : List Token} {x : Token} {t : Expr} {args : List Expr} :
    x.kind = .comma → Derives .expr v t → DerivesArguments w args →
    DerivesArguments (v ++ x :: w) (t :: args)

end

end StylesheetReversal.Path
