/-!
# Operators

The operators of the expression language and how tightly they bind.
-/
namespace StylesheetReversal.Path

inductive Operator
  | or
  | and
  | eq
  | ne
  | lt
  | le
  | gt
  | ge
  | plus
  | minus
  | multiply
  | divide
  | modulo
  | unaryMinus
  | union
  deriving DecidableEq, Repr

namespace Operator

/-- How tightly the operator binds: operands of the higher number are taken first, and
operators of one number associate to the left. -/
def precedence : Operator → Nat
  | .or => 1
  | .and => 2
  | .eq | .ne => 3
  | .lt | .le | .gt | .ge => 4
  | .plus | .minus => 5
  | .multiply | .divide | .modulo => 6
  | .unaryMinus => 7
  | .union => 8

/-- The word for the operator in a printed tree. -/
def label : Operator → String
  | .or => "Or"
  | .and => "And"
  | .eq => "Eq"
  | .ne => "Ne"
  | .lt => "Lt"
  | .le => "Le"
  | .gt => "Gt"
  | .ge => "Ge"
  | .plus => "Plus"
  | .minus => "Minus"
  | .multiply => "Multiply"
  | .divide => "Divide"
  | .modulo => "Modulo"
  | .unaryMinus => "Negate"
  | .union => "Union"

end Operator

end StylesheetReversal.Path
