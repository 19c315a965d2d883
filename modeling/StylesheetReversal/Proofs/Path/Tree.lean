import StylesheetReversal.Path.Expr
import StylesheetReversal.Proofs.Path.Building
/-!
# The tree of a phrase

A phrase is a tree with a window at every node.  Building it into an `Expr` takes the windows away
and does nothing else (`Expr.build_builder`).
-/
namespace StylesheetReversal.Path

mutual

/-- The phrase without its windows. -/
def Phrase.expr : Phrase → Expr
  | .string _ value => .string value
  | .number _ text => .number text
  | .binary _ op left right => .operator op (some left.expr) (some right.expr)
  | .negation _ inner => .operator .unaryMinus (some inner.expr) none
  | .axis _ along kind qualifier name => .axis along kind qualifier name
  | .join _ left right => .join left.expr right.expr
  | .predicate _ node condition reverse => .predicate node.expr condition.expr reverse
  | .variable _ qualifier name => .variable qualifier name
  | .function _ qualifier name args => .function qualifier name (Phrase.exprs args)

def Phrase.exprs : List Phrase → List Expr
  | [] => []
  | p :: ps => p.expr :: Phrase.exprs ps

end

mutual

theorem Expr.build_builder : ∀ (p : Phrase) (s : Unit), builder.build p s = (.ok p.expr, s)
  | .string _ _, _ => rfl
  | .number _ _, _ => rfl
  | .binary _ op left right, s => by
    simp only [Builder.build, Builder.Work.andThen, build_builder left, build_builder right]
    rfl
  | .negation _ inner, s => by
    simp only [Builder.build, Builder.Work.andThen, build_builder inner]
    rfl
  | .axis .., _ => rfl
  | .join _ left right, s => by
    simp only [Builder.build, Builder.Work.andThen, build_builder left, build_builder right]
    rfl
  | .predicate _ node condition _, s => by
    simp only [Builder.build, Builder.Work.andThen, build_builder node, build_builder condition]
    rfl
  | .variable .., _ => rfl
  | .function _ _ _ args, s => by
    simp only [Builder.build, Builder.Work.andThen, buildAll_builder args]
    rfl

theorem Expr.buildAll_builder :
    ∀ (ps : List Phrase) (s : Unit), builder.buildAll ps s = (.ok (Phrase.exprs ps), s)
  | [], _ => rfl
  | p :: ps, s => by
    simp only [Builder.buildAll, Builder.Work.andThen, build_builder p, buildAll_builder ps]
    rfl

end

end StylesheetReversal.Path
