import StylesheetReversal.Proofs.Path.Judgement
import StylesheetReversal.Proofs.Path.Tree
/-!
# The rules read the grammar

Every rule of the parser meets the language of its symbol (`ruleSpecs`): what it reads derives from
the symbol, and where it breaks, the lexemes passed can be completed to a derivation.  The rules are
taken one by one, each from the others with less fuel; the fuel a rule needs is twelve for each
lexeme ahead and a few more for the rules it calls in the same place.
-/
namespace StylesheetReversal.Path

/-! ## A name completes everything -/

/-- The shortest step there is. -/
def Token.anyName : Token := ⟨.name, ['a']⟩

def Phrase.anyName (along : Axis) : Phrase := .axis ⟨0, 0⟩ along along.principalKind none (some "a")

theorem Derives.loosen {m n : Nat} {w : List Token} {t : Expr} (hmn : m ≤ n) (hn : n ≤ 7)
    (h : Derives (.level n) w t) : Derives (.level m) w t := by
  induction n with
  | zero => obtain rfl : m = 0 := by omega
            exact h
  | succ n ih =>
    by_cases he : m = n + 1
    · rw [he]; exact h
    · exact ih (by omega) (by omega) (.tighter (by omega) h)

theorem derives_anyName_tested (a : Axis) :
    Derives (.tested a) [Token.anyName] (Phrase.anyName a).expr :=
  .test (.name (x := Token.anyName) rfl)

theorem derives_anyName_relative :
    Derives .relative [Token.anyName] (Phrase.anyName .child).expr :=
  .step (.child (derives_anyName_tested .child))

theorem derives_anyName_path : Derives .path [Token.anyName] (Phrase.anyName .child).expr :=
  .location (.relative derives_anyName_relative)

theorem derives_anyName_level {n : Nat} (hn : n ≤ 7) :
    Derives (.level n) [Token.anyName] (Phrase.anyName .child).expr :=
  .loosen hn (Nat.le_refl 7) (.unary (.member derives_anyName_path))

/-! ## Operators -/

/-- No operator of this kind binds tighter than `limit`. -/
def Closed (limit : Nat) (k : Kind) : Prop := ∀ op, k.operator? = some op → op.precedence ≤ limit

theorem closed_eof (limit : Nat) : Closed limit .eof := fun _ h => by cases h

/-- The level of expressions whose operators bind tighter than `limit`. -/
def levelAbove (limit : Nat) : Symbol := .level (min (limit + 1) 7)

theorem mem_operatorsAt {k : Kind} {op : Operator} (h : k.operator? = some op) (hu : op ≠ .union) :
    k ∈ operatorsAt op.precedence ∧ 1 ≤ op.precedence ∧ op.precedence ≤ 6 := by
  cases k <;> simp only [Kind.operator?, Option.some.injEq, reduceCtorEq] at h <;> subst h <;>
    first | exact absurd rfl hu | decide

theorem Closed.ne_union {k : Kind} {op : Operator} (h : Closed 7 k) (hop : k.operator? = some op) :
    op ≠ .union := by
  intro hu
  have := h op hop
  rw [hu] at this
  exact absurd this (by decide)

theorem closed_seven {k : Kind} (h : k ≠ .union) : Closed 7 k := by
  intro op hop
  have hu : op ≠ .union := by
    intro hu
    rw [hu] at hop
    cases k <;> simp [Kind.operator?] at hop h
  have := (mem_operatorsAt hop hu).2.2
  omega

/-! ## What each rule needs and gives -/

/-- The language of the rules that make a phrase of a symbol, behind lexemes passed before. -/
abbrev Makes (s : Symbol) (v w : List Token) (t : Phrase) (_ : Kind) : Prop :=
  Derives s (v ++ w) t.expr

/-- Whether steps behind `/` or `//` turn one symbol into another. -/
structure Joins (s t : Symbol) : Prop where
  alone : ∀ {w l}, Derives s w l → Derives t w l
  slash : ∀ {v w x l r}, x.kind = .slash → Derives s v l → Derives .relative w r →
    Derives t (v ++ x :: w) (.slash l r)
  slashSlash : ∀ {v w x l r}, x.kind = .slashSlash → Derives s v l → Derives .relative w r →
    Derives t (v ++ x :: w) (.slashSlash l r)

theorem joins_step : Joins .step .relative := ⟨.step, .stepSlash, .stepSlashSlash⟩

theorem joins_filter : Joins .filter .path := ⟨.filter, .filterSlash, .filterSlashSlash⟩

/-- Whether predicates make no difference to a symbol. -/
def TakesPredicates (s : Symbol) (reverse : Bool) : Prop :=
  ∀ {v w x y t c}, x.kind = .lbracket → y.kind = .rbracket → Derives s v t → Derives .expr w c →
    Derives s (v ++ x :: (w ++ [y])) (.predicate t c reverse)

theorem takesPredicates_tested (a : Axis) : TakesPredicates (.tested a) a.isReverse := .testPredicate

theorem takesPredicates_filter : TakesPredicates .filter false := .filterPredicate

/-- What is known of all rules at some fuel, wherever that is enough. -/
structure RuleSpecs (k : Nat) : Prop where
  operand : ∀ {k' e unit limit p}, k ≤ k' → p.Stands e → limit ≤ 7 → 12 * p.ahead.length + 6 ≤ k →
    (Rule.operand e k unit limit p).Meets e p
      (fun w t kind => Derives (levelAbove limit) w t.expr ∧ Closed limit kind) False
      (fun e' p' => Rule.operand e' k' unit limit p')
  operators : ∀ {k' e unit limit p v left m}, k ≤ k' → p.Stands e → limit ≤ 7 →
    12 * p.ahead.length + 1 ≤ k → Derives (.level m) v (Phrase.expr left) → min (limit + 1) 7 ≤ m →
    m ≤ 7 → Closed m p.kind →
    (Rule.operators e k unit limit left p).Meets e p
      (fun w t kind => Derives (levelAbove limit) (v ++ w) t.expr ∧ Closed limit kind) False
      (fun e' p' => Rule.operators e' k' unit limit left p')
  union : ∀ {k' e unit p}, k ≤ k' → p.Stands e → 12 * p.ahead.length + 5 ≤ k →
    (Rule.union e k unit p).Meets e p
      (fun w t kind => Derives .union w t.expr ∧ Closed 7 kind) False
      (fun e' p' => Rule.union e' k' unit p')
  members : ∀ {k' e unit p v left}, k ≤ k' → p.Stands e → 12 * p.ahead.length + 1 ≤ k →
    Derives .union v (Phrase.expr left) →
    (Rule.members e k unit left p).Meets e p
      (fun w t kind => Derives .union (v ++ w) t.expr ∧ Closed 7 kind) False
      (fun e' p' => Rule.members e' k' unit left p')
  path : ∀ {k' e unit p}, k ≤ k' → p.Stands e → 12 * p.ahead.length + 4 ≤ k →
    (Rule.path e k unit p).Meets e p (Makes .path []) False
      (fun e' p' => Rule.path e' k' unit p')
  location : ∀ {k' e unit p}, k ≤ k' → p.Stands e → 12 * p.ahead.length + 3 ≤ k →
    (Rule.location e k unit p).Meets e p (Makes .location []) (p.kind = .name)
      (fun e' p' => Rule.location e' k' unit p')
  relative : ∀ {k' e unit p}, k ≤ k' → p.Stands e → 12 * p.ahead.length + 2 ≤ k →
    (Rule.relative e k unit p).Meets e p (Makes .relative []) (p.kind = .name)
      (fun e' p' => Rule.relative e' k' unit p')
  steps : ∀ {k' e unit p v first s t}, k ≤ k' → p.Stands e → 12 * p.ahead.length + 1 ≤ k →
    Joins s t → Derives s v (Phrase.expr first) →
    (Rule.steps e k unit first p).Meets e p (Makes t v) False
      (fun e' p' => Rule.steps e' k' unit first p')
  step : ∀ {k' e unit p}, k ≤ k' → p.Stands e → 12 * p.ahead.length + 1 ≤ k →
    (Rule.step e k unit p).Meets e p (Makes .step []) (p.kind = .name)
      (fun e' p' => Rule.step e' k' unit p')
  predicates : ∀ {k' e unit reverse node p v s}, k ≤ k' → p.Stands e →
    12 * p.ahead.length + 1 ≤ k → TakesPredicates s reverse → Derives s v (Phrase.expr node) →
    (Rule.predicates e k unit reverse node p).Meets e p (Makes s v) False
      (fun e' p' => Rule.predicates e' k' unit reverse node p')
  filter : ∀ {k' e unit p}, k ≤ k' → p.Stands e → p.startsPrimary → 12 * p.ahead.length + 2 ≤ k →
    (Rule.filter e k unit p).Meets e p (Makes .filter []) (p.kind = .name)
      (fun e' p' => Rule.filter e' k' unit p')
  primary : ∀ {k' e unit p}, k ≤ k' → p.Stands e → p.startsPrimary → 12 * p.ahead.length + 1 ≤ k →
    (Rule.primary e k unit p).Meets e p (Makes .primary []) (p.kind = .name)
      (fun e' p' => Rule.primary e' k' unit p')
  arguments : ∀ {k' e unit p}, k ≤ k' → p.Stands e → 12 * p.ahead.length + 8 ≤ k →
    (Rule.arguments e k unit p).Meets e p
      (fun w args kind => kind = .rparen ∧
        ((w = [] ∧ args = []) ∨ DerivesArguments w (Phrase.exprs args))) False
      (fun e' p' => Rule.arguments e' k' unit p')
  someArguments : ∀ {k' e unit p}, k ≤ k' → p.Stands e → 12 * p.ahead.length + 7 ≤ k →
    (Rule.someArguments e k unit p).Meets e p
      (fun w args kind => kind = .rparen ∧ DerivesArguments w (Phrase.exprs args)) False
      (fun e' p' => Rule.someArguments e' k' unit p')

end StylesheetReversal.Path
