import StylesheetReversal.Proofs.Path.RuleSpecs
/-!
# What one lexeme says of a phrase

The parser decides by the lexeme ahead, and at a name by the one after it as well.  Here is what those
say in the words of the grammar: the kinds that can follow an expression (`Follows`), the kinds that a
phrase can start with (`Derives.head`), and whether a path starts with a primary expression
(`Derives.opens`).
-/
namespace StylesheetReversal.Path

/-- The kind of the first of some tokens. -/
def kindAhead : List Token → Kind
  | [] => .eof
  | x :: _ => x.kind

namespace Place

def tokens (p : Place) : List Token := p.ahead.map Lexeme.token

variable {n : Nat} {p : Place} {x : Token} {ts : List Token}

theorem kind_eq_kindAhead (p : Place) : p.kind = kindAhead p.tokens := by
  obtain ⟨n, ls⟩ := p
  cases ls <;> rfl

theorem tokens_eq_cons (h : p.tokens = x :: ts) :
    ∃ l ls, p = ⟨p.last, l :: ls⟩ ∧ l.token = x ∧ ls.map Lexeme.token = ts := by
  obtain ⟨n, ls⟩ := p
  cases ls with
  | nil => cases h
  | cons l ls =>
    simp only [tokens, List.map_cons, List.cons.injEq] at h
    exact ⟨l, ls, rfl, h⟩

theorem kind_of_tokens (h : p.tokens = x :: ts) : p.kind = x.kind := by
  rw [kind_eq_kindAhead, h]
  rfl

theorem text_of_tokens (h : p.tokens = x :: ts) : p.text = x.text := by
  obtain ⟨l, ls, hp, rfl, -⟩ := tokens_eq_cons h
  rw [hp]
  rfl

theorem name_of_tokens (h : p.tokens = x :: ts) : p.name = x.name := by
  rw [name, text_of_tokens h]
  rfl

theorem content_of_tokens (h : p.tokens = x :: ts) : p.content = x.content := by
  rw [content, text_of_tokens h]
  rfl

theorem namesNodeType_of_tokens (h : p.tokens = x :: ts) : p.namesNodeType = x.isNodeType := by
  rw [namesNodeType, name_of_tokens h]
  rfl

theorem kindAfter_of_tokens (h : p.tokens = x :: ts) : p.kindAfter = kindAhead ts := by
  obtain ⟨l, ls, hp, -, rfl⟩ := tokens_eq_cons h
  rw [hp]
  cases ls <;> rfl

theorem advance_of_tokens (h : p.tokens = x :: ts) :
    ∃ q, p.advance (.atEnd n) = .read () q ∧ q.tokens = ts := by
  obtain ⟨l, ls, hp, -, rfl⟩ := tokens_eq_cons h
  refine ⟨⟨l.span.stop, ls⟩, ?_, rfl⟩
  rw [hp]
  cases ls <;> rfl

theorem pass_of_tokens {k : Kind} (h : p.tokens = x :: ts) (hk : x.kind = k) :
    ∃ q, p.pass (.atEnd n) k = .read () q ∧ q.tokens = ts := by
  obtain ⟨q, hq, hts⟩ := advance_of_tokens (n := n) h
  refine ⟨q, ?_, hts⟩
  rw [pass, expect, if_pos ((kind_of_tokens h).trans hk), Outcome.andThen_read, hq]

end Place

/-! ## What comes behind a phrase -/

/-- The kinds that can follow an expression whose operators bind at least as tightly as `limit`: what
closes it, or an operator of a lower or of the same level. -/
def Follows (limit : Nat) (k : Kind) : Prop :=
  (k.isOperator = true ∨ k ∈ [.eof, .rparen, .rbracket, .comma]) ∧ Closed limit k

theorem Follows.mono {m n : Nat} {k : Kind} (hmn : m ≤ n) (h : Follows m k) : Follows n k :=
  ⟨h.1, fun op hop => Nat.le_trans (h.2 op hop) hmn⟩

/-- Nothing that follows an expression goes on with a path. -/
theorem Follows.ends_path {m : Nat} {k : Kind} (h : Follows m k) :
    k ≠ .lbracket ∧ k ≠ .lparen ∧ k ≠ .slash ∧ k ≠ .slashSlash := by
  rcases h.1 with h | h
  · cases k <;> simp_all [Kind.isOperator, Kind.operator?]
  · cases k <;> simp_all

theorem follows_closer {m : Nat} {k : Kind} (h : k ∈ [.eof, .rparen, .rbracket, .comma]) : Follows m k := by
  refine ⟨.inr h, fun op hop => ?_⟩
  cases k <;> simp_all [Kind.operator?]

theorem follows_operator {k : Kind} {op : Operator} (h : k.operator? = some op) :
    Follows op.precedence k := by
  refine ⟨.inl (by rw [Kind.isOperator, h]; rfl), fun op' h' => ?_⟩
  rw [h] at h'
  cases h'
  exact Nat.le_refl _

theorem level_of_mem_operatorsAt {m : Nat} {k : Kind} {op : Operator} (hk : k ∈ operatorsAt m)
    (hop : k.operator? = some op) : op.precedence = m ∧ op ≠ .union ∧ m ≤ 6 := by
  unfold operatorsAt at hk
  split at hk <;> cases k <;> simp_all [Kind.operator?] <;> subst hop <;> decide

/-! ## What comes first in a phrase -/

/-- The kinds that a step starts with. -/
def stepFirsts : List Kind := [.dot, .dotDot, .at, .axis, .name, .star]

def primaryFirsts : List Kind := [.string, .number, .dollar, .lparen, .name]

namespace Symbol

/-- The kinds that a phrase of the symbol can start with. -/
def firsts : Symbol → List Kind
  | level _ => .minus :: .slash :: .slashSlash :: (stepFirsts ++ primaryFirsts)
  | union | path => .slash :: .slashSlash :: (stepFirsts ++ primaryFirsts)
  | location => .slash :: .slashSlash :: stepFirsts
  | relative | step => stepFirsts
  | tested _ | test _ => [.name, .star]
  | filter | primary => primaryFirsts

/-- Whether a phrase of the symbol starts with a primary expression, where that is certain. -/
def opensPrimary? : Symbol → Option Bool
  | level _ | union | path => none
  | location | relative | step | tested _ | test _ => some false
  | filter | primary => some true

end Symbol

/-- Some tokens start with one of these kinds. -/
def StartsWith (kinds : List Kind) (w : List Token) : Prop := ∃ x v, w = x :: v ∧ x.kind ∈ kinds

theorem StartsWith.cons {ks : List Kind} {k : Kind} {x : Token} {v : List Token} (hx : x.kind = k)
    (hk : k ∈ ks) : StartsWith ks (x :: v) :=
  ⟨x, v, rfl, by rw [hx]; exact hk⟩

theorem StartsWith.mono {ks ks' : List Kind} {w : List Token} (h : StartsWith ks w) (hks : ks ⊆ ks') :
    StartsWith ks' w := by
  obtain ⟨x, v, rfl, hx⟩ := h
  exact ⟨x, v, rfl, hks hx⟩

theorem StartsWith.append {ks : List Kind} {w v : List Token} (h : StartsWith ks w) :
    StartsWith ks (w ++ v) := by
  obtain ⟨x, u, rfl, hx⟩ := h
  exact ⟨x, u ++ v, rfl, hx⟩

theorem Token.kind_of_isFunctionName {x : Token} (h : x.isFunctionName = true) : x.kind = .name := by
  simp only [Token.isFunctionName, Bool.and_eq_true, decide_eq_true_eq] at h
  exact h.1.1

theorem Derives.head {s : Symbol} {w : List Token} {t : Expr} :
    Derives s w t → StartsWith s.firsts w
  | .tighter _ h => h.head
  | .binary _ _ h _ => h.head.append
  | .negation hx _ => .cons hx (by decide)
  | .unary h => h.head.mono (List.subset_cons_self _ _)
  | .member h => h.head
  | .union _ h _ => h.head.append
  | .location h => h.head.mono (by decide)
  | .filter h => h.head.mono (by decide)
  | .filterSlash _ h _ => (h.head.mono (by decide)).append
  | .filterSlashSlash _ h _ => (h.head.mono (by decide)).append
  | .relative h => h.head.mono (by decide)
  | .root hx => .cons hx (by decide)
  | .rootSlash hx _ => .cons hx (by decide)
  | .rootSlashSlash hx _ => .cons hx (by decide)
  | .step h => h.head
  | .stepSlash _ h _ => h.head.append
  | .stepSlashSlash _ h _ => h.head.append
  | .dot hx => .cons hx (by decide)
  | .dotDot hx => .cons hx (by decide)
  | .child h => h.head.mono (by decide)
  | .attribute hx _ => .cons hx (by decide)
  | .axis hx _ _ _ => .cons hx (by decide)
  | .test h => h.head
  | .testPredicate _ _ h _ => h.head.append
  | .star hx => .cons hx (by simp [Symbol.firsts])
  | .name hx => .cons hx (by simp [Symbol.firsts])
  | .nodeType hx _ _ _ _ => .cons hx (by simp [Symbol.firsts])
  | .instruction hx _ _ _ _ _ => .cons hx (by simp [Symbol.firsts])
  | .primary h => h.head
  | .filterPredicate _ _ h _ => h.head.append
  | .string hx => .cons hx (by decide)
  | .number hx => .cons hx (by decide)
  | .variable hx _ => .cons hx (by decide)
  | .parens hx _ _ => .cons hx (by decide)
  | .call hx _ _ => .cons (Token.kind_of_isFunctionName hx) (by decide)
  | .callWith hx _ _ _ => .cons (Token.kind_of_isFunctionName hx) (by decide)

theorem Derives.length_pos {s : Symbol} {w : List Token} {t : Expr} (h : Derives s w t) : 0 < w.length := by
  obtain ⟨x, v, rfl, -⟩ := h.head
  exact Nat.succ_pos _

/-- Where a phrase of the symbol is ahead, the kind ahead is one that it can start with. -/
theorem Derives.kind_mem {s : Symbol} {w rest : List Token} {t : Expr} {p : Place} (h : Derives s w t)
    (hp : p.tokens = w ++ rest) : p.kind ∈ s.firsts := by
  obtain ⟨x, v, rfl, hx⟩ := h.head
  rw [Place.kind_of_tokens hp]
  exact hx

theorem Derives.kind_ne {s : Symbol} {w rest : List Token} {t : Expr} {p : Place} {k : Kind}
    (h : Derives s w t) (hp : p.tokens = w ++ rest) (hk : k ∉ s.firsts) : p.kind ≠ k := by
  rintro rfl
  exact hk (h.kind_mem hp)

namespace Place

variable {p : Place} {x : Token} {ts : List Token}

theorem isCall_of_tokens (h : p.tokens = x :: ts) :
    p.isCall = (x.kind = .name && !x.name.isWildcard && kindAhead ts = .lparen) := by
  rw [isCall, kind_of_tokens h, name_of_tokens h, kindAfter_of_tokens h]

/-- A name opens a primary expression when it is the name of a function and `(` comes next. -/
theorem startsPrimary_of_name (h : p.tokens = x :: ts) (hx : x.kind = .name) :
    p.startsPrimary = (x.isFunctionName && kindAhead ts = .lparen) := by
  rw [startsPrimary, kind_of_tokens h, hx]
  dsimp only
  rw [isCall_of_tokens h, namesNodeType_of_tokens h, Token.isFunctionName, Bool.and_right_comm]

end Place

/-- What some tokens of a symbol, with others behind them, say of whether a primary expression starts
there. -/
def Opens (s : Symbol) (w : List Token) : Prop :=
  ∀ (p : Place) (rest : List Token) (b : Bool), s.opensPrimary? = some b → p.tokens = w ++ rest →
    kindAhead rest ≠ .lparen → p.startsPrimary = b

namespace Opens

variable {s s' : Symbol} {w v : List Token} {x y : Token} {k : Kind}

theorem free (hs : s.opensPrimary? = none) : Opens s w := by
  intro p rest b hb _ _
  rw [hs] at hb
  cases hb

theorem of_eq (h : Opens s w) (hs : s'.opensPrimary? = s.opensPrimary?) : Opens s' w :=
  fun p rest b hb => h p rest b (hs ▸ hb)

theorem append (h : Opens s w) (hx : x.kind = k) (hk : k ≠ .lparen) : Opens s (w ++ x :: v) := by
  intro p rest b hb hp _
  refine h p (x :: v ++ rest) b hb (by rw [hp, List.append_assoc]) ?_
  simpa [kindAhead, hx] using hk

/-- All kinds but names tell on their own. -/
theorem of_kind (hx : x.kind = k)
    (hk : k ≠ .name ∧ s.opensPrimary? = some (decide (k ∈ primaryFirsts))) : Opens s (x :: w) := by
  intro p rest b hb hp _
  rw [hk.2, Option.some.injEq] at hb
  rw [Place.startsPrimary, Place.kind_of_tokens hp, hx, ← hb]
  cases k <;> simp_all [primaryFirsts]

theorem of_name (hs : s.opensPrimary? = some false) (hx : x.kind = .name) : Opens s [x] := by
  intro p rest b hb hp hr
  rw [hs] at hb
  cases hb
  rw [Place.startsPrimary_of_name hp hx]
  simp [hr]

theorem of_nodeType (hs : s.opensPrimary? = some false) (hx : x.kind = .name)
    (ht : x.isNodeType = true) : Opens s (x :: w) := by
  intro p rest b hb hp _
  rw [hs] at hb
  cases hb
  rw [Place.startsPrimary_of_name hp hx]
  simp [Token.isFunctionName, ht]

theorem of_function (hs : s.opensPrimary? = some true) (hx : x.isFunctionName = true)
    (hy : y.kind = .lparen) : Opens s (x :: y :: w) := by
  intro p rest b hb hp _
  rw [hs] at hb
  cases hb
  rw [Place.startsPrimary_of_name hp (Token.kind_of_isFunctionName hx)]
  simp [hx, kindAhead, hy]

end Opens

theorem Token.isNodeType_of_ofTypeName? {x : Token} {k : NodeKind} (hq : x.name.qualifier = "")
    (hk : NodeKind.ofTypeName? x.name.base = some k) : x.isNodeType = true := by
  simp [Token.isNodeType, hq, hk]

/-- A phrase of a path without a primary expression is not taken for one, nor the other way round. -/
theorem Derives.opens {s : Symbol} {w : List Token} {t : Expr} : Derives s w t → Opens s w
  | .tighter _ _ | .binary _ _ _ _ | .negation _ _ | .unary _ | .member _ | .union _ _ _ => .free rfl
  | .location _ | .filter _ | .filterSlash _ _ _ | .filterSlashSlash _ _ _ => .free rfl
  | .relative h => h.opens.of_eq rfl
  | .root hx => .of_kind hx (by decide)
  | .rootSlash hx _ => .of_kind hx (by decide)
  | .rootSlashSlash hx _ => .of_kind hx (by decide)
  | .step h => h.opens.of_eq rfl
  | .stepSlash hx h _ => (h.opens.append hx (by decide)).of_eq rfl
  | .stepSlashSlash hx h _ => (h.opens.append hx (by decide)).of_eq rfl
  | .dot hx => .of_kind hx (by decide)
  | .dotDot hx => .of_kind hx (by decide)
  | .child h => h.opens.of_eq rfl
  | .attribute hx _ => .of_kind hx (by decide)
  | .axis hx _ _ _ => .of_kind hx (by decide)
  | .test h => h.opens.of_eq rfl
  | .testPredicate hx _ h _ => h.opens.append hx (by decide)
  | .star hx => .of_kind hx ⟨by decide, rfl⟩
  | .name hx => .of_name rfl hx
  | .nodeType hx hq hk _ _ => .of_nodeType rfl hx (Token.isNodeType_of_ofTypeName? hq hk)
  | .instruction hx hq hk _ _ _ => .of_nodeType rfl hx (Token.isNodeType_of_ofTypeName? hq hk)
  | .primary h => h.opens.of_eq rfl
  | .filterPredicate hx _ h _ => h.opens.append hx (by decide)
  | .string hx => .of_kind hx (by decide)
  | .number hx => .of_kind hx (by decide)
  | .variable hx _ => .of_kind hx (by decide)
  | .parens hx _ _ => .of_kind hx (by decide)
  | .call hx hy _ => .of_function rfl hx hy
  | .callWith hx hy _ _ => .of_function rfl hx hy

end StylesheetReversal.Path
