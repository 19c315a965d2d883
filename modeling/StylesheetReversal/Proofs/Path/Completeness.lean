import StylesheetReversal.Proofs.Path.Lookahead
import StylesheetReversal.Proofs.Path.PathRules
/-!
# The grammar is read

Whatever derives from a symbol is read by its rule, provided that what comes behind cannot belong to
it (`Symbol.Precedes`) and that the fuel is enough.  There is one lemma for each alternative of the
grammar; those for operators and for paths are here.

A repetition is left-recursive in the grammar and a loop in the parser, so a derivation does not end
where the loop ends.  For the symbols with a repetition the rule is therefore only brought to its loop
(`Symbol.Comes`), where the derivation around it goes on.
-/
namespace StylesheetReversal.Path

open RuleSpecs (steps_default location_default)

/-- A rule reads a tree, and `rest` is left. -/
def Outcome.Reads (o : Outcome Phrase) (t : Expr) (rest : List Token) : Prop :=
  ∃ phrase q, o = .read phrase q ∧ phrase.expr = t ∧ q.tokens = rest

/-- A loop has been reached with a tree in hand, `rest` ahead and enough fuel left. -/
structure Reaches (left : Phrase) (q : Place) (k : Nat) (t : Expr) (rest : List Token) : Prop where
  tree : left.expr = t
  ahead : q.tokens = rest
  fuel : 12 * rest.length + 1 ≤ k

namespace Symbol

/-- The kinds of lexeme that end a phrase of the symbol. -/
def Precedes : Symbol → Kind → Prop
  | level m, k => Follows m k
  | union, k | path, k | location, k | relative, k => Follows 8 k
  | step, k => k ≠ .lbracket ∧ k ≠ .lparen
  | tested _, k | test _, k | filter, k | primary, k => k ≠ .lparen

/-- The fuel that the rule of the symbol needs for the rules it calls in the same place. -/
def rank : Symbol → Nat
  | level _ => 6
  | union => 5
  | path => 4
  | location => 3
  | relative | filter => 2
  | step | primary => 1
  | tested _ | test _ => 0

/-- What the rule of the symbol comes to when the lexemes of a tree are ahead of it. -/
def Comes (n k : Nat) (unit : Option Span) (p : Place) (t : Expr) (rest : List Token) : Symbol → Prop
  | level m => ∀ limit, limit < m ∨ m = 7 → ∃ left q j, Reaches left q j t rest ∧
      Rule.operand (.atEnd n) k unit limit p = Rule.operators (.atEnd n) j unit limit left q
  | union => ∃ left q j, Reaches left q j t rest ∧
      Rule.union (.atEnd n) k unit p = Rule.members (.atEnd n) j unit left q
  | path => (Rule.path (.atEnd n) k unit p).Reads t rest
  | location => (Rule.location (.atEnd n) k unit p).Reads t rest
  | relative => (Rule.relative (.atEnd n) k unit p).Reads t rest
  | step => (Rule.step (.atEnd n) k unit p).Reads t rest
  | tested a => ∃ node q j, Reaches node q j t rest ∧
      ((Rule.nodeTest (.atEnd n) a p).andThen [] fun node p =>
        Rule.predicates (.atEnd n) k unit a.isReverse node p) =
          Rule.predicates (.atEnd n) j unit a.isReverse node q
  | test a => ∃ kind qualifier name q, .axis a kind qualifier name = t ∧ q.tokens = rest ∧
      Rule.test (.atEnd n) a p = .read (kind, qualifier, name) q
  | filter => ∃ blame node q j, Reaches node q j t rest ∧
      Rule.filter (.atEnd n) k unit p = Rule.predicates (.atEnd n) j blame false node q
  | primary => (Rule.primary (.atEnd n) k unit p).Reads t rest

end Symbol

/-- The lexemes of a tree are read by the rule of the symbol, wherever nothing behind them goes on
with it. -/
def Complete (s : Symbol) (w : List Token) (t : Expr) : Prop :=
  ∀ (n k : Nat) (unit : Option Span) (p : Place) (rest : List Token), p.tokens = w ++ rest →
    s.Precedes (kindAhead rest) → 12 * p.tokens.length + s.rank ≤ k → s.Comes n k unit p t rest

/-- The same for the arguments of a function, which end at a parenthesis. -/
def CompleteArguments (w : List Token) (args : List Expr) : Prop :=
  ∀ (n k : Nat) (unit : Option Span) (p : Place) (rest : List Token), p.tokens = w ++ rest →
    kindAhead rest = .rparen → 12 * p.tokens.length + 7 ≤ k →
    ∃ phrases q, Rule.someArguments (.atEnd n) k unit p = .read phrases q ∧
      Phrase.exprs phrases = args ∧ q.tokens = rest

theorem Reaches.succ {left : Phrase} {q : Place} {j : Nat} {t : Expr} {rest : List Token}
    (h : Reaches left q j t rest) : ∃ i, j = i + 1 ∧ 12 * rest.length ≤ i :=
  ⟨j - 1, by have := h.fuel; omega, by have := h.fuel; omega⟩

theorem Reaches.kind {left : Phrase} {q : Place} {j : Nat} {t : Expr} {rest : List Token}
    (h : Reaches left q j t rest) : q.kind = kindAhead rest := by
  rw [Place.kind_eq_kindAhead, h.ahead]

/-! ## Loops -/

theorem operators_closed {e : Ending} {k limit : Nat} {unit : Option Span} {left : Phrase} {p : Place}
    (h : Closed limit p.kind) : Rule.operators e (k + 1) unit limit left p = .read left p := by
  rw [Rule.operators]
  split
  · rfl
  · next op hop => rw [if_pos (.inr (h op hop))]

theorem members_closed {e : Ending} {k : Nat} {unit : Option Span} {left : Phrase} {p : Place}
    (h : p.kind ≠ .union) : Rule.members e (k + 1) unit left p = .read left p := by
  rw [Rule.members, if_neg h]

theorem predicates_closed {e : Ending} {k : Nat} {unit : Option Span} {reverse : Bool} {node : Phrase}
    {p : Place} (h : p.kind ≠ .lbracket) :
    Rule.predicates e (k + 1) unit reverse node p = .read node p := by
  rw [Rule.predicates, if_neg h]

theorem Complete.operand {w : List Token} {t : Expr} (h : Complete .expr w t) (n k : Nat)
    (unit : Option Span) {p : Place} {rest : List Token} (hp : p.tokens = w ++ rest)
    (hr : kindAhead rest ∈ [.eof, .rparen, .rbracket, .comma]) (hk : 12 * p.tokens.length + 6 ≤ k) :
    (Rule.operand (.atEnd n) k unit 0 p).Reads t rest := by
  obtain ⟨left, q, j, hq, heq⟩ := h n k unit p rest hp (follows_closer hr) hk 0 (.inl (by decide))
  obtain ⟨i, rfl, -⟩ := hq.succ
  refine ⟨left, q, ?_, hq.tree, hq.ahead⟩
  rw [heq, operators_closed]
  rw [hq.kind]
  exact (follows_closer hr).2

/-! ## Operators -/

section Operators

variable {m : Nat} {v w : List Token} {x : Token} {op : Operator} {t l r : Expr}

theorem complete_tighter (h : Complete (.level (m + 1)) w t) (hm : m < 7) : Complete (.level m) w t := by
  intro n k unit p rest hp hr hk limit hlimit
  exact h n k unit p rest hp (hr.mono (Nat.le_succ m)) hk limit (by omega)

theorem operators_open {e : Ending} {k limit : Nat} {unit : Option Span} {left : Phrase} {p : Place}
    (hop : p.kind.operator? = some op) (hu : op ≠ .union) (hlimit : limit < op.precedence) :
    Rule.operators e (k + 1) unit limit left p = (p.advance e).andThen [left] fun _ p =>
      (Rule.operand e k unit op.precedence p).andThen [left] fun right p =>
      Rule.operators e k unit limit (.binary (p.blame e unit) op left right) p := by
  rw [Rule.operators]
  simp only [hop]
  rw [if_neg]
  rintro (h | h)
  · exact hu h
  · omega

theorem complete_binary (hx : x.kind ∈ operatorsAt m) (hop : x.kind.operator? = some op)
    (hl : Complete (.level m) v l) (hr : Complete (.level (m + 1)) w r) :
    Complete (.level m) (v ++ x :: w) (.binary op l r) := by
  intro n k unit p rest hp hrest hk limit hlimit
  obtain ⟨hm, hu, hm6⟩ := level_of_mem_operatorsAt hx hop
  have hlimit : limit < m := by omega
  have operator : Follows m x.kind := by
    rw [← hm]
    exact follows_operator hop
  obtain ⟨left, q, j, hq, heq⟩ := hl n k unit p (x :: (w ++ rest)) (by simpa using hp) operator hk limit (.inl hlimit)
  obtain ⟨i, rfl, hi⟩ := hq.succ
  have hkind := Place.kind_of_tokens hq.ahead
  obtain ⟨q', hadvance, hq'⟩ := Place.advance_of_tokens (n := n) hq.ahead
  rw [List.length_cons, List.length_append] at hi
  obtain ⟨right, q'', j', hs, heq'⟩ := hr n i unit q' rest hq' (hrest.mono (Nat.le_succ m))
    (by rw [hq', List.length_append]; simp only [Symbol.rank]; omega) op.precedence (.inl (by omega))
  obtain ⟨i', rfl, -⟩ := hs.succ
  -- the loop of the right operand is over, since what follows belongs to this level at most
  have closed : Closed op.precedence q''.kind := by
    rw [hs.kind, hm]
    exact hrest.2
  refine ⟨.binary (q''.blame (.atEnd n) unit) op left right, q'', i, ⟨?_, hs.ahead, by omega⟩, ?_⟩
  · rw [Phrase.expr, hq.tree, hs.tree]
    rfl
  · rw [heq, operators_open (by rw [hkind, hop]) hu (by omega), hadvance, Outcome.andThen_read, heq',
      operators_closed closed, Outcome.andThen_read]

theorem complete_negation (hx : x.kind = .minus) (h : Complete (.level 7) w t) :
    Complete (.level 7) (x :: w) (.negation t) := by
  intro n k unit p rest hp hrest hk limit _
  rw [List.cons_append] at hp
  obtain ⟨q, hadvance, hq⟩ := Place.advance_of_tokens (n := n) hp
  rw [hp, List.length_cons, List.length_append, Symbol.rank] at hk
  obtain ⟨i, rfl⟩ : ∃ i, k = i + 1 := ⟨k - 1, by omega⟩
  obtain ⟨inner, q', j, hs, heq⟩ := h n i unit q rest hq hrest
    (by rw [hq, List.length_append]; simp only [Symbol.rank]; omega) 7 (.inr rfl)
  obtain ⟨j, rfl, -⟩ := hs.succ
  have closed : Closed 7 q'.kind := by
    rw [hs.kind]
    exact hrest.2
  refine ⟨.negation (q'.blame (.atEnd n) unit) inner, q', i, ⟨?_, hs.ahead, by omega⟩, ?_⟩
  · rw [Phrase.expr, hs.tree]
    rfl
  · rw [Rule.operand, if_pos ((Place.kind_of_tokens hp).trans hx), hadvance, Outcome.andThen_read]
    rw [show Operator.unaryMinus.precedence = 7 from rfl, heq, operators_closed closed,
      Outcome.andThen_read]

theorem complete_unary (hd : Derives .union w t) (h : Complete .union w t) : Complete (.level 7) w t := by
  intro n k unit p rest hp hrest hk limit _
  rw [Symbol.rank] at hk
  obtain ⟨i, rfl⟩ : ∃ i, k = i + 1 := ⟨k - 1, by omega⟩
  obtain ⟨left, q, j, hs, heq⟩ := h n i unit p rest hp (hrest.mono (by decide))
    (by simp only [Symbol.rank]; omega)
  obtain ⟨j, rfl, -⟩ := hs.succ
  have notMinus : p.kind ≠ .minus := hd.kind_ne hp (by decide)
  have notUnion : q.kind ≠ .union := by
    rw [hs.kind]
    intro h
    have hop : (kindAhead rest).operator? = some .union := by rw [h]; rfl
    exact hrest.2.ne_union hop rfl
  refine ⟨left, q, i, ⟨hs.tree, hs.ahead, ?_⟩, ?_⟩
  · rw [hp, List.length_append] at hk
    omega
  · rw [Rule.operand, if_neg notMinus, heq, members_closed notUnion, Outcome.andThen_read]

theorem complete_member (h : Complete .path w t) (hw : 0 < w.length) : Complete .union w t := by
  intro n k unit p rest hp hrest hk
  rw [Symbol.rank] at hk
  obtain ⟨i, rfl⟩ : ∃ i, k = i + 1 := ⟨k - 1, by omega⟩
  obtain ⟨left, q, heq, htree, hq⟩ := h n i unit p rest hp hrest (by simp only [Symbol.rank]; omega)
  refine ⟨left, q, i, ⟨htree, hq, ?_⟩, by rw [Rule.union, heq, Outcome.andThen_read]⟩
  rw [hp, List.length_append] at hk
  omega

theorem complete_union (hx : x.kind = .union) (hl : Complete .union v l) (hr : Complete .path w r) :
    Complete .union (v ++ x :: w) (.binary .union l r) := by
  intro n k unit p rest hp hrest hk
  have hop : x.kind.operator? = some .union := by rw [hx]; rfl
  have union : Follows 8 x.kind := follows_operator hop
  obtain ⟨left, q, j, hq, heq⟩ := hl n k unit p (x :: (w ++ rest)) (by simpa using hp) union hk
  obtain ⟨i, rfl, hi⟩ := hq.succ
  obtain ⟨q', hadvance, hq'⟩ := Place.advance_of_tokens (n := n) hq.ahead
  rw [List.length_cons, List.length_append] at hi
  obtain ⟨right, q'', heq', htree, hq''⟩ := hr n i unit q' rest hq' hrest
    (by rw [hq', List.length_append]; simp only [Symbol.rank]; omega)
  refine ⟨.binary ⟨(q'.span (.atEnd n)).start, q''.last⟩ .union left right, q'', i, ⟨?_, hq'', by omega⟩, ?_⟩
  · rw [Phrase.expr, hq.tree, htree]
    rfl
  · rw [heq, Rule.members, if_pos ((Place.kind_of_tokens hq.ahead).trans hx), hadvance,
      Outcome.andThen_read, heq', Outcome.andThen_read]

end Operators

/-! ## Paths -/

section Paths

variable {v w : List Token} {x : Token} {t l r : Expr}

theorem steps_slash (hx : x.kind = .slash) (h : Complete .relative w r) {n i : Nat} {unit : Option Span}
    {first : Phrase} {q : Place} {rest : List Token} (hq : q.tokens = x :: (w ++ rest))
    (hrest : Follows 8 (kindAhead rest)) (hi : 12 * (w ++ rest).length + 2 ≤ i) :
    (Rule.steps (.atEnd n) (i + 1) unit first q).Reads (.slash first.expr r) rest := by
  obtain ⟨q', hadvance, hq'⟩ := Place.advance_of_tokens (n := n) hq
  obtain ⟨right, q'', heq, htree, hq''⟩ := h n i unit q' rest hq' hrest (by rw [hq']; exact hi)
  refine ⟨.join (q''.blame (.atEnd n) unit) first right, q'', ?_, by rw [Phrase.expr, htree]; rfl, hq''⟩
  simp only [Rule.steps, Place.kind_of_tokens hq, hx]
  rw [hadvance, Outcome.andThen_read, heq, Outcome.andThen_read]

theorem steps_slashSlash (hx : x.kind = .slashSlash) (h : Complete .relative w r) {n i : Nat}
    {unit : Option Span} {first : Phrase} {q : Place} {rest : List Token}
    (hq : q.tokens = x :: (w ++ rest)) (hrest : Follows 8 (kindAhead rest))
    (hi : 12 * (w ++ rest).length + 2 ≤ i) :
    (Rule.steps (.atEnd n) (i + 1) unit first q).Reads (.slashSlash first.expr r) rest := by
  obtain ⟨q', hadvance, hq'⟩ := Place.advance_of_tokens (n := n) hq
  obtain ⟨right, q'', heq, htree, hq''⟩ := h n i unit q' rest hq' hrest (by rw [hq']; exact hi)
  refine ⟨.join (q''.blame (.atEnd n) unit) first (.join (q''.blame (.atEnd n) unit)
    (Rule.wholeAxis (q'.blame (.atEnd n) unit) .descendantOrSelf) right), q'', ?_,
    by rw [Phrase.expr, Phrase.expr, htree]; rfl, hq''⟩
  simp only [Rule.steps, Place.kind_of_tokens hq, hx]
  rw [hadvance, Outcome.andThen_read, heq, Outcome.andThen_read]

theorem steps_closed {n i : Nat} {unit : Option Span} {first : Phrase} {q : Place} {rest : List Token}
    (hq : q.tokens = rest) (hrest : Follows 8 (kindAhead rest)) :
    (Rule.steps (.atEnd n) (i + 1) unit first q).Reads first.expr rest := by
  have hkind : q.kind = kindAhead rest := by rw [Place.kind_eq_kindAhead, hq]
  obtain ⟨-, -, hs, hss⟩ := hrest.ends_path
  exact ⟨first, q, steps_default (by rw [hkind]; exact hs) (by rw [hkind]; exact hss), rfl, hq⟩

theorem Complete.path_filter (h : Complete .filter v l) (hd : Derives .filter v l) (n i : Nat)
    (unit : Option Span) {p : Place} {rest : List Token} (hp : p.tokens = v ++ rest)
    (hrest : kindAhead rest ≠ .lparen ∧ kindAhead rest ≠ .lbracket) (hi : 12 * p.tokens.length + 2 ≤ i) :
    ∃ blame first q, first.expr = l ∧ q.tokens = rest ∧
      Rule.path (.atEnd n) (i + 1) unit p = Rule.steps (.atEnd n) i blame first q := by
  obtain ⟨blame, node, q, j, hq, heq⟩ := h n i unit p rest hp hrest.1 hi
  obtain ⟨j, rfl, -⟩ := hq.succ
  refine ⟨some ⟨(p.span (.atEnd n)).start, q.last⟩, node, q, hq.tree, hq.ahead, ?_⟩
  rw [Rule.path, if_pos (hd.opens p rest true rfl hp hrest.1), heq,
    predicates_closed (by rw [hq.kind]; exact hrest.2), Outcome.andThen_read]

theorem complete_location (hd : Derives .location w t) (h : Complete .location w t) :
    Complete .path w t := by
  intro n k unit p rest hp hrest hk
  rw [Symbol.rank] at hk
  obtain ⟨i, rfl⟩ : ∃ i, k = i + 1 := ⟨k - 1, by omega⟩
  have notPrimary := hd.opens p rest false rfl hp hrest.ends_path.2.1
  rw [Symbol.Comes, Rule.path, if_neg (by rw [notPrimary]; decide)]
  exact h n i unit p rest hp hrest (by simp only [Symbol.rank]; omega)

theorem complete_filter (hd : Derives .filter w t) (h : Complete .filter w t) : Complete .path w t := by
  intro n k unit p rest hp hrest hk
  rw [Symbol.rank] at hk
  obtain ⟨i, rfl⟩ : ∃ i, k = i + 1 + 1 := ⟨k - 2, by omega⟩
  obtain ⟨hb, hl, -, -⟩ := hrest.ends_path
  obtain ⟨blame, first, q, rfl, hq, heq⟩ := h.path_filter hd n (i + 1) unit hp ⟨hl, hb⟩ (by omega)
  rw [Symbol.Comes, heq]
  exact steps_closed hq hrest

theorem complete_filterSlash (hd : Derives .filter v l) (hx : x.kind = .slash)
    (h : Complete .filter v l) (hr : Complete .relative w r) :
    Complete .path (v ++ x :: w) (.slash l r) := by
  intro n k unit p rest hp hrest hk
  rw [Symbol.rank] at hk
  obtain ⟨i, rfl⟩ : ∃ i, k = i + 1 + 1 := ⟨k - 2, by omega⟩
  rw [List.append_assoc, List.cons_append] at hp
  obtain ⟨blame, first, q, rfl, hq, heq⟩ := h.path_filter hd n (i + 1) unit hp (by simp [kindAhead, hx])
    (by omega)
  rw [hp, List.length_append, List.length_cons] at hk
  rw [Symbol.Comes, heq]
  exact steps_slash hx hr hq hrest (by omega)

theorem complete_filterSlashSlash (hd : Derives .filter v l) (hx : x.kind = .slashSlash)
    (h : Complete .filter v l) (hr : Complete .relative w r) :
    Complete .path (v ++ x :: w) (.slashSlash l r) := by
  intro n k unit p rest hp hrest hk
  rw [Symbol.rank] at hk
  obtain ⟨i, rfl⟩ : ∃ i, k = i + 1 + 1 := ⟨k - 2, by omega⟩
  rw [List.append_assoc, List.cons_append] at hp
  obtain ⟨blame, first, q, rfl, hq, heq⟩ := h.path_filter hd n (i + 1) unit hp (by simp [kindAhead, hx])
    (by omega)
  rw [hp, List.length_append, List.length_cons] at hk
  rw [Symbol.Comes, heq]
  exact steps_slashSlash hx hr hq hrest (by omega)

theorem complete_relative (hd : Derives .relative w t) (h : Complete .relative w t) :
    Complete .location w t := by
  intro n k unit p rest hp hrest hk
  rw [Symbol.rank] at hk
  obtain ⟨i, rfl⟩ : ∃ i, k = i + 1 := ⟨k - 1, by omega⟩
  rw [Symbol.Comes, location_default (hd.kind_ne hp (by decide)) (hd.kind_ne hp (by decide))]
  exact h n i unit p rest hp hrest (by simp only [Symbol.rank]; omega)

theorem Place.startsStep_iff (p : Place) : p.startsStep = true ↔ p.kind ∈ stepFirsts := by
  unfold Place.startsStep
  cases p.kind <;> decide

theorem Follows.not_step {m : Nat} {k : Kind} (h : Follows m k) : k ∉ stepFirsts := by
  rcases h.1 with h | h
  · cases k <;> simp_all [Kind.isOperator, Kind.operator?, stepFirsts]
  · cases k <;> simp_all [stepFirsts]

theorem complete_root (hx : x.kind = .slash) : Complete .location [x] (.whole .root) := by
  intro n k unit p rest hp hrest hk
  rw [Symbol.rank] at hk
  obtain ⟨i, rfl⟩ : ∃ i, k = i + 1 := ⟨k - 1, by omega⟩
  rw [List.singleton_append] at hp
  obtain ⟨q, hadvance, hq⟩ := Place.advance_of_tokens (n := n) hp
  have noStep : ¬ q.startsStep = true := by
    rw [Place.startsStep_iff, Place.kind_eq_kindAhead, hq]
    exact hrest.not_step
  refine ⟨Rule.wholeAxis (q.blame (.atEnd n) unit) .root, q, ?_, rfl, hq⟩
  simp only [Rule.location, Place.kind_of_tokens hp, hx]
  rw [hadvance, Outcome.andThen_read, if_neg noStep]

theorem complete_rootSlash (hx : x.kind = .slash) (hd : Derives .relative w r)
    (h : Complete .relative w r) : Complete .location (x :: w) (.slash (.whole .root) r) := by
  intro n k unit p rest hp hrest hk
  rw [List.cons_append] at hp
  rw [hp, List.length_cons, Symbol.rank] at hk
  obtain ⟨i, rfl⟩ : ∃ i, k = i + 1 := ⟨k - 1, by omega⟩
  obtain ⟨q, hadvance, hq⟩ := Place.advance_of_tokens (n := n) hp
  have stepAhead : q.startsStep = true := by
    rw [Place.startsStep_iff]
    exact hd.kind_mem hq
  obtain ⟨right, q', heq, htree, hq'⟩ := h n i unit q rest hq hrest
    (by rw [hq]; simp only [Symbol.rank]; omega)
  refine ⟨.join (q'.blame (.atEnd n) unit) (Rule.wholeAxis (q.blame (.atEnd n) unit) .root) right, q', ?_,
    by rw [Phrase.expr, htree]; rfl, hq'⟩
  simp only [Rule.location, Place.kind_of_tokens hp, hx]
  rw [hadvance, Outcome.andThen_read, if_pos stepAhead, heq, Outcome.andThen_read]

theorem complete_rootSlashSlash (hx : x.kind = .slashSlash) (h : Complete .relative w r) :
    Complete .location (x :: w) (.slashSlash (.whole .root) r) := by
  intro n k unit p rest hp hrest hk
  rw [List.cons_append] at hp
  rw [hp, List.length_cons, Symbol.rank] at hk
  obtain ⟨i, rfl⟩ : ∃ i, k = i + 1 := ⟨k - 1, by omega⟩
  obtain ⟨q, hadvance, hq⟩ := Place.advance_of_tokens (n := n) hp
  obtain ⟨right, q', heq, htree, hq'⟩ := h n i unit q rest hq hrest
    (by rw [hq]; simp only [Symbol.rank]; omega)
  refine ⟨.join (q'.blame (.atEnd n) unit) (Rule.wholeAxis (q.blame (.atEnd n) unit) .root)
    (.join (q'.blame (.atEnd n) unit) (Rule.wholeAxis (q.blame (.atEnd n) unit) .descendantOrSelf) right),
    q', ?_, by rw [Phrase.expr, Phrase.expr, htree]; rfl, hq'⟩
  simp only [Rule.location, Place.kind_of_tokens hp, hx]
  rw [hadvance, Outcome.andThen_read, heq, Outcome.andThen_read]

theorem Complete.relative_step (h : Complete .step v l) (n i : Nat) (unit : Option Span) {p : Place}
    {rest : List Token} (hp : p.tokens = v ++ rest)
    (hrest : kindAhead rest ≠ .lbracket ∧ kindAhead rest ≠ .lparen) (hi : 12 * p.tokens.length + 1 ≤ i) :
    ∃ first q, first.expr = l ∧ q.tokens = rest ∧
      Rule.relative (.atEnd n) (i + 1) unit p = Rule.steps (.atEnd n) i unit first q := by
  obtain ⟨first, q, heq, htree, hq⟩ := h n i unit p rest hp hrest hi
  exact ⟨first, q, htree, hq, by rw [Rule.relative, heq, Outcome.andThen_read]⟩

theorem complete_step (h : Complete .step w t) : Complete .relative w t := by
  intro n k unit p rest hp hrest hk
  rw [Symbol.rank] at hk
  obtain ⟨i, rfl⟩ : ∃ i, k = i + 1 + 1 := ⟨k - 2, by omega⟩
  obtain ⟨hb, hl, -, -⟩ := hrest.ends_path
  obtain ⟨first, q, rfl, hq, heq⟩ := h.relative_step n (i + 1) unit hp ⟨hb, hl⟩ (by omega)
  rw [Symbol.Comes, heq]
  exact steps_closed hq hrest

theorem complete_stepSlash (hx : x.kind = .slash) (h : Complete .step v l)
    (hr : Complete .relative w r) : Complete .relative (v ++ x :: w) (.slash l r) := by
  intro n k unit p rest hp hrest hk
  rw [Symbol.rank] at hk
  obtain ⟨i, rfl⟩ : ∃ i, k = i + 1 + 1 := ⟨k - 2, by omega⟩
  rw [List.append_assoc, List.cons_append] at hp
  obtain ⟨first, q, rfl, hq, heq⟩ := h.relative_step n (i + 1) unit hp (by simp [kindAhead, hx]) (by omega)
  rw [hp, List.length_append, List.length_cons] at hk
  rw [Symbol.Comes, heq]
  exact steps_slash hx hr hq hrest (by omega)

theorem complete_stepSlashSlash (hx : x.kind = .slashSlash) (h : Complete .step v l)
    (hr : Complete .relative w r) : Complete .relative (v ++ x :: w) (.slashSlash l r) := by
  intro n k unit p rest hp hrest hk
  rw [Symbol.rank] at hk
  obtain ⟨i, rfl⟩ : ∃ i, k = i + 1 + 1 := ⟨k - 2, by omega⟩
  rw [List.append_assoc, List.cons_append] at hp
  obtain ⟨first, q, rfl, hq, heq⟩ := h.relative_step n (i + 1) unit hp (by simp [kindAhead, hx]) (by omega)
  rw [hp, List.length_append, List.length_cons] at hk
  rw [Symbol.Comes, heq]
  exact steps_slashSlash hx hr hq hrest (by omega)

end Paths

end StylesheetReversal.Path
