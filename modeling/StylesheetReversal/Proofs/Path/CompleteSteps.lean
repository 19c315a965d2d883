import StylesheetReversal.Proofs.Path.Completeness
import StylesheetReversal.Proofs.Path.PrimaryRules
/-!
# The grammar is read, from steps down

The alternatives for steps, node tests, predicates and primary expressions.  With them every derivation
is read (`Derives.complete`).
-/
namespace StylesheetReversal.Path

open RuleSpecs (step_default test_call test_name axisOf_implied primary_default)

/-! ## Predicates -/

/-- A predicate is one turn of the loop of predicates. -/
theorem predicates_open {w rest : List Token} {x y : Token} {t c : Expr} {reverse : Bool}
    (hx : x.kind = .lbracket) (hy : y.kind = .rbracket) (h : Complete .expr w c) {n j : Nat}
    {unit : Option Span} {node : Phrase} {q : Place}
    (hq : Reaches node q j t (x :: (w ++ y :: rest))) :
    ∃ node' q' j', Reaches node' q' j' (.predicate t c reverse) rest ∧
      Rule.predicates (.atEnd n) j unit reverse node q =
        Rule.predicates (.atEnd n) j' unit reverse node' q' := by
  obtain ⟨i, rfl, hi⟩ := hq.succ
  rw [List.length_cons, List.length_append, List.length_cons] at hi
  obtain ⟨q₁, hadvance, hq₁⟩ := Place.advance_of_tokens (n := n) hq.ahead
  obtain ⟨condition, q₂, heq, htree, hq₂⟩ := h.operand n i unit hq₁ (by rw [kindAhead, hy]; decide)
    (by rw [hq₁, List.length_append, List.length_cons]; omega)
  obtain ⟨q₃, hpass, hq₃⟩ := Place.pass_of_tokens (n := n) hq₂ hy
  refine ⟨.predicate (q₃.blame (.atEnd n) unit) node condition reverse, q₃, i, ⟨?_, hq₃, by omega⟩, ?_⟩
  · rw [Phrase.expr, hq.tree, htree]
  · rw [Rule.predicates, if_pos ((Place.kind_of_tokens hq.ahead).trans hx), hadvance,
      Outcome.andThen_read, heq, Outcome.andThen_read, hpass, Outcome.andThen_read]

/-! ## Node tests -/

section Tests

variable {a : Axis} {v w : List Token} {x y z s : Token} {t c : Expr} {kind : NodeKind}

theorem complete_star (hx : x.kind = .star) :
    Complete (.test a) [x] (.axis a a.principalKind none none) := by
  intro n k unit p rest hp _ _
  rw [List.singleton_append] at hp
  obtain ⟨q, hadvance, hq⟩ := Place.advance_of_tokens (n := n) hp
  refine ⟨_, _, _, q, rfl, hq, ?_⟩
  simp only [Rule.test, Place.kind_of_tokens hp, hx]
  rw [hadvance, Outcome.andThen_read]

/-- A name that is not called is the name of nodes, also if it is that of a node type. -/
theorem complete_name (hx : x.kind = .name) :
    Complete (.test a) [x] (.axis a a.principalKind x.name.qualifier? x.name.base?) := by
  intro n k unit p rest hp hrest _
  rw [List.singleton_append] at hp
  obtain ⟨q, hadvance, hq⟩ := Place.advance_of_tokens (n := n) hp
  have notCalled : p.isCall = false := by
    rw [Place.isCall_of_tokens hp, decide_eq_false hrest, Bool.and_false]
  refine ⟨_, _, _, q, rfl, hq, ?_⟩
  rw [test_name ((Place.kind_of_tokens hp).trans hx) (by simp [notCalled]), hadvance,
    Outcome.andThen_read, Place.name_of_tokens hp]

theorem notWildcard_of_ofTypeName? {w : WrittenName} (h : NodeKind.ofTypeName? w.base = some kind) :
    w.isWildcard = false := by
  rw [WrittenName.isWildcard, decide_eq_false_iff_not]
  intro hw
  rw [hw, show NodeKind.ofTypeName? "*" = none by decide] at h
  cases h

/-- A node type that is called is read up to what stands between its parentheses. -/
theorem test_nodeType {rest : List Token} (hx : x.kind = .name) (hq : x.name.qualifier = "")
    (hk : NodeKind.ofTypeName? x.name.base = some kind) (hy : y.kind = .lparen) (n : Nat) {p : Place}
    (hp : p.tokens = x :: y :: rest) :
    ∃ q, q.tokens = rest ∧ Rule.test (.atEnd n) a p = (Rule.target (.atEnd n) kind q).andThen []
      fun name q => (q.pass (.atEnd n) .rparen).andThen [] fun _ q => .read (kind, none, name) q := by
  obtain ⟨q₁, hadvance, hq₁⟩ := Place.advance_of_tokens (n := n) hp
  obtain ⟨q₂, hpass, hq₂⟩ := Place.pass_of_tokens (n := n) hq₁ hy
  have called : p.isCall = true := by
    rw [Place.isCall_of_tokens hp, hx, notWildcard_of_ofTypeName? hk, kindAhead, hy]
    rfl
  have typed : p.namesNodeType = true := by
    rw [Place.namesNodeType_of_tokens hp, Token.isNodeType_of_ofTypeName? hq hk]
  refine ⟨q₂, hq₂, ?_⟩
  rw [test_call ((Place.kind_of_tokens hp).trans hx) ⟨called, typed⟩
    (by rw [Place.name_of_tokens hp]; exact hk), hadvance, Outcome.andThen_read, hpass,
    Outcome.andThen_read]

theorem complete_nodeType (hx : x.kind = .name) (hq : x.name.qualifier = "")
    (hk : NodeKind.ofTypeName? x.name.base = some kind) (hy : y.kind = .lparen) (hz : z.kind = .rparen) :
    Complete (.test a) [x, y, z] (.axis a kind none none) := by
  intro n k unit p rest hp _ _
  obtain ⟨q, htokens, heq⟩ := test_nodeType (a := a) hx hq hk hy n hp
  obtain ⟨q', hpass, hq'⟩ := Place.pass_of_tokens (n := n) htokens hz
  have noTarget : ¬ (kind = .processingInstruction ∧ q.kind ≠ .rparen) := fun h =>
    h.2 ((Place.kind_of_tokens htokens).trans hz)
  refine ⟨_, _, _, q', rfl, hq', ?_⟩
  rw [heq, Rule.target, if_neg noTarget, Outcome.andThen_read, hpass, Outcome.andThen_read]

theorem complete_instruction (hx : x.kind = .name) (hq : x.name.qualifier = "")
    (hk : NodeKind.ofTypeName? x.name.base = some .processingInstruction) (hy : y.kind = .lparen)
    (hs : s.kind = .string) (hz : z.kind = .rparen) :
    Complete (.test a) [x, y, s, z] (.axis a .processingInstruction none (some s.content)) := by
  intro n k unit p rest hp _ _
  obtain ⟨q, htokens, heq⟩ := test_nodeType (a := a) hx hq hk hy n hp
  have hstring : q.kind = .string := (Place.kind_of_tokens htokens).trans hs
  obtain ⟨q₁, hadvance, hq₁⟩ := Place.advance_of_tokens (n := n) htokens
  obtain ⟨q₂, hpass, hq₂⟩ := Place.pass_of_tokens (n := n) hq₁ hz
  refine ⟨_, _, _, q₂, rfl, hq₂, ?_⟩
  rw [heq, Rule.target, if_pos ⟨rfl, by rw [hstring]; decide⟩, Place.expect, if_pos hstring,
    Outcome.andThen_read, hadvance, Outcome.andThen_read, Place.content_of_tokens htokens,
    Outcome.andThen_read, hpass, Outcome.andThen_read]

theorem complete_test (h : Complete (.test a) w t) (hw : 0 < w.length) : Complete (.tested a) w t := by
  intro n k unit p rest hp hrest hk
  obtain ⟨kind, qualifier, name, q, htree, hq, heq⟩ := h n k unit p rest hp hrest hk
  rw [hp, List.length_append, Symbol.rank] at hk
  refine ⟨.axis ⟨(p.span (.atEnd n)).start, q.last⟩ a kind qualifier name, q, k,
    ⟨htree, hq, by omega⟩, ?_⟩
  rw [Rule.nodeTest, heq, Outcome.andThen_read, Outcome.andThen_read]

theorem complete_testPredicate (hx : x.kind = .lbracket) (hy : y.kind = .rbracket)
    (h : Complete (.tested a) v t) (hc : Complete .expr w c) :
    Complete (.tested a) (v ++ x :: (w ++ [y])) (.predicate t c a.isReverse) := by
  intro n k unit p rest hp _ hk
  obtain ⟨node, q, j, hq, heq⟩ := h n k unit p (x :: (w ++ y :: rest)) (by simpa using hp)
    (by rw [Symbol.Precedes, kindAhead, hx]; decide) hk
  obtain ⟨node', q', j', hq', heq'⟩ := predicates_open (n := n) hx hy hc hq
  exact ⟨node', q', j', hq', heq.trans heq'⟩

end Tests

/-! ## Steps -/

section Steps

variable {a : Axis} {w : List Token} {x y : Token} {t : Expr}

theorem dotted_reads {n : Nat} {unit : Option Span} {dots : DottedStep} {p : Place} {rest : List Token}
    (hp : p.tokens = x :: rest) (hrest : kindAhead rest ≠ .lbracket) :
    (Rule.dotted (.atEnd n) unit dots a p).Reads (.whole a) rest := by
  obtain ⟨q, hadvance, hq⟩ := Place.advance_of_tokens (n := n) hp
  refine ⟨Rule.wholeAxis (q.blame (.atEnd n) unit) a, q, ?_, rfl, hq⟩
  rw [Rule.dotted, hadvance, Outcome.andThen_read, if_neg]
  rw [Place.kind_eq_kindAhead, hq]
  exact hrest

theorem complete_dot (hx : x.kind = .dot) : Complete .step [x] (.whole .self) := by
  intro n k unit p rest hp hrest hk
  rw [Symbol.rank] at hk
  obtain ⟨i, rfl⟩ : ∃ i, k = i + 1 := ⟨k - 1, by omega⟩
  rw [Symbol.Comes, Rule.step, (Place.kind_of_tokens hp).trans hx]
  exact dotted_reads hp hrest.1

theorem complete_dotDot (hx : x.kind = .dotDot) : Complete .step [x] (.whole .parent) := by
  intro n k unit p rest hp hrest hk
  rw [Symbol.rank] at hk
  obtain ⟨i, rfl⟩ : ∃ i, k = i + 1 := ⟨k - 1, by omega⟩
  rw [Symbol.Comes, Rule.step, (Place.kind_of_tokens hp).trans hx]
  exact dotted_reads hp hrest.1

theorem Complete.tested_reads (h : Complete (.tested a) w t) (n k : Nat) (unit : Option Span) {p : Place}
    {rest : List Token} (hp : p.tokens = w ++ rest) (hrest : Symbol.step.Precedes (kindAhead rest))
    (hk : 12 * p.tokens.length ≤ k) :
    ((Rule.nodeTest (.atEnd n) a p).andThen [] fun node p =>
      Rule.predicates (.atEnd n) k unit a.isReverse node p).Reads t rest := by
  obtain ⟨node, q, j, hq, heq⟩ := h n k unit p rest hp hrest.2 hk
  obtain ⟨j, rfl, -⟩ := hq.succ
  refine ⟨node, q, ?_, hq.tree, hq.ahead⟩
  rw [heq, predicates_closed (by rw [hq.kind]; exact hrest.1)]

theorem complete_child (hd : Derives (.tested .child) w t) (h : Complete (.tested .child) w t) :
    Complete .step w t := by
  intro n k unit p rest hp hrest hk
  rw [Symbol.rank] at hk
  obtain ⟨i, rfl⟩ : ∃ i, k = i + 1 := ⟨k - 1, by omega⟩
  have implied : p.kind = .name ∨ p.kind = .star := by
    have := hd.kind_mem hp
    simpa [Symbol.firsts] using this
  rw [Symbol.Comes, step_default (hd.kind_ne hp (by decide)) (hd.kind_ne hp (by decide)),
    axisOf_implied implied, Outcome.andThen_read]
  exact h.tested_reads n i unit hp hrest (by omega)

theorem complete_attribute (hx : x.kind = .at) (h : Complete (.tested .attribute) w t) :
    Complete .step (x :: w) t := by
  intro n k unit p rest hp hrest hk
  rw [List.cons_append] at hp
  have hkind := (Place.kind_of_tokens hp).trans hx
  obtain ⟨q, hadvance, hq⟩ := Place.advance_of_tokens (n := n) hp
  rw [hp, List.length_cons, Symbol.rank] at hk
  obtain ⟨i, rfl⟩ : ∃ i, k = i + 1 := ⟨k - 1, by omega⟩
  have axis : Rule.axisOf (.atEnd n) p = .read .attribute q := by
    simp only [Rule.axisOf, hkind]
    rw [hadvance, Outcome.andThen_read]
  rw [Symbol.Comes, step_default (by rw [hkind]; decide) (by rw [hkind]; decide), axis,
    Outcome.andThen_read]
  exact h.tested_reads n i unit hq hrest (by rw [hq]; omega)

theorem complete_axis (hx : x.kind = .axis) (ha : Axis.ofName? x.name.base = some a)
    (hy : y.kind = .colonColon) (h : Complete (.tested a) w t) : Complete .step (x :: y :: w) t := by
  intro n k unit p rest hp hrest hk
  rw [List.cons_append, List.cons_append] at hp
  have hkind := (Place.kind_of_tokens hp).trans hx
  obtain ⟨q₁, hadvance, hq₁⟩ := Place.advance_of_tokens (n := n) hp
  obtain ⟨q₂, hpass, hq₂⟩ := Place.pass_of_tokens (n := n) hq₁ hy
  rw [hp, List.length_cons, List.length_cons, Symbol.rank] at hk
  obtain ⟨i, rfl⟩ : ∃ i, k = i + 1 := ⟨k - 1, by omega⟩
  have axis : Rule.axisOf (.atEnd n) p = .read a q₂ := by
    simp only [Rule.axisOf, hkind, Place.name_of_tokens hp, ha]
    rw [hadvance, Outcome.andThen_read, hpass, Outcome.andThen_read]
  rw [Symbol.Comes, step_default (by rw [hkind]; decide) (by rw [hkind]; decide), axis,
    Outcome.andThen_read]
  exact h.tested_reads n i unit hq₂ hrest (by rw [hq₂]; omega)

end Steps

/-! ## Primary expressions -/

section Primary

variable {v w : List Token} {x y z : Token} {t c : Expr} {args : List Expr}

theorem complete_primary (h : Complete .primary w t) (hw : 0 < w.length) : Complete .filter w t := by
  intro n k unit p rest hp hrest hk
  rw [Symbol.rank] at hk
  obtain ⟨i, rfl⟩ : ∃ i, k = i + 1 := ⟨k - 1, by omega⟩
  obtain ⟨node, q, heq, htree, hq⟩ := h n i unit p rest hp hrest (by simp only [Symbol.rank]; omega)
  rw [hp, List.length_append] at hk
  refine ⟨some ⟨(p.span (.atEnd n)).start, q.last⟩, node, q, i, ⟨htree, hq, by omega⟩, ?_⟩
  rw [Rule.filter, heq, Outcome.andThen_read]

theorem complete_filterPredicate (hx : x.kind = .lbracket) (hy : y.kind = .rbracket)
    (h : Complete .filter v t) (hc : Complete .expr w c) :
    Complete .filter (v ++ x :: (w ++ [y])) (.predicate t c false) := by
  intro n k unit p rest hp _ hk
  obtain ⟨blame, node, q, j, hq, heq⟩ := h n k unit p (x :: (w ++ y :: rest)) (by simpa using hp)
    (by rw [Symbol.Precedes, kindAhead, hx]; decide) hk
  obtain ⟨node', q', j', hq', heq'⟩ := predicates_open (n := n) hx hy hc hq
  exact ⟨blame, node', q', j', hq', heq.trans heq'⟩

theorem complete_string (hx : x.kind = .string) : Complete .primary [x] (.string x.content) := by
  intro n k unit p rest hp _ hk
  rw [Symbol.rank] at hk
  obtain ⟨i, rfl⟩ : ∃ i, k = i + 1 := ⟨k - 1, by omega⟩
  obtain ⟨q, hadvance, hq⟩ := Place.advance_of_tokens (n := n) hp
  refine ⟨.string (p.blame (.atEnd n) unit) p.content, q, ?_,
    by rw [Phrase.expr, Place.content_of_tokens hp], hq⟩
  simp only [Rule.primary, (Place.kind_of_tokens hp).trans hx]
  rw [hadvance, Outcome.andThen_read]

theorem complete_number (hx : x.kind = .number) :
    Complete .primary [x] (.number (String.ofList x.text)) := by
  intro n k unit p rest hp _ hk
  rw [Symbol.rank] at hk
  obtain ⟨i, rfl⟩ : ∃ i, k = i + 1 := ⟨k - 1, by omega⟩
  obtain ⟨q, hadvance, hq⟩ := Place.advance_of_tokens (n := n) hp
  refine ⟨.number (p.blame (.atEnd n) unit) (String.ofList p.text), q, ?_,
    by rw [Phrase.expr, Place.text_of_tokens hp], hq⟩
  simp only [Rule.primary, (Place.kind_of_tokens hp).trans hx]
  rw [hadvance, Outcome.andThen_read]

theorem complete_variable (hx : x.kind = .dollar) (hy : y.kind = .name) :
    Complete .primary [x, y] (.variable y.name.qualifier? y.name.base) := by
  intro n k unit p rest hp _ hk
  rw [Symbol.rank] at hk
  obtain ⟨i, rfl⟩ : ∃ i, k = i + 1 := ⟨k - 1, by omega⟩
  obtain ⟨q, hadvance, hq⟩ := Place.advance_of_tokens (n := n) hp
  obtain ⟨q', hadvance', hq'⟩ := Place.advance_of_tokens (n := n) hq
  refine ⟨.variable ⟨(p.span (.atEnd n)).start, (q.span (.atEnd n)).stop⟩ q.name.qualifier? q.name.base,
    q', ?_, by rw [Phrase.expr, Place.name_of_tokens hq], hq'⟩
  simp only [Rule.primary, (Place.kind_of_tokens hp).trans hx]
  rw [hadvance, Outcome.andThen_read, Place.expect, if_pos ((Place.kind_of_tokens hq).trans hy),
    Outcome.andThen_read, hadvance', Outcome.andThen_read]

theorem complete_parens (hx : x.kind = .lparen) (hy : y.kind = .rparen) (h : Complete .expr w t) :
    Complete .primary (x :: (w ++ [y])) t := by
  intro n k unit p rest hp _ hk
  have hp : p.tokens = x :: (w ++ y :: rest) := by simpa using hp
  rw [hp, List.length_cons, Symbol.rank] at hk
  obtain ⟨i, rfl⟩ : ∃ i, k = i + 1 := ⟨k - 1, by omega⟩
  obtain ⟨q₁, hadvance, hq₁⟩ := Place.advance_of_tokens (n := n) hp
  obtain ⟨inner, q₂, heq, htree, hq₂⟩ := h.operand n i unit hq₁ (by rw [kindAhead, hy]; decide)
    (by rw [hq₁]; omega)
  obtain ⟨q₃, hpass, hq₃⟩ := Place.pass_of_tokens (n := n) hq₂ hy
  refine ⟨inner, q₃, ?_, htree, hq₃⟩
  simp only [Rule.primary, (Place.kind_of_tokens hp).trans hx]
  rw [hadvance, Outcome.andThen_read, heq, Outcome.andThen_read, hpass, Outcome.andThen_read]

theorem complete_last (h : Complete .expr w t) : CompleteArguments w [t] := by
  intro n k unit p rest hp hrest hk
  obtain ⟨i, rfl⟩ : ∃ i, k = i + 1 := ⟨k - 1, by omega⟩
  obtain ⟨arg, q, heq, htree, hq⟩ := h.operand n i unit hp (by rw [hrest]; decide) (by omega)
  have hkind : q.kind = .rparen := by rw [Place.kind_eq_kindAhead, hq, hrest]
  refine ⟨[arg], q, ?_, by rw [Phrase.exprs, Phrase.exprs, htree], hq⟩
  rw [Rule.someArguments, heq, Outcome.andThen_read, if_neg (by rw [hkind]; decide), Place.expect,
    if_pos hkind, Outcome.andThen_read]

theorem complete_more (hx : x.kind = .comma) (h : Complete .expr v t) (hs : CompleteArguments w args) :
    CompleteArguments (v ++ x :: w) (t :: args) := by
  intro n k unit p rest hp hrest hk
  obtain ⟨i, rfl⟩ : ∃ i, k = i + 1 := ⟨k - 1, by omega⟩
  have hp : p.tokens = v ++ x :: (w ++ rest) := by simpa using hp
  obtain ⟨arg, q, heq, htree, hq⟩ := h.operand n i unit hp (by rw [kindAhead, hx]; decide) (by omega)
  obtain ⟨q', hadvance, hq'⟩ := Place.advance_of_tokens (n := n) hq
  rw [hp, List.length_append, List.length_cons] at hk
  obtain ⟨phrases, q'', heq', htrees, hq''⟩ := hs n i unit q' rest hq' hrest (by rw [hq']; omega)
  refine ⟨arg :: phrases, q'', ?_, by rw [Phrase.exprs, htree, htrees], hq''⟩
  rw [Rule.someArguments, heq, Outcome.andThen_read, if_pos ((Place.kind_of_tokens hq).trans hx),
    hadvance, Outcome.andThen_read, heq', Outcome.andThen_read]

theorem DerivesArguments.kind_ne {rest : List Token} {p : Place} (h : DerivesArguments w args)
    (hp : p.tokens = w ++ rest) : p.kind ≠ .rparen := by
  cases h with
  | last h => exact h.kind_ne hp (by decide)
  | more hx h _ => exact h.kind_ne (by rw [hp, List.append_assoc]) (by decide)

theorem primary_call {rest : List Token} (hx : x.isFunctionName = true) (hy : y.kind = .lparen)
    (n i : Nat) (unit : Option Span) {p : Place} (hp : p.tokens = x :: y :: rest) :
    ∃ q, q.tokens = rest ∧ Rule.primary (.atEnd n) (i + 1) unit p =
      (Rule.arguments (.atEnd n) i unit q).andThen [] fun args q =>
        (q.advance (.atEnd n)).andThen args fun _ q => .read (.function
          ⟨(p.span (.atEnd n)).start, q.last⟩ x.name.qualifier? x.name.base args) q := by
  have hname := Token.kind_of_isFunctionName hx
  have hkind := (Place.kind_of_tokens hp).trans hname
  obtain ⟨q₁, hpass₁, hq₁⟩ := Place.pass_of_tokens (n := n) hp hname
  obtain ⟨q₂, hpass₂, hq₂⟩ := Place.pass_of_tokens (n := n) hq₁ hy
  refine ⟨q₂, hq₂, ?_⟩
  rw [primary_default (by simp [hkind]) (by simp [hkind]) (by simp [hkind]) (by simp [hkind]), hpass₁,
    Outcome.andThen_read, hpass₂, Outcome.andThen_read, Place.name_of_tokens hp]

theorem complete_call (hx : x.isFunctionName = true) (hy : y.kind = .lparen) (hz : z.kind = .rparen) :
    Complete .primary [x, y, z] (.function x.name.qualifier? x.name.base []) := by
  intro n k unit p rest hp _ hk
  have hp : p.tokens = x :: y :: (z :: rest) := hp
  rw [hp, List.length_cons, Symbol.rank] at hk
  obtain ⟨i, rfl⟩ : ∃ i, k = i + 1 + 1 := ⟨k - 2, by omega⟩
  obtain ⟨q, hq, heq⟩ := primary_call hx hy n (i + 1) unit hp
  obtain ⟨q', hadvance, hq'⟩ := Place.advance_of_tokens (n := n) hq
  refine ⟨.function ⟨(p.span (.atEnd n)).start, q'.last⟩ x.name.qualifier? x.name.base [], q', ?_,
    rfl, hq'⟩
  rw [heq, Rule.arguments, if_pos ((Place.kind_of_tokens hq).trans hz), Outcome.andThen_read, hadvance,
    Outcome.andThen_read]

theorem complete_callWith (hx : x.isFunctionName = true) (hy : y.kind = .lparen) (hz : z.kind = .rparen)
    (hd : DerivesArguments w args) (h : CompleteArguments w args) :
    Complete .primary (x :: y :: (w ++ [z])) (.function x.name.qualifier? x.name.base args) := by
  intro n k unit p rest hp _ hk
  have hp : p.tokens = x :: y :: (w ++ z :: rest) := by simpa using hp
  rw [hp, List.length_cons, List.length_cons, Symbol.rank] at hk
  obtain ⟨i, rfl⟩ : ∃ i, k = i + 1 + 1 := ⟨k - 2, by omega⟩
  obtain ⟨q, hq, heq⟩ := primary_call hx hy n (i + 1) unit hp
  obtain ⟨phrases, q', heq', htrees, hq'⟩ := h n i unit q (z :: rest) hq hz (by rw [hq]; omega)
  obtain ⟨q'', hadvance, hq''⟩ := Place.advance_of_tokens (n := n) hq'
  refine ⟨.function ⟨(p.span (.atEnd n)).start, q''.last⟩ x.name.qualifier? x.name.base phrases, q'', ?_,
    by rw [Phrase.expr, htrees], hq''⟩
  rw [heq, Rule.arguments, if_neg (hd.kind_ne hq), heq', Outcome.andThen_read, hadvance,
    Outcome.andThen_read]

end Primary

mutual

/-- **Whatever derives from a symbol is read by its rule.** -/
theorem Derives.complete {s : Symbol} {w : List Token} {t : Expr} : Derives s w t → Complete s w t
  | .tighter hm h => complete_tighter h.complete hm
  | .binary hx hop hl hr => complete_binary hx hop hl.complete hr.complete
  | .negation hx h => complete_negation hx h.complete
  | .unary h => complete_unary h h.complete
  | .member h => complete_member h.complete h.length_pos
  | .union hx hl hr => complete_union hx hl.complete hr.complete
  | .location h => complete_location h h.complete
  | .filter h => complete_filter h h.complete
  | .filterSlash hx hl hr => complete_filterSlash hl hx hl.complete hr.complete
  | .filterSlashSlash hx hl hr => complete_filterSlashSlash hl hx hl.complete hr.complete
  | .relative h => complete_relative h h.complete
  | .root hx => complete_root hx
  | .rootSlash hx h => complete_rootSlash hx h h.complete
  | .rootSlashSlash hx h => complete_rootSlashSlash hx h.complete
  | .step h => complete_step h.complete
  | .stepSlash hx hl hr => complete_stepSlash hx hl.complete hr.complete
  | .stepSlashSlash hx hl hr => complete_stepSlashSlash hx hl.complete hr.complete
  | .dot hx => complete_dot hx
  | .dotDot hx => complete_dotDot hx
  | .child h => complete_child h h.complete
  | .attribute hx h => complete_attribute hx h.complete
  | .axis hx ha hy h => complete_axis hx ha hy h.complete
  | .test h => complete_test h.complete h.length_pos
  | .testPredicate hx hy h hc => complete_testPredicate hx hy h.complete hc.complete
  | .star hx => complete_star hx
  | .name hx => complete_name hx
  | .nodeType hx hq hk hy hz => complete_nodeType hx hq hk hy hz
  | .instruction hx hq hk hy hs hz => complete_instruction hx hq hk hy hs hz
  | .primary h => complete_primary h.complete h.length_pos
  | .filterPredicate hx hy h hc => complete_filterPredicate hx hy h.complete hc.complete
  | .string hx => complete_string hx
  | .number hx => complete_number hx
  | .variable hx hy => complete_variable hx hy
  | .parens hx hy h => complete_parens hx hy h.complete
  | .call hx hy hz => complete_call hx hy hz
  | .callWith hx hy hz h => complete_callWith hx hy hz h h.complete

theorem DerivesArguments.complete {w : List Token} {args : List Expr} :
    DerivesArguments w args → CompleteArguments w args
  | .last h => complete_last h.complete
  | .more hx h hs => complete_more hx h.complete hs.complete

end

end StylesheetReversal.Path
