import StylesheetReversal.Proofs.Path.OperatorRules
import StylesheetReversal.Proofs.Path.PathRules
/-!
# The rules for predicates and primary expressions

These are the rules that go back to whole expressions, inside brackets and parentheses.  With them
all rules are known (`ruleSpecs`).
-/
namespace StylesheetReversal.Path

namespace RuleSpecs

variable {k k' limit : Nat} {e : Ending} {unit : Option Span} {p : Place}

theorem predicates_succ (ih : RuleSpecs k) (hk : k ≤ k') (hp : p.Stands e)
    {v : List Token} {node : Phrase} {s : Symbol} {reverse : Bool}
    (need : 12 * p.ahead.length + 1 ≤ k + 1) (hs : TakesPredicates s reverse)
    (hv : Derives s v node.expr) :
    (Rule.predicates e (k + 1) unit reverse node p).Meets e p (Makes s v) False
      (fun e' p' => Rule.predicates e' (k' + 1) unit reverse node p') := by
  by_cases hb : p.kind = .lbracket
  · obtain ⟨l, ls, hls, hlk⟩ := Place.eq_cons_of_kind hb (by decide)
    have closes : ∀ {w : List Token} {y : Token} {c : Phrase} (b : Span), y.kind = .rbracket →
        Derives .expr w c.expr →
        Derives s (v ++ l.token :: (w ++ [y])) (Phrase.predicate b node c reverse).expr :=
      fun _ hy h => hs (x := l.token) hlk hy hv h
    let close : Token := ⟨.rbracket, [']']⟩
    rw [Rule.predicates, if_pos hb]
    refine Outcome.Meets.congr ?_ fun e' p' h => by rw [Rule.predicates, if_pos (h.kind.trans hb)]
    refine (Place.advance_andThen_meets hls (fun q hq hst => ?_) ?_).weaken False.elim
    · subst hq
      rw [hls, List.length_cons] at need
      refine (ih.operand hk hst (by omega) (by omega)).andThen (fun c q' w hw _ hst' hL => ?_)
        fun w c _ hL => ?_
      · rw [hw, List.length_append] at need
        refine hst'.pass_andThen_meets (by decide) (fun y ys q'' hy hyk hq'' hst'' => ?_) fun y hyk => ?_
        · have fuel : 12 * q''.ahead.length + 1 ≤ k := by
            rw [hy, List.length_cons, ← hq''] at need
            omega
          refine (Outcome.Meets.congr (ih.predicates hk hst'' fuel hs (closes (y := y.token) _ hyk hL.1))
            fun e' p' h => by rw [h.blame]).imp fun z t _ h => ?_
          simpa [Makes] using h
        · exact ⟨[], .predicate ⟨0, 0⟩ node c reverse, .eof, closes _ hyk hL.1⟩
      · exact ⟨[close], .predicate ⟨0, 0⟩ node c reverse, .eof, closes (y := close) _ rfl hL.1⟩
    · exact ⟨[Token.anyName, close], .predicate ⟨0, 0⟩ node (.anyName .child) reverse, .eof,
        closes (y := close) _ rfl (derives_anyName_level (by decide))⟩
  · rw [Rule.predicates, if_neg hb]
    refine (Outcome.Meets.read hp ?_).congr fun e' p' h => by
      rw [Rule.predicates, if_neg (by rw [h.kind]; exact hb)]
    rw [Makes, List.append_nil]
    exact hv

theorem filter_succ (ih : RuleSpecs k) (hk : k ≤ k') (hp : p.Stands e)
    (hs : p.startsPrimary = true) (need : 12 * p.ahead.length + 2 ≤ k + 1) :
    (Rule.filter e (k + 1) unit p).Meets e p (Makes .filter []) (p.kind = .name)
      (fun e' p' => Rule.filter e' (k' + 1) unit p') := by
  rw [Rule.filter]
  refine Outcome.Meets.congr ?_ fun e' p' h => by rw [Rule.filter, h.span]
  refine (ih.primary hk hp hs (by omega)).andThen (fun node q w hw _ hst hL => ?_) fun w node _ hL => ?_
  · have fuel : 12 * q.ahead.length + 1 ≤ k := by
      rw [hw, List.length_append] at need
      omega
    exact (ih.predicates hk hst fuel takesPredicates_filter (.primary hL)).congr fun e' p' h => by
      rw [h.last]
  · exact ⟨[], node, .eof, by rw [List.append_nil]; exact .primary hL⟩

theorem literal_meets {l : Lexeme} {ls : List Lexeme} {node : Phrase} (hls : p.ahead = l :: ls)
    (hd : Derives .primary [l.token] node.expr) :
    ((p.advance e).andThen [node] fun _ p => .read node p).Meets e p (Makes .primary []) True
      (fun e' p' => (p'.advance e').andThen [node] fun _ p => .read node p) :=
  Place.advance_andThen_meets hls (fun _ _ hst => .read hst hd) ⟨[], node, .eof, hd⟩

theorem variable_meets {l : Lexeme} {n : Nat} (hp : p.Stands e) (hlk : l.kind = .dollar) :
    ((p.expect e .name).andThen [] fun _ q =>
      (q.advance e).andThen [.variable ⟨n, (q.span e).stop⟩ q.name.qualifier? q.name.base] fun _ r =>
        .read (.variable ⟨n, (q.span e).stop⟩ q.name.qualifier? q.name.base) r).Meets e p
      (Makes .primary [l.token]) False
      (fun e' p' => (p'.expect e' .name).andThen [] fun _ q =>
        (q.advance e').andThen [.variable ⟨n, (q.span e').stop⟩ q.name.qualifier? q.name.base] fun _ r =>
          .read (.variable ⟨n, (q.span e').stop⟩ q.name.qualifier? q.name.base) r) := by
  by_cases hn : p.kind = .name
  · obtain ⟨y, ys, hys, hyk⟩ := Place.eq_cons_of_kind hn (by decide)
    have name : p.name = y.token.name := by
      obtain ⟨n, _⟩ := p
      subst hys
      rfl
    have named : Derives .primary [l.token, y.token]
        (Phrase.variable ⟨n, (p.span e).stop⟩ p.name.qualifier? p.name.base).expr := by
      rw [name]
      exact .variable hlk hyk
    rw [Place.expect, if_pos hn, Outcome.andThen_read]
    refine Outcome.Meets.congr ?_ fun e' p' h => by
      rw [Place.expect, if_pos (h.kind.trans hn), Outcome.andThen_read, h.span, h.name]
    exact (Place.advance_andThen_meets hys (fun q _ hst => .read hst named) ⟨[], _, .eof, named⟩).weaken
      False.elim
  · have fits : Cause.FitsAt p (.tokenExpected .name p.found) := rfl
    have expect_eq : ∀ {e' : Ending} {p' : Place}, p.Resembles e e' p' →
        p'.expect e' .name = p.fault e (.tokenExpected .name p.found) := by
      intro e' p' h
      rw [Place.expect, if_neg (by rw [h.kind]; exact hn), if_neg (by decide), h.found, h.fault]
    have named : Derives .primary [l.token, Token.anyName] (Phrase.variable ⟨0, 0⟩ none "a").expr :=
      .variable (y := Token.anyName) hlk rfl
    rw [expect_eq (.refl e p)]
    exact (hp.fault_meets fits ⟨[Token.anyName], _, .eof, named⟩).congr fun e' p' h => by
      rw [expect_eq h]
      rfl

theorem startsPrimary_cases (h : p.startsPrimary = true) :
    p.kind = .string ∨ p.kind = .number ∨ p.kind = .dollar ∨ p.kind = .lparen ∨
      (p.kind = .name ∧ p.isCall = true ∧ p.namesNodeType = false) := by
  unfold Place.startsPrimary at h
  split at h <;> simp_all

theorem call_meets (ih : RuleSpecs k) (hk : k ≤ k') (hp : p.Stands e) {l : Lexeme} {ls : List Lexeme}
    {n : Nat} (hls : p.ahead = l :: ls) (hl : l.token.isFunctionName = true)
    (need : 12 * p.ahead.length + 1 ≤ k + 1) :
    ((p.pass e .name).andThen [] fun _ q => (q.pass e .lparen).andThen [] fun _ q =>
      (Rule.arguments e k unit q).andThen [] fun args q => (q.advance e).andThen args fun _ q =>
        .read (.function ⟨n, q.last⟩ p.name.qualifier? p.name.base args) q).Meets e p
      (Makes .primary []) True
      (fun e' p' => (p'.pass e' .name).andThen [] fun _ q => (q.pass e' .lparen).andThen [] fun _ q =>
        (Rule.arguments e' k' unit q).andThen [] fun args q => (q.advance e').andThen args fun _ q =>
          .read (.function ⟨n, q.last⟩ p.name.qualifier? p.name.base args) q) := by
  have hlk : l.kind = .name := by
    simp only [Token.isFunctionName, Bool.and_eq_true, decide_eq_true_eq] at hl
    exact hl.1.1
  have hn : p.kind = .name := by
    obtain ⟨m, _⟩ := p
    subst hls
    exact hlk
  have name : p.name = l.token.name := by
    obtain ⟨m, _⟩ := p
    subst hls
    rfl
  have called : ∀ {y z : Token} {w : List Token} {args : List Phrase} (b : Span), y.kind = .lparen →
      z.kind = .rparen → ((w = [] ∧ args = []) ∨ DerivesArguments w (Phrase.exprs args)) →
      Derives .primary (l.token :: y :: (w ++ [z]))
        (Phrase.function b p.name.qualifier? p.name.base args).expr := by
    rintro y z w args b hy hz (⟨rfl, rfl⟩ | h)
    · rw [name]
      exact .call hl hy hz
    · rw [name]
      exact .callWith hl hy hz h
  have pass_eq : ∀ {e' : Ending} {p' : Place}, p'.kind = .name → p'.pass e' .name = p'.advance e' := by
    intro e' p' h
    rw [Place.pass, Place.expect, if_pos h, Outcome.andThen_read]
  let close : Token := ⟨.rparen, [')']⟩
  rw [pass_eq hn]
  refine Outcome.Meets.congr ?_ fun e' p' h => by rw [pass_eq (h.kind.trans hn)]
  refine Place.advance_andThen_meets hls (fun q hq hst => ?_) ?_
  · subst hq
    rw [hls, List.length_cons] at need
    refine hst.pass_andThen_meets (by decide) (fun y ys q' hy hyk hq' hst' => ?_) fun y hyk => ?_
    · rw [hy, List.length_cons, ← hq'] at need
      refine (ih.arguments hk hst' (by omega)).andThen (fun args q'' w hw _ hst'' hL => ?_) fun w args _ hL => ?_
      · obtain ⟨z, zs, hz, hzk⟩ := Place.eq_cons_of_kind hL.1 (by decide)
        refine (Place.advance_andThen_meets hz (fun q3 _ hst3 => ?_) ?_).weaken False.elim
        · refine (Outcome.Meets.read hst3 ?_).congr fun e' p' h => by rw [h.last]
          exact called (y := y.token) (z := z.token) _ hyk hzk hL.2
        · exact ⟨[], .function ⟨0, 0⟩ p.name.qualifier? p.name.base args, .eof,
            called (y := y.token) (z := z.token) _ hyk hzk hL.2⟩
      · exact ⟨[close], .function ⟨0, 0⟩ p.name.qualifier? p.name.base args, .eof,
          called (y := y.token) (z := close) _ hyk rfl hL.2⟩
    · exact ⟨[close], .function ⟨0, 0⟩ p.name.qualifier? p.name.base [], .eof,
        called (z := close) (w := []) _ hyk rfl (.inl ⟨rfl, rfl⟩)⟩
  · exact ⟨[⟨.lparen, ['(']⟩, close], .function ⟨0, 0⟩ p.name.qualifier? p.name.base [], .eof,
      called (z := close) (w := []) _ rfl rfl (.inl ⟨rfl, rfl⟩)⟩

theorem primary_default (hs : p.kind ≠ .string) (hn : p.kind ≠ .number) (hd : p.kind ≠ .dollar)
    (hl : p.kind ≠ .lparen) :
    Rule.primary e (k + 1) unit p = (p.pass e .name).andThen [] fun _ q =>
      (q.pass e .lparen).andThen [] fun _ q => (Rule.arguments e k unit q).andThen [] fun args q =>
      (q.advance e).andThen args fun _ q => .read (.function ⟨(p.span e).start, q.last⟩
        p.name.qualifier? p.name.base args) q := by
  rw [Rule.primary]
  split <;> simp_all

theorem parens_meets (ih : RuleSpecs k) (hk : k ≤ k') {l : Lexeme} {ls : List Lexeme} (hls : p.ahead = l :: ls)
    (hlk : l.kind = .lparen) (need : 12 * p.ahead.length + 1 ≤ k + 1) :
    ((p.advance e).andThen [] fun _ q => (Rule.operand e k unit 0 q).andThen [] fun inner q =>
      (q.pass e .rparen).andThen [inner] fun _ q => .read inner q).Meets e p (Makes .primary []) True
      (fun e' p' => (p'.advance e').andThen [] fun _ q => (Rule.operand e' k' unit 0 q).andThen [] fun inner q =>
        (q.pass e' .rparen).andThen [inner] fun _ q => .read inner q) := by
  have closes : ∀ {w : List Token} {y : Token} {t : Phrase}, y.kind = .rparen →
      Derives .expr w t.expr → Derives .primary (l.token :: (w ++ [y])) t.expr :=
    fun hy h => .parens hlk hy h
  let close : Token := ⟨.rparen, [')']⟩
  refine Place.advance_andThen_meets hls (fun q hq hst => ?_) ?_
  · subst hq
    rw [hls, List.length_cons] at need
    refine (ih.operand hk hst (by omega) (by omega)).andThen (fun t q' w _ _ hst' hL => ?_) fun w t _ hL => ?_
    · refine hst'.pass_andThen_meets (by decide) (fun y ys q'' _ hyk _ hst'' => ?_) fun y hyk => ?_
      · exact .read hst'' (closes (y := y.token) hyk hL.1)
      · exact ⟨[], t, .eof, closes hyk hL.1⟩
    · exact ⟨[close], t, .eof, closes (y := close) rfl hL.1⟩
  · exact ⟨[Token.anyName, close], .anyName .child, .eof, closes (y := close) rfl (derives_anyName_level (by decide))⟩

/-- What looks like a call has a name that functions can have. -/
theorem isFunctionName_of_isCall {x : Token} (hk : x.kind = .name) (hname : p.name = x.name) (call : p.isCall = true)
    (notType : p.namesNodeType = false) : x.isFunctionName = true := by
  rw [Place.namesNodeType, hname] at notType
  rw [Place.isCall, hname, Bool.and_eq_true, Bool.and_eq_true] at call
  have notWild : x.name.isWildcard = false := by simpa using call.1.2
  have notNodeType : x.isNodeType = false := notType
  rw [Token.isFunctionName, hk, notWild, notNodeType]
  rfl

theorem primary_succ (ih : RuleSpecs k) (hk : k ≤ k') (hp : p.Stands e)
    (hs : p.startsPrimary = true) (need : 12 * p.ahead.length + 1 ≤ k + 1) :
    (Rule.primary e (k + 1) unit p).Meets e p (Makes .primary []) (p.kind = .name)
      (fun e' p' => Rule.primary e' (k' + 1) unit p') := by
  have ahead : ∃ l ls, p.ahead = l :: ls ∧ l.kind = p.kind := by
    refine Place.eq_cons_of_kind rfl fun h => ?_
    rcases startsPrimary_cases hs with h' | h' | h' | h' | ⟨h', -, -⟩ <;> rw [h] at h' <;> cases h'
  obtain ⟨l, ls, hls, hlk⟩ := ahead
  have text : p.text = l.text := by
    obtain ⟨n, _⟩ := p
    subst hls
    rfl
  rcases startsPrimary_cases hs with hkind | hkind | hkind | hkind | ⟨hkind, call, notType⟩
  · have primary_eq : ∀ {e' : Ending} {p' : Place} {j : Nat}, p.Resembles e e' p' →
        Rule.primary e' (j + 1) unit p' = (p'.advance e').andThen
          [.string (p.blame e unit) p.content] fun _ q => .read (.string (p.blame e unit) p.content) q := by
      intro e' p' j h
      simp only [Rule.primary, h.kind, hkind, h.blame, h.content]
    have named : Derives .primary [l.token] (Phrase.string (p.blame e unit) p.content).expr := by
      rw [show p.content = l.token.content by rw [Place.content, text]; rfl]
      exact .string (hlk.trans hkind)
    rw [primary_eq (.refl e p)]
    exact ((literal_meets hls named).weaken fun _ => trivial).congr fun e' p' h => primary_eq h
  · have primary_eq : ∀ {e' : Ending} {p' : Place} {j : Nat}, p.Resembles e e' p' →
        Rule.primary e' (j + 1) unit p' = (p'.advance e').andThen
          [.number (p.blame e unit) (String.ofList p.text)] fun _ q =>
            .read (.number (p.blame e unit) (String.ofList p.text)) q := by
      intro e' p' j h
      simp only [Rule.primary, h.kind, hkind, h.blame, h.text]
    have named : Derives .primary [l.token]
        (Phrase.number (p.blame e unit) (String.ofList p.text)).expr := by
      rw [text]
      exact .number (x := l.token) (hlk.trans hkind)
    rw [primary_eq (.refl e p)]
    exact ((literal_meets hls named).weaken fun _ => trivial).congr fun e' p' h => primary_eq h
  · have named : Derives .primary [l.token, Token.anyName] (Phrase.variable ⟨0, 0⟩ none "a").expr :=
      .variable (y := Token.anyName) (hlk.trans hkind) rfl
    simp only [Rule.primary, hkind]
    refine Outcome.Meets.congr ?_ fun e' p' h => by
      simp only [h.kind, hkind, h.span]
      rfl
    exact (Place.advance_andThen_meets hls (fun q _ hst => variable_meets hst (hlk.trans hkind))
      ⟨[Token.anyName], _, .eof, named⟩).weaken fun _ => trivial
  · simp only [Rule.primary, hkind]
    refine Outcome.Meets.congr ((parens_meets ih hk hls (hlk.trans hkind) need).weaken fun _ => trivial) fun e' p' h => ?_
    simp only [h.kind, hkind]
  · have hname : p.name = l.token.name := by rw [Place.name, text]; rfl
    have function : l.token.isFunctionName = true := isFunctionName_of_isCall (hlk.trans hkind) hname call notType
    rw [primary_default (by simp [hkind]) (by simp [hkind]) (by simp [hkind]) (by simp [hkind])]
    refine (call_meets ih hk hp hls function need).weaken (fun _ => trivial) |>.congr fun e' p' h => ?_
    rw [primary_default (by simp [h.kind, hkind]) (by simp [h.kind, hkind]) (by simp [h.kind, hkind])
      (by simp [h.kind, hkind]), h.span, h.name]

theorem arguments_succ (ih : RuleSpecs k) (hk : k ≤ k') (hp : p.Stands e)
    (need : 12 * p.ahead.length + 8 ≤ k + 1) :
    (Rule.arguments e (k + 1) unit p).Meets e p
      (fun w args kind => kind = .rparen ∧
        ((w = [] ∧ args = []) ∨ DerivesArguments w (Phrase.exprs args))) False
      (fun e' p' => Rule.arguments e' (k' + 1) unit p') := by
  by_cases hr : p.kind = .rparen
  · rw [Rule.arguments, if_pos hr]
    exact (Outcome.Meets.read hp ⟨hr, .inl ⟨rfl, rfl⟩⟩).congr fun e' p' h => by
      rw [Rule.arguments, if_pos (h.kind.trans hr)]
  · rw [Rule.arguments, if_neg hr]
    exact ((ih.someArguments hk hp (by omega)).imp fun w args _ h => ⟨h.1, .inr h.2⟩).congr
      fun e' p' h => by rw [Rule.arguments, if_neg (by rw [h.kind]; exact hr)]

theorem someArguments_succ (ih : RuleSpecs k) (hk : k ≤ k') (hp : p.Stands e)
    (need : 12 * p.ahead.length + 7 ≤ k + 1) :
    (Rule.someArguments e (k + 1) unit p).Meets e p
      (fun w args kind => kind = .rparen ∧ DerivesArguments w (Phrase.exprs args)) False
      (fun e' p' => Rule.someArguments e' (k' + 1) unit p') := by
  rw [Rule.someArguments]
  refine Outcome.Meets.congr ?_ fun e' p' _ => by rw [Rule.someArguments]
  refine (ih.operand hk hp (by omega) (by omega)).andThen (fun arg q w hw _ hst hL => ?_)
    fun w arg _ hL => ⟨[], [arg], .rparen, rfl, by rw [List.append_nil]; exact .last hL.1⟩
  rw [hw, List.length_append] at need
  by_cases hc : q.kind = .comma
  · obtain ⟨l, ls, hls, hlk⟩ := Place.eq_cons_of_kind hc (by decide)
    have more : ∀ {v : List Token} {args : List Phrase}, DerivesArguments v (Phrase.exprs args) →
        DerivesArguments (w.map Lexeme.token ++ l.token :: v) (Phrase.exprs (arg :: args)) :=
      fun h => .more (x := l.token) hlk hL.1 h
    rw [if_pos hc]
    refine Outcome.Meets.congr ?_ fun e' p' h => by rw [if_pos (h.kind.trans hc)]
    refine (Place.advance_andThen_meets hls (fun q' hq' hst' => ?_) ?_).weaken False.elim
    · subst hq'
      rw [hls, List.length_cons] at need
      refine (ih.someArguments hk hst' (by omega)).andThen (fun args q'' v _ _ hst'' hL' => ?_)
        fun v args _ hL' => ?_
      · refine .read hst'' ⟨hL'.1, ?_⟩
        rw [List.append_nil]
        exact more hL'.2
      · exact ⟨[], arg :: args, .rparen, rfl, by rw [List.append_nil]; exact more hL'.2⟩
    · exact ⟨[Token.anyName], [arg, .anyName .child], .rparen, rfl,
        more (.last (derives_anyName_level (by decide)))⟩
  · have last : DerivesArguments (w.map Lexeme.token ++ []) (Phrase.exprs [arg]) := by
      rw [List.append_nil]
      exact .last hL.1
    rw [if_neg hc]
    by_cases hr : q.kind = .rparen
    · rw [Place.expect, if_pos hr, Outcome.andThen_read]
      exact (Outcome.Meets.read hst ⟨hr, last⟩).congr fun e' p' h => by
        rw [if_neg (by rw [h.kind]; exact hc), Place.expect, if_pos (h.kind.trans hr),
          Outcome.andThen_read]
    · have fits : Cause.FitsAt q (.tokenExpected .rparen q.found) := rfl
      have expect_eq : ∀ {e' : Ending} {p' : Place}, q.Resembles e e' p' →
          p'.expect e' .rparen = .broken [] ⟨.tokenExpected .rparen q.found, q.span e⟩ := by
        intro e' p' h
        rw [Place.expect, if_neg (by rw [h.kind]; exact hr), if_neg (by decide), h.found, h.fault]
        rfl
      rw [expect_eq (.refl e q), Outcome.andThen_broken]
      exact (Outcome.Meets.broken hst fits ⟨[], [arg], .rparen, rfl, last⟩).congr fun e' p' h => by
        rw [if_neg (by rw [h.kind]; exact hc), expect_eq h, Outcome.andThen_broken]

end RuleSpecs

/-- **Every rule reads its symbol**, wherever the fuel is enough. -/
theorem ruleSpecs : ∀ k, RuleSpecs k
  | 0 => by constructor <;> intros <;> omega
  | k + 1 => by
    have ih := ruleSpecs k
    -- the other fuel is not less, so it is not zero either
    have other : ∀ {k' : Nat}, k + 1 ≤ k' → ∃ j, k' = j + 1 ∧ k ≤ j := by
      intro k' h
      exact ⟨k' - 1, by omega, by omega⟩
    exact {
      operand := fun hk hp hl need => by
        obtain ⟨j, rfl, h⟩ := other hk
        exact ih.operand_succ h hp hl need
      operators := fun hk hp hl need hv hlm hm hc => by
        obtain ⟨j, rfl, h⟩ := other hk
        exact ih.operators_succ h hp hl need hv hlm hm hc
      union := fun hk hp need => by
        obtain ⟨j, rfl, h⟩ := other hk
        exact ih.union_succ h hp need
      members := fun hk hp need hv => by
        obtain ⟨j, rfl, h⟩ := other hk
        exact ih.members_succ h hp need hv
      path := fun hk hp need => by
        obtain ⟨j, rfl, h⟩ := other hk
        exact ih.path_succ h hp need
      location := fun hk hp need => by
        obtain ⟨j, rfl, h⟩ := other hk
        exact ih.location_succ h hp need
      relative := fun hk hp need => by
        obtain ⟨j, rfl, h⟩ := other hk
        exact ih.relative_succ h hp need
      steps := fun hk hp need hj hv => by
        obtain ⟨j, rfl, h⟩ := other hk
        exact ih.steps_succ h hp need hj hv
      step := fun hk hp need => by
        obtain ⟨j, rfl, h⟩ := other hk
        exact ih.step_succ h hp need
      predicates := fun hk hp need hs hv => by
        obtain ⟨j, rfl, h⟩ := other hk
        exact ih.predicates_succ h hp need hs hv
      filter := fun hk hp hs need => by
        obtain ⟨j, rfl, h⟩ := other hk
        exact ih.filter_succ h hp hs need
      primary := fun hk hp hs need => by
        obtain ⟨j, rfl, h⟩ := other hk
        exact ih.primary_succ h hp hs need
      arguments := fun hk hp need => by
        obtain ⟨j, rfl, h⟩ := other hk
        exact ih.arguments_succ h hp need
      someArguments := fun hk hp need => by
        obtain ⟨j, rfl, h⟩ := other hk
        exact ih.someArguments_succ h hp need }

end StylesheetReversal.Path
