import StylesheetReversal.Proofs.Path.RuleSpecs
/-!
# The rules for paths and steps

Only at a name does a rule look at two lexemes, to tell a call from a step and a node type from a
name.  It then passes the name in either case, so whatever it breaks at lies behind both.
-/
namespace StylesheetReversal.Path.RuleSpecs

variable {k k' limit : Nat} {e : Ending} {unit : Option Span} {p : Place}

theorem path_succ (ih : RuleSpecs k) (hk : k ≤ k') (hp : p.Stands e)
    (need : 12 * p.ahead.length + 4 ≤ k + 1) :
    (Rule.path e (k + 1) unit p).Meets e p (Makes .path []) False
      (fun e' p' => Rule.path e' (k' + 1) unit p') := by
  by_cases hs : p.startsPrimary = true
  · have starts : ∀ {e' : Ending} {w r ls : List Lexeme}, p.ahead = w ++ r → Alike e r e' ls →
        (p.kind = .name → w ≠ []) → Place.startsPrimary ⟨p.last, w ++ ls⟩ = true :=
      fun hw h hm => (Place.startsPrimary_passed hw h hm).trans hs
    rw [Rule.path, if_pos hs]
    have filtered : ((Rule.filter e k unit p).andThen [] fun node q =>
        Rule.steps e k (some ⟨(p.span e).start, q.last⟩) node q).Meets e p (Makes .path [])
        (p.kind = .name) (fun e' p' => (Rule.filter e' k' unit p').andThen [] fun node q =>
          Rule.steps e' k' (some ⟨(p.span e).start, q.last⟩) node q) := by
      refine (ih.filter hk hp hs (by omega)).andThen (fun node q w hw _ hs' hL => ?_) ?_
      · have fuel : 12 * q.ahead.length + 1 ≤ k := by
          rw [hw, List.length_append] at need
          omega
        exact (ih.steps hk hs' fuel joins_filter hL).congr fun e' p' h => by rw [h.last]
      · intro w node _ hL
        exact ⟨[], node, .eof, by rw [List.append_nil]; exact .filter hL⟩
    refine (filtered.congr_passed fun e' w r ls hw h hm => ?_).weaken False.elim
    have same : p.Resembles e e' ⟨p.last, w ++ ls⟩ := ⟨rfl, by rw [hw]; exact h.append w⟩
    rw [Rule.path, if_pos (starts hw h hm), same.span]
  · rw [Rule.path, if_neg hs]
    refine (Outcome.Meets.congr_passed (ih.location hk hp (by omega)) fun e' w r ls hw h hm => by
      rw [Rule.path, if_neg (by rw [Place.startsPrimary_passed hw h hm]; exact hs)]).weaken
        False.elim |>.imp fun w t _ h => .location h

theorem location_default (hs : p.kind ≠ .slash) (hss : p.kind ≠ .slashSlash) :
    Rule.location e (k + 1) unit p = Rule.relative e k unit p := by
  rw [Rule.location]
  split <;> simp_all

theorem location_succ (ih : RuleSpecs k) (hk : k ≤ k') (hp : p.Stands e)
    (need : 12 * p.ahead.length + 3 ≤ k + 1) :
    (Rule.location e (k + 1) unit p).Meets e p (Makes .location []) (p.kind = .name)
      (fun e' p' => Rule.location e' (k' + 1) unit p') := by
  by_cases hs : p.kind = .slash
  · obtain ⟨l, ls, hls, hlk⟩ := Place.eq_cons_of_kind hs (by decide)
    simp only [Rule.location, hs]
    refine Outcome.Meets.congr ?_ fun e' p' h => by
      simp only [h.kind, hs]
      rfl
    refine (Place.advance_andThen_meets hls (fun q hq hst => ?_) ?_).weaken (by decide)
    · subst hq
      rw [hls, List.length_cons] at need
      by_cases hstep : q.startsStep = true
      · rw [if_pos hstep]
        refine Outcome.Meets.congr ?_ fun e' p' h => by
          rw [Place.startsStep, h.kind, ← Place.startsStep, if_pos hstep, h.blame]
        refine ((ih.relative hk hst (by omega)).weaken False.elim).andThen (fun rest q' w _ _ hst' hL => ?_) ?_
        · refine (Outcome.Meets.read hst' ?_).congr fun e' p' h => by rw [h.blame]
          rw [List.append_nil]
          exact .rootSlash (x := l.token) hlk hL
        · intro w rest _ hL
          exact ⟨[], .join ⟨0, 0⟩ (Rule.wholeAxis ⟨0, 0⟩ .root) rest, .eof,
            by rw [List.append_nil]; exact .rootSlash (x := l.token) hlk hL⟩
      · rw [if_neg hstep]
        refine (Outcome.Meets.read hst ?_).congr fun e' p' h => by
          rw [Place.startsStep, h.kind, ← Place.startsStep, if_neg hstep, h.blame]
        exact .root hlk
    · exact ⟨[], Rule.wholeAxis ⟨0, 0⟩ .root, .eof, .root hlk⟩
  · by_cases hss : p.kind = .slashSlash
    · obtain ⟨l, ls, hls, hlk⟩ := Place.eq_cons_of_kind hss (by decide)
      have joins : ∀ {w : List Token} {t : Phrase} (b b' b'' b''' : Span), Derives .relative w t.expr →
          Derives .location (l.token :: w) (Phrase.join b (Rule.wholeAxis b' .root)
            (.join b'' (Rule.wholeAxis b''' .descendantOrSelf) t)).expr :=
        fun _ _ _ _ h => .rootSlashSlash (x := l.token) hlk h
      simp only [Rule.location, hss]
      refine Outcome.Meets.congr ?_ fun e' p' h => by
        simp only [h.kind, hss]
        rfl
      refine (Place.advance_andThen_meets hls (fun q hq hst => ?_) ?_).weaken (by decide)
      · subst hq
        rw [hls, List.length_cons] at need
        refine Outcome.Meets.congr ?_ fun e' p' h => by rw [h.blame]
        refine ((ih.relative hk hst (by omega)).weaken False.elim).andThen (fun rest q' w _ _ hst' hL => ?_) ?_
        · refine (Outcome.Meets.read hst' ?_).congr fun e' p' h => by rw [h.blame]
          rw [List.append_nil]
          exact joins _ _ _ _ hL
        · intro w rest _ hL
          exact ⟨[], _, .eof, by rw [List.append_nil]; exact joins ⟨0, 0⟩ ⟨0, 0⟩ ⟨0, 0⟩ ⟨0, 0⟩ hL⟩
      · exact ⟨[Token.anyName], _, .eof, joins ⟨0, 0⟩ ⟨0, 0⟩ ⟨0, 0⟩ ⟨0, 0⟩ derives_anyName_relative⟩
    · rw [location_default hs hss]
      exact ((ih.relative hk hp (by omega)).congr fun e' p' h =>
        location_default (by rw [h.kind]; exact hs) (by rw [h.kind]; exact hss)).imp
          fun w t _ h => .relative h

theorem relative_succ (ih : RuleSpecs k) (hk : k ≤ k') (hp : p.Stands e)
    (need : 12 * p.ahead.length + 2 ≤ k + 1) :
    (Rule.relative e (k + 1) unit p).Meets e p (Makes .relative []) (p.kind = .name)
      (fun e' p' => Rule.relative e' (k' + 1) unit p') := by
  simp only [Rule.relative]
  refine (ih.step hk hp (by omega)).andThen (fun first q w hw _ hs hL => ?_) ?_
  · refine ih.steps hk hs ?_ joins_step hL
    rw [hw, List.length_append] at need
    omega
  · intro w first _ hL
    exact ⟨[], first, .eof, by rw [List.append_nil]; exact .step hL⟩

theorem steps_default {first : Phrase} (hs : p.kind ≠ .slash) (hss : p.kind ≠ .slashSlash) :
    Rule.steps e (k + 1) unit first p = .read first p := by
  rw [Rule.steps]
  split <;> simp_all

theorem steps_succ (ih : RuleSpecs k) (hk : k ≤ k') (hp : p.Stands e)
    {v : List Token} {first : Phrase} {s t : Symbol} (need : 12 * p.ahead.length + 1 ≤ k + 1)
    (hj : Joins s t) (hv : Derives s v first.expr) :
    (Rule.steps e (k + 1) unit first p).Meets e p (Makes t v) False
      (fun e' p' => Rule.steps e' (k' + 1) unit first p') := by
  by_cases hs : p.kind = .slash
  · obtain ⟨l, ls, hls, hlk⟩ := Place.eq_cons_of_kind hs (by decide)
    have joins : ∀ {w : List Token} {r : Phrase} (b : Span), Derives .relative w r.expr →
        Derives t (v ++ l.token :: w) (Phrase.join b first r).expr :=
      fun _ h => hj.slash (x := l.token) hlk hv h
    simp only [Rule.steps, hs]
    refine Outcome.Meets.congr ?_ fun e' p' h => by
      simp only [h.kind, hs]
      rfl
    refine (Place.advance_andThen_meets hls (fun q hq hst => ?_) ?_).weaken False.elim
    · subst hq
      rw [hls, List.length_cons] at need
      refine ((ih.relative hk hst (by omega)).weaken False.elim).andThen (fun rest q' w _ _ hst' hL => ?_) ?_
      · refine (Outcome.Meets.read hst' ?_).congr fun e' p' h => by rw [h.blame]
        rw [List.append_nil]
        exact joins _ hL
      · intro w rest _ hL
        exact ⟨[], .join ⟨0, 0⟩ first rest, .eof, by rw [List.append_nil]; exact joins _ hL⟩
    · exact ⟨[Token.anyName], _, .eof, joins ⟨0, 0⟩ derives_anyName_relative⟩
  · by_cases hss : p.kind = .slashSlash
    · obtain ⟨l, ls, hls, hlk⟩ := Place.eq_cons_of_kind hss (by decide)
      have joins : ∀ {w : List Token} {r : Phrase} (b b' b'' : Span), Derives .relative w r.expr →
          Derives t (v ++ l.token :: w)
            (Phrase.join b first (.join b' (Rule.wholeAxis b'' .descendantOrSelf) r)).expr :=
        fun _ _ _ h => hj.slashSlash (x := l.token) hlk hv h
      simp only [Rule.steps, hss]
      refine Outcome.Meets.congr ?_ fun e' p' h => by
        simp only [h.kind, hss]
        rfl
      refine (Place.advance_andThen_meets hls (fun q hq hst => ?_) ?_).weaken False.elim
      · subst hq
        rw [hls, List.length_cons] at need
        refine Outcome.Meets.congr ?_ fun e' p' h => by rw [h.blame]
        refine ((ih.relative hk hst (by omega)).weaken False.elim).andThen (fun rest q' w _ _ hst' hL => ?_) ?_
        · refine (Outcome.Meets.read hst' ?_).congr fun e' p' h => by rw [h.blame]
          rw [List.append_nil]
          exact joins _ _ _ hL
        · intro w rest _ hL
          exact ⟨[], _, .eof, by rw [List.append_nil]; exact joins ⟨0, 0⟩ ⟨0, 0⟩ ⟨0, 0⟩ hL⟩
      · exact ⟨[Token.anyName], _, .eof, joins ⟨0, 0⟩ ⟨0, 0⟩ ⟨0, 0⟩ derives_anyName_relative⟩
    · rw [steps_default hs hss]
      refine (Outcome.Meets.read hp ?_).congr fun e' p' h =>
        steps_default (by rw [h.kind]; exact hs) (by rw [h.kind]; exact hss)
      rw [Makes, List.append_nil]
      exact hj.alone hv

/-! ## Node tests -/

theorem target_meets (hp : p.Stands e) (kind : NodeKind) :
    (Rule.target e kind p).Meets e p
      (fun w name _ => (w = [] ∧ name = none) ∨
        ∃ s, w = [s] ∧ s.kind = .string ∧ kind = .processingInstruction ∧ name = some s.content) False
      (fun e' p' => Rule.target e' kind p') := by
  by_cases hc : kind = .processingInstruction ∧ p.kind ≠ .rparen
  · by_cases hs : p.kind = .string
    · obtain ⟨l, ls, hls, hlk⟩ := Place.eq_cons_of_kind hs (by decide)
      have content : p.content = l.token.content := by
        obtain ⟨n, _⟩ := p
        subst hls
        rfl
      have target_eq : ∀ {e' : Ending} {p' : Place}, p.Resembles e e' p' → Rule.target e' kind p' =
          (p'.advance e').andThen [] fun _ q => .read (some p.content) q := by
        intro e' p' h
        rw [Rule.target, if_pos (by rw [h.kind]; exact hc), Place.expect, if_pos (h.kind.trans hs),
          Outcome.andThen_read, h.content]
      rw [target_eq (.refl e p)]
      refine ((Place.advance_andThen_meets hls (fun q _ hst => ?_) ?_).weaken False.elim).congr
        fun e' p' h => target_eq h
      · exact .read hst (.inr ⟨l.token, rfl, hlk, hc.1, by rw [content]⟩)
      · exact ⟨[], _, .eof, .inr ⟨l.token, rfl, hlk, hc.1, rfl⟩⟩
    · have fits : Cause.FitsAt p (.tokenExpected .string p.found) := rfl
      have target_eq : ∀ {e' : Ending} {p' : Place}, p.Resembles e e' p' → Rule.target e' kind p' =
          .broken [] ⟨.tokenExpected .string p.found, p.span e⟩ := by
        intro e' p' h
        rw [Rule.target, if_pos (by rw [h.kind]; exact hc), Place.expect,
          if_neg (by rw [h.kind]; exact hs), if_neg (by decide), h.found, h.fault]
        rfl
      rw [target_eq (.refl e p)]
      exact (Outcome.Meets.broken hp fits ⟨[], none, .eof, .inl ⟨rfl, rfl⟩⟩).congr
        fun e' p' h => target_eq h
  · rw [Rule.target, if_neg hc]
    exact (Outcome.Meets.read hp (.inl ⟨rfl, rfl⟩)).congr fun e' p' h => by
      rw [Rule.target, if_neg (by rw [h.kind]; exact hc)]

theorem test_default {axis : Axis} (hn : p.kind ≠ .name) (hs : p.kind ≠ .star) :
    Rule.test e axis p = p.fault e (.nodeTestExpected p.found) := by
  rw [Rule.test]
  split <;> simp_all

theorem test_call {axis : Axis} {kind : NodeKind} (hn : p.kind = .name)
    (hc : p.isCall = true ∧ p.namesNodeType = true)
    (hk : NodeKind.ofTypeName? p.name.base = some kind) :
    Rule.test e axis p = (p.advance e).andThen [] fun _ p => (p.pass e .lparen).andThen [] fun _ p =>
      (Rule.target e kind p).andThen [] fun name p => (p.pass e .rparen).andThen [] fun _ p =>
        .read (kind, none, name) p := by
  simp only [Rule.test, hn, if_pos hc, hk, Option.getD_some]

theorem test_name {axis : Axis} (hn : p.kind = .name)
    (hc : ¬ (p.isCall = true ∧ p.namesNodeType = true)) :
    Rule.test e axis p = (p.advance e).andThen [] fun _ q =>
      .read (axis.principalKind, p.name.qualifier?, p.name.base?) q := by
  simp only [Rule.test, hn, if_neg hc]

/-- The trees of node tests. -/
abbrev Tests (axis : Axis) (w : List Token) (t : Rule.Test) (_ : Kind) : Prop :=
  Derives (.test axis) w (.axis axis t.1 t.2.1 t.2.2)

theorem test_call_meets {axis : Axis} {kind : NodeKind} {l : Lexeme} {ls : List Lexeme}
    (hls : p.ahead = l :: ls) (hlk : l.kind = .name) (hq : l.token.name.qualifier = "")
    (hk : NodeKind.ofTypeName? l.token.name.base = some kind) :
    ((p.advance e).andThen [] fun _ p => (p.pass e .lparen).andThen [] fun _ p =>
      (Rule.target e kind p).andThen [] fun name p => (p.pass e .rparen).andThen [] fun _ p =>
        .read (kind, none, name) p).Meets e p (Tests axis) True
      (fun e' p' => (p'.advance e').andThen [] fun _ p => (p.pass e' .lparen).andThen [] fun _ p =>
        (Rule.target e' kind p).andThen [] fun name p => (p.pass e' .rparen).andThen [] fun _ p =>
          .read (kind, none, name) p) := by
  have called : ∀ {y z : Token} {w : List Token} {name : Option String}, y.kind = .lparen →
      z.kind = .rparen → ((w = [] ∧ name = none) ∨
        ∃ s, w = [s] ∧ s.kind = .string ∧ kind = .processingInstruction ∧ name = some s.content) →
      Derives (.test axis) (l.token :: y :: (w ++ [z])) (.axis axis kind none name) := by
    rintro y z w name hy hz (⟨rfl, rfl⟩ | ⟨s, rfl, hs, rfl, rfl⟩)
    · exact .nodeType hlk hq hk hy hz
    · exact .instruction hlk hq hk hy hs hz
  let close : Token := ⟨.rparen, [')']⟩
  refine Place.advance_andThen_meets hls (fun q _ hst => ?_) ?_
  · refine hst.pass_andThen_meets (by decide) (fun y ys q' _ hy _ hst' => ?_) fun y hy => ?_
    · refine (target_meets hst' kind).andThen (fun name q'' w _ _ hst'' hL => ?_) fun w name _ hL => ?_
      · refine hst''.pass_andThen_meets (by decide) (fun z zs q''' _ hz _ hst''' => ?_) fun z hz => ?_
        · exact .read hst''' (called (y := y.token) (z := z.token) hy hz hL)
        · exact ⟨[], (kind, none, name), .eof, called (y := y.token) hy hz hL⟩
      · exact ⟨[close], (kind, none, name), .eof, called (y := y.token) hy rfl hL⟩
    · exact ⟨[close], (kind, none, none), .eof, called (w := []) hy rfl (.inl ⟨rfl, rfl⟩)⟩
  · exact ⟨[⟨.lparen, ['(']⟩, close], (kind, none, none), .eof,
      called (w := []) rfl rfl (.inl ⟨rfl, rfl⟩)⟩

theorem test_meets (hp : p.Stands e) (axis : Axis) :
    (Rule.test e axis p).Meets e p (Tests axis) (p.kind = .name)
      (fun e' p' => Rule.test e' axis p') := by
  by_cases hn : p.kind = .name
  · obtain ⟨l, ls, hls, hlk⟩ := Place.eq_cons_of_kind hn (by decide)
    have name : p.name = l.token.name := by
      obtain ⟨n, _⟩ := p
      subst hls
      rfl
    have resembles : ∀ {e' : Ending} {w r ls : List Lexeme}, p.ahead = w ++ r → Alike e r e' ls →
        p.Resembles e e' ⟨p.last, w ++ ls⟩ := fun hw h => ⟨rfl, by rw [hw]; exact h.append _⟩
    have sameCall : ∀ {e' : Ending} {w r ls : List Lexeme}, p.ahead = w ++ r → Alike e r e' ls →
        (p.kind = .name → w ≠ []) →
        (Place.isCall ⟨p.last, w ++ ls⟩ = p.isCall ∧
          Place.namesNodeType ⟨p.last, w ++ ls⟩ = p.namesNodeType) := fun hw h hm =>
      ⟨Place.isCall_passed hw h hm, by rw [Place.namesNodeType, (resembles hw h).name]; rfl⟩
    by_cases hc : p.isCall = true ∧ p.namesNodeType = true
    · have nodeType := hc.2
      simp only [Place.namesNodeType, Bool.and_eq_true, decide_eq_true_eq] at nodeType
      obtain ⟨kind, hk⟩ := Option.isSome_iff_exists.1 nodeType.2
      rw [test_call hn hc hk]
      refine ((test_call_meets hls hlk (by rw [← name]; exact nodeType.1) (by rw [← name]; exact hk)).weaken
        fun _ => trivial).congr_passed fun e' w r ls hw h hm => ?_
      obtain ⟨call, typed⟩ := sameCall hw h hm
      exact test_call ((resembles hw h).kind.trans hn) (by rw [call, typed]; exact hc)
        (by rw [(resembles hw h).name]; exact hk)
    · have named : Derives (.test axis) [l.token]
          (.axis axis axis.principalKind p.name.qualifier? p.name.base?) := by
        rw [name]
        exact .name hlk
      let t : Rule.Test := (axis.principalKind, p.name.qualifier?, p.name.base?)
      have reads : ((p.advance e).andThen [] fun _ q => .read t q).Meets e p (Tests axis) True
          (fun e' p' => (p'.advance e').andThen [] fun _ q => .read t q) :=
        Place.advance_andThen_meets hls (fun q _ hst => .read hst named) ⟨[], t, .eof, named⟩
      rw [test_name hn hc]
      refine (reads.weaken fun _ => trivial).congr_passed fun e' w r ls hw h hm => ?_
      obtain ⟨call, typed⟩ := sameCall hw h hm
      rw [test_name ((resembles hw h).kind.trans hn) (by rw [call, typed]; exact hc),
        (resembles hw h).name]
  · by_cases hs : p.kind = .star
    · obtain ⟨l, ls, hls, hlk⟩ := Place.eq_cons_of_kind hs (by decide)
      have starred : Derives (.test axis) [l.token] (.axis axis axis.principalKind none none) := .star hlk
      simp only [Rule.test, hs]
      refine Outcome.Meets.congr ?_ fun e' p' h => by
        simp only [h.kind, hs]
        rfl
      refine (Place.advance_andThen_meets hls (fun q _ hst => ?_) ?_).weaken fun h => by cases h
      · exact .read hst starred
      · exact ⟨[], (axis.principalKind, none, none), .eof, starred⟩
    · have fits : Cause.FitsAt p (.nodeTestExpected p.found) := rfl
      rw [test_default hn hs]
      refine ((hp.fault_meets fits ?_).congr fun e' p' h => ?_).weaken fun h => absurd h hn
      · exact ⟨[Token.anyName], (axis.principalKind, none, some "a"), .eof,
          .name (x := Token.anyName) rfl⟩
      · rw [test_default (by rw [h.kind]; exact hn) (by rw [h.kind]; exact hs), h.found, h.fault]

theorem nodeTest_meets (hp : p.Stands e) (axis : Axis) :
    (Rule.nodeTest e axis p).Meets e p (Makes (.test axis) []) (p.kind = .name)
      (fun e' p' => Rule.nodeTest e' axis p') := by
  unfold Rule.nodeTest
  refine Outcome.Meets.congr ?_ fun e' p' h => by rw [h.span]
  refine (test_meets hp axis).andThen (fun t q w _ _ hst hL => ?_) fun w t _ hL => ?_
  · refine (Outcome.Meets.read hst ?_).congr fun e' p' h => by rw [h.last]
    rw [List.append_nil]
    exact hL
  · exact ⟨[], .axis ⟨0, 0⟩ axis t.1 t.2.1 t.2.2, .eof, by rw [List.append_nil]; exact hL⟩

/-! ## Steps -/

theorem test_ne_nil {axis : Axis} {w : List Token} {t : Expr} (h : Derives (.test axis) w t) :
    w ≠ [] := by
  cases h <;> exact List.cons_ne_nil _ _

theorem tested_meets (ih : RuleSpecs k) (hk : k ≤ k') (hp : p.Stands e) (axis : Axis)
    (need : 12 * p.ahead.length + 1 ≤ k + 1) :
    ((Rule.nodeTest e axis p).andThen [] fun node p =>
      Rule.predicates e k unit axis.isReverse node p).Meets e p (Makes (.tested axis) [])
      (p.kind = .name) (fun e' p' => (Rule.nodeTest e' axis p').andThen [] fun node p =>
        Rule.predicates e' k' unit axis.isReverse node p) := by
  refine (nodeTest_meets hp axis).andThen (fun node q w hw _ hs hL => ?_) fun w node _ hL => ?_
  · have passed : 0 < w.length := by
      have := List.length_pos_iff.2 (test_ne_nil hL)
      simpa using this
    refine ih.predicates hk hs ?_ (takesPredicates_tested axis) (.test hL)
    rw [hw, List.length_append] at need
    omega
  · exact ⟨[], node, .eof, by rw [List.append_nil]; exact .test hL⟩

theorem dotted_meets {l : Lexeme} {ls : List Lexeme} {dots : DottedStep} {axis : Axis}
    (hls : p.ahead = l :: ls) (hd : Derives .step [l.token] (.whole axis)) :
    (Rule.dotted e unit dots axis p).Meets e p (Makes .step []) True
      (fun e' p' => Rule.dotted e' unit dots axis p') := by
  refine Place.advance_andThen_meets hls (fun q _ hst => ?_)
    ⟨[], Rule.wholeAxis ⟨0, 0⟩ axis, .eof, hd⟩
  by_cases hb : q.kind = .lbracket
  · have fits : Cause.FitsAt q (.predicateAfterDottedStep dots) := hb
    simp only [if_pos hb]
    refine (Outcome.Meets.broken hst fits ⟨[], Rule.wholeAxis ⟨0, 0⟩ axis, .eof, hd⟩).congr
      fun e' p' h => ?_
    rw [if_pos (h.kind.trans hb), h.blame, h.span]
  · simp only [if_neg hb]
    refine (Outcome.Meets.read hst ?_).congr fun e' p' h => by
      rw [if_neg (by rw [h.kind]; exact hb), h.blame]
    exact hd

theorem axisOf_implied (h : p.kind = .name ∨ p.kind = .star) :
    Rule.axisOf e p = .read .child p := by
  unfold Rule.axisOf
  rcases h with h | h <;> rw [h]

theorem axisOf_default (ha : p.kind ≠ .axis) (hat : p.kind ≠ .at) (hn : p.kind ≠ .name)
    (hs : p.kind ≠ .star) : Rule.axisOf e p = p.fault e (.unexpectedToken p.found) := by
  unfold Rule.axisOf
  split <;> simp_all

theorem step_default (hd : p.kind ≠ .dot) (hdd : p.kind ≠ .dotDot) :
    Rule.step e (k + 1) unit p = (Rule.axisOf e p).andThen [] fun axis p =>
      (Rule.nodeTest e axis p).andThen [] fun node p =>
      Rule.predicates e k unit axis.isReverse node p := by
  rw [Rule.step]
  split <;> simp_all

theorem axis_meets (ih : RuleSpecs k) (hk : k ≤ k') (hp : p.Stands e)
    (need : 12 * p.ahead.length + 1 ≤ k + 1) (hx : p.kind = .axis) :
    ((Rule.axisOf e p).andThen [] fun axis p => (Rule.nodeTest e axis p).andThen [] fun node p =>
      Rule.predicates e k unit axis.isReverse node p).Meets e p (Makes .step []) False
      (fun e' p' => (Rule.axisOf e' p').andThen [] fun axis p =>
        (Rule.nodeTest e' axis p).andThen [] fun node p =>
        Rule.predicates e' k' unit axis.isReverse node p) := by
  obtain ⟨l, ls, hls, hlk⟩ := Place.eq_cons_of_kind hx (by decide)
  have name : p.name = l.token.name := by
    obtain ⟨n, _⟩ := p
    subst hls
    rfl
  cases ha : Axis.ofName? p.name.base with
  | none =>
    have axisOf_eq : ∀ {e' : Ending} {p' : Place}, p.Resembles e e' p' →
        Rule.axisOf e' p' = p.fault e (.unexpectedToken p.found) := by
      intro e' p' h
      simp only [Rule.axisOf, h.kind, hx, h.name, ha, h.found]
      exact h.fault _
    have fits : Cause.FitsAt p (.unexpectedToken p.found) := rfl
    rw [axisOf_eq (.refl e p)]
    exact (hp.fault_meets fits ⟨_, .anyName .child, .eof, .child (derives_anyName_tested .child)⟩).congr
      fun e' p' h => by rw [axisOf_eq h]; rfl
  | some axis =>
    have axisOf_eq : ∀ {e' : Ending} {p' : Place}, p.Resembles e e' p' → Rule.axisOf e' p' =
        (p'.advance e').andThen [] fun _ p => (p.pass e' .colonColon).andThen [] fun _ p =>
          .read axis p := by
      intro e' p' h
      simp only [Rule.axisOf, h.kind, hx, h.name, ha]
    have stepped : ∀ {y : Token} {w : List Token} {t : Expr}, y.kind = .colonColon →
        Derives (.tested axis) w t → Derives .step (l.token :: y :: w) t :=
      fun hy h => .axis hlk (by rw [← name]; exact ha) hy h
    have reads : ((p.advance e).andThen [] fun _ p => (p.pass e .colonColon).andThen [] fun _ p =>
        .read axis p).Meets e p (fun w a _ => a = axis ∧ ∃ y : Token, y.kind = .colonColon ∧
          w = [l.token, y]) True (fun e' p' => (p'.advance e').andThen [] fun _ p =>
            (p.pass e' .colonColon).andThen [] fun _ p => .read axis p) := by
      refine Place.advance_andThen_meets hls (fun q _ hst => ?_)
        ⟨[⟨.colonColon, []⟩], axis, .eof, rfl, ⟨.colonColon, []⟩, rfl, rfl⟩
      refine hst.pass_andThen_meets (by decide) (fun y ys q' _ hy _ hst' => ?_) fun y hy => ?_
      · exact .read hst' ⟨rfl, y.token, hy, rfl⟩
      · exact ⟨[], axis, .eof, rfl, y, hy, rfl⟩
    rw [axisOf_eq (.refl e p)]
    refine Outcome.Meets.congr ?_ fun e' p' h => by rw [axisOf_eq h]
    refine (reads.weaken False.elim).andThen (fun a q w hw _ hst hL => ?_) fun w a _ hL => ?_
    · obtain ⟨rfl, y, hy, hwy⟩ := hL
      have passed : w.length = 2 := by simpa using congrArg List.length hwy
      rw [hw, List.length_append] at need
      refine ((tested_meets ih hk hst a (by omega)).weaken False.elim).imp fun v t _ h => ?_
      rw [hwy]
      exact stepped hy h
    · obtain ⟨rfl, y, hy, rfl⟩ := hL
      exact ⟨[Token.anyName], .anyName a, .eof, stepped hy (derives_anyName_tested a)⟩

theorem attribute_meets (ih : RuleSpecs k) (hk : k ≤ k') (need : 12 * p.ahead.length + 1 ≤ k + 1) (hat : p.kind = .at) :
    ((Rule.axisOf e p).andThen [] fun axis p => (Rule.nodeTest e axis p).andThen [] fun node p =>
      Rule.predicates e k unit axis.isReverse node p).Meets e p (Makes .step []) True
      (fun e' p' => (Rule.axisOf e' p').andThen [] fun axis p =>
        (Rule.nodeTest e' axis p).andThen [] fun node p =>
        Rule.predicates e' k' unit axis.isReverse node p) := by
  obtain ⟨l, ls, hls, hlk⟩ := Place.eq_cons_of_kind hat (by decide)
  have axisOf_eq : ∀ {e' : Ending} {p' : Place}, p'.kind = .at → Rule.axisOf e' p' =
      (p'.advance e').andThen [] fun _ p => .read .attribute p := by
    intro e' p' h
    simp only [Rule.axisOf, h]
  have reads : ((p.advance e).andThen [] fun _ p => .read Axis.attribute p).Meets e p
      (fun w a _ => a = .attribute ∧ w = [l.token]) True
      (fun e' p' => (p'.advance e').andThen [] fun _ p => .read .attribute p) :=
    Place.advance_andThen_meets hls (fun q _ hst => .read hst ⟨rfl, rfl⟩)
      ⟨[], .attribute, .eof, rfl, rfl⟩
  rw [axisOf_eq hat]
  refine Outcome.Meets.congr ?_ fun e' p' h => by rw [axisOf_eq (h.kind.trans hat)]
  refine reads.andThen (fun a q w hw _ hst hL => ?_) fun w a _ hL => ?_
  · obtain ⟨rfl, hwl⟩ := hL
    have passed : w.length = 1 := by simpa using congrArg List.length hwl
    rw [hw, List.length_append] at need
    refine ((tested_meets ih hk hst .attribute (by omega)).weaken False.elim).imp fun v t _ h => ?_
    rw [hwl]
    exact .attribute hlk h
  · obtain ⟨rfl, rfl⟩ := hL
    exact ⟨[Token.anyName], .anyName .attribute, .eof, .attribute hlk (derives_anyName_tested .attribute)⟩

theorem step_succ (ih : RuleSpecs k) (hk : k ≤ k') (hp : p.Stands e)
    (need : 12 * p.ahead.length + 1 ≤ k + 1) :
    (Rule.step e (k + 1) unit p).Meets e p (Makes .step []) (p.kind = .name)
      (fun e' p' => Rule.step e' (k' + 1) unit p') := by
  by_cases hd : p.kind = .dot
  · obtain ⟨l, ls, hls, hlk⟩ := Place.eq_cons_of_kind hd (by decide)
    have step_eq : ∀ {e' : Ending} {p' : Place} {j : Nat}, p'.kind = .dot →
        Rule.step e' (j + 1) unit p' = Rule.dotted e' unit .dot .self p' := by
      intro e' p' j h
      simp only [Rule.step, h]
    rw [step_eq hd]
    exact ((dotted_meets hls (.dot hlk)).congr fun e' p' h => step_eq (h.kind.trans hd)).weaken
      fun _ => trivial
  by_cases hdd : p.kind = .dotDot
  · obtain ⟨l, ls, hls, hlk⟩ := Place.eq_cons_of_kind hdd (by decide)
    have step_eq : ∀ {e' : Ending} {p' : Place} {j : Nat}, p'.kind = .dotDot →
        Rule.step e' (j + 1) unit p' = Rule.dotted e' unit .dotDot .parent p' := by
      intro e' p' j h
      simp only [Rule.step, h]
    rw [step_eq hdd]
    exact ((dotted_meets hls (.dotDot hlk)).congr fun e' p' h => step_eq (h.kind.trans hdd)).weaken
      fun _ => trivial
  rw [step_default hd hdd]
  refine Outcome.Meets.congr ?_ fun e' p' h =>
    step_default (by rw [h.kind]; exact hd) (by rw [h.kind]; exact hdd)
  by_cases hx : p.kind = .axis
  · exact (axis_meets ih hk hp need hx).weaken fun h => by rw [hx] at h; cases h
  by_cases hat : p.kind = .at
  · exact (attribute_meets ih hk need hat).weaken fun _ => trivial
  by_cases hi : p.kind = .name ∨ p.kind = .star
  · rw [axisOf_implied hi, Outcome.andThen_read]
    exact ((tested_meets ih hk hp .child need).imp fun w t _ h => .child h).congr fun e' p' h => by
      rw [axisOf_implied (by rw [h.kind]; exact hi), Outcome.andThen_read]
  · have hn : p.kind ≠ .name := fun h => hi (.inl h)
    have hs : p.kind ≠ .star := fun h => hi (.inr h)
    have axisOf_eq : ∀ {e' : Ending} {p' : Place}, p.Resembles e e' p' →
        Rule.axisOf e' p' = p.fault e (.unexpectedToken p.found) := by
      intro e' p' h
      rw [axisOf_default (by rw [h.kind]; exact hx) (by rw [h.kind]; exact hat)
        (by rw [h.kind]; exact hn) (by rw [h.kind]; exact hs), h.found, h.fault]
    have fits : Cause.FitsAt p (.unexpectedToken p.found) := rfl
    rw [axisOf_eq (.refl e p)]
    exact ((hp.fault_meets fits ⟨_, .anyName .child, .eof, .child (derives_anyName_tested .child)⟩).congr
      fun e' p' h => by rw [axisOf_eq h]; rfl).weaken fun h => absurd h hn

end StylesheetReversal.Path.RuleSpecs
