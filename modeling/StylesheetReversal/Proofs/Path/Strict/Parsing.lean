import StylesheetReversal.Proofs.Path.Strict.Agreement
import StylesheetReversal.Proofs.Path.TwoPasses
/-!
# Parsing without a slip

The rules of the grammar ask for a name, a flag or the content of a string only where they stand at a lexeme that has it, and
where they count on a lexeme that has been announced, it is there.  So strict parsing comes to no slip and is parsing, of any
text and with any builder (`Strict.parse_eq`).
-/
namespace StylesheetReversal.Path

variable {σ ν : Type}

namespace Agrees

open Scanner (Read read_advance kind_of_announces)

variable {c : Scanner}

/-! ## Node tests -/

section

variable (hc : c.Read)
include hc

theorem target (type : NodeKind) :
    Agrees (σ := σ) c (Strict.target type) (Parser.target type) fun _ => Read := by
  unfold Strict.target Parser.target
  refine glance (here ?_)
  by_cases h : type = .processingInstruction ∧ c.session.kind ≠ .rparen
  · simp only [if_pos h]
    refine bind (check (by decide)) fun _ c' hcheck => ?_
    obtain ⟨rfl, hk⟩ := hcheck
    refine look (Looks.content hc hk) ?_
    exact advance_pure _
  · simp only [if_neg h]
    exact pure hc

/-- The name of a node type has announced the parenthesis behind it. -/
theorem test (axis : Axis) : Agrees (σ := σ) c (Strict.test axis) (Parser.test axis) fun _ => Read := by
  unfold Strict.test Parser.test
  refine glance (here ?_)
  by_cases hname : c.session.kind = .name
  · simp only [hname]
    refine look (Looks.callsNodeType hc hname) ?_
    by_cases hcall : c.session.isCallable = true ∧ c.session.namesNodeType = true
    · simp only [hcall.1, hcall.2, Bool.and_self, if_true]
      refine look (Looks.name hc hname) ?_
      have named := hcall.2
      simp only [Session.namesNodeType, Bool.and_eq_true] at named
      obtain ⟨type, htype⟩ := Option.isSome_iff_exists.1 named.2
      simp only [htype]
      refine bind advance fun _ c₁ h₁ => ?_
      refine bind (announced (kind_of_announces (Session.isCallable_promises hcall.1) h₁)) fun _ c₂ h₂ => ?_
      refine bind (target (read_advance h₂) type) fun said c₃ _ => ?_
      exact pass_pure (by decide) _
    · have flag : (c.session.isCallable && c.session.namesNodeType) = false := by
        rw [← Bool.not_eq_true, Bool.and_eq_true]
        exact hcall
      simp only [if_neg hcall, flag, Bool.false_eq_true, if_false]
      refine look (Looks.name hc hname) ?_
      exact advance_pure _
  by_cases hstar : c.session.kind = .star
  · simp only [hstar]
    exact advance_pure _
  · cases hkind : c.session.kind
    case name => exact absurd hkind hname
    case star => exact absurd hkind hstar
    all_goals exact blame fun _ _ h => by cases h

/-- An axis is one of the axes, and it has announced the colons behind it. -/
theorem axisOf : Agrees (σ := σ) c Strict.axisOf Parser.axisOf fun _ => Read := by
  unfold Strict.axisOf Parser.axisOf
  refine glance (here ?_)
  by_cases haxis : c.session.kind = .axis
  · simp only [haxis]
    refine look (Looks.axis hc haxis) ?_
    obtain ⟨hsome, hcolons⟩ := hc.axis haxis
    obtain ⟨axis, hheld⟩ := Option.isSome_iff_exists.1 hsome
    simp only [hheld]
    refine bind advance fun _ c₁ h₁ => ?_
    exact bind (announced (kind_of_announces hcolons h₁)) fun _ _ h₂ => pure (read_advance h₂)
  · cases hkind : c.session.kind
    case axis => exact absurd hkind haxis
    case «at» => exact advance_pure _
    case name => exact pure hc
    case star => exact pure hc
    all_goals exact unexpected

variable (b : Builder σ ν)

theorem nodeTest (axis : Axis) : Agrees c (Strict.nodeTest b axis) (Parser.nodeTest b axis) fun _ => Read := by
  unfold Strict.nodeTest Parser.nodeTest
  refine glance (here ?_)
  refine bind (test hc axis) fun read c' hc' => ?_
  obtain ⟨type, qualifier, name⟩ := read
  refine glance (here ?_)
  exact within (ask_read b hc' _)

omit hc in
theorem dotted (step : DottedStep) (axis : Axis) :
    Agrees c (Strict.dotted b step axis) (Parser.dotted b step axis) fun _ => Read := by
  unfold Strict.dotted Parser.dotted
  refine bind advance fun _ c' hadvance => ?_
  refine ask_bind b _ fun node => ?_
  refine glance (here ?_)
  by_cases hk : c'.session.kind = .lbracket
  · simp only [if_pos hk]
    exact blame fun _ _ h => by cases h
  · simp only [if_neg hk]
    exact pure (read_advance hadvance)

end

end Agrees

/-! ## The rules -/

open Scanner (Read)

/-- Every rule agrees with itself, with this much fuel.  A primary expression is only read where one starts. -/
structure Slipless (b : Builder σ ν) (k : Nat) : Prop where
  operand {c : Scanner} : c.Read → ∀ limit, Agrees c (Strict.operand b k limit) (Parser.operand b k limit) fun _ => Read
  operators {c : Scanner} : c.Read → ∀ limit left,
    Agrees c (Strict.operators b k limit left) (Parser.operators b k limit left) fun _ => Read
  union {c : Scanner} : c.Read → Agrees c (Strict.union b k) (Parser.union b k) fun _ => Read
  members {c : Scanner} : c.Read → ∀ left, Agrees c (Strict.members b k left) (Parser.members b k left) fun _ => Read
  path {c : Scanner} : c.Read → Agrees c (Strict.path b k) (Parser.path b k) fun _ => Read
  location {c : Scanner} : c.Read → Agrees c (Strict.location b k) (Parser.location b k) fun _ => Read
  relative {c : Scanner} : c.Read → Agrees c (Strict.relative b k) (Parser.relative b k) fun _ => Read
  steps {c : Scanner} : c.Read → ∀ first, Agrees c (Strict.steps b k first) (Parser.steps b k first) fun _ => Read
  step {c : Scanner} : c.Read → Agrees c (Strict.step b k) (Parser.step b k) fun _ => Read
  predicates {c : Scanner} : c.Read → ∀ reverse node,
    Agrees c (Strict.predicates b k reverse node) (Parser.predicates b k reverse node) fun _ => Read
  filter {c : Scanner} : c.Read → c.session.startsPrimary = true →
    Agrees c (Strict.filter b k) (Parser.filter b k) fun _ => Read
  primary {c : Scanner} : c.Read → c.session.startsPrimary = true →
    Agrees c (Strict.primary b k) (Parser.primary b k) fun _ => Read
  arguments {c : Scanner} : c.Read → Agrees c (Strict.arguments b k) (Parser.arguments b k) fun _ => Read
  someArguments {c : Scanner} : c.Read →
    Agrees c (Strict.someArguments b k) (Parser.someArguments b k) fun _ => Read

namespace Slipless

open Agrees
open Scanner (read_advance kind_of_announces)

variable {b : Builder σ ν} {k : Nat} {c : Scanner}

theorem operand_succ (ih : Slipless b k) (hc : c.Read) (limit : Nat) :
    Agrees c (Strict.operand b (k + 1) limit) (Parser.operand b (k + 1) limit) fun _ => Read := by
  rw [Strict.operand, Parser.operand]
  refine glance (here ?_)
  by_cases hminus : c.session.kind = .minus
  · simp only [if_pos hminus]
    refine Agrees.bind advance fun _ c₁ h₁ => ?_
    refine Agrees.bind (ih.operand (read_advance h₁) _) fun inner c₂ hc₂ => ?_
    exact ask_bind b _ fun node => ih.operators hc₂ limit node
  · simp only [if_neg hminus]
    exact Agrees.bind (ih.union hc) fun left c₁ hc₁ => ih.operators hc₁ limit left

theorem operators_succ (ih : Slipless b k) (hc : c.Read) (limit : Nat) (left : ν) :
    Agrees c (Strict.operators b (k + 1) limit left) (Parser.operators b (k + 1) limit left) fun _ => Read := by
  rw [Strict.operators, Parser.operators]
  refine glance (here ?_)
  cases c.session.kind.operator? with
  | none => exact Agrees.pure hc
  | some op =>
    dsimp only
    by_cases hend : op = .union ∨ op.precedence ≤ limit
    · simp only [if_pos hend]
      exact Agrees.pure hc
    · simp only [if_neg hend]
      refine Agrees.bind advance fun _ c₁ h₁ => ?_
      refine Agrees.bind (ih.operand (read_advance h₁) _) fun right c₂ hc₂ => ?_
      exact ask_bind b _ fun node => ih.operators hc₂ limit node

theorem union_succ (ih : Slipless b k) (hc : c.Read) :
    Agrees c (Strict.union b (k + 1)) (Parser.union b (k + 1)) fun _ => Read := by
  rw [Strict.union, Parser.union]
  exact Agrees.bind (ih.path hc) fun left c₁ hc₁ => ih.members hc₁ left

theorem members_succ (ih : Slipless b k) (hc : c.Read) (left : ν) :
    Agrees c (Strict.members b (k + 1) left) (Parser.members b (k + 1) left) fun _ => Read := by
  rw [Strict.members, Parser.members]
  refine glance (here ?_)
  by_cases hunion : c.session.kind = .union
  · simp only [if_pos hunion]
    refine Agrees.bind advance fun _ c₁ h₁ => ?_
    refine glance (here ?_)
    refine Agrees.bind (ih.path (read_advance h₁)) fun right c₂ hc₂ => ?_
    refine glance (here ?_)
    exact Agrees.bind (within (ask_read b hc₂ _)) fun node c₃ hc₃ => ih.members hc₃ node
  · simp only [if_neg hunion]
    exact Agrees.pure hc

theorem path_succ (ih : Slipless b k) (hc : c.Read) :
    Agrees c (Strict.path b (k + 1)) (Parser.path b (k + 1)) fun _ => Read := by
  rw [Strict.path, Parser.path]
  refine Agrees.look (Looks.startsPrimary hc) (here ?_)
  by_cases hprimary : c.session.startsPrimary = true
  · simp only [if_pos hprimary]
    refine glance ?_
    refine Agrees.bind (ih.filter hc hprimary) fun node c₁ hc₁ => ?_
    refine glance (here ?_)
    exact within (ih.steps hc₁ node)
  · simp only [if_neg hprimary]
    exact ih.location hc

/-- What stands behind `//`: a step of its own, the path, and two joins. -/
theorem inside (ih : Slipless b k) (hc : c.Read) (first : ν) :
    Agrees c
      (Strict.whole b .descendantOrSelf >>= fun inside => Strict.relative b k >>= fun rest =>
        Strict.ask b (.join inside rest) >>= fun tail => Strict.ask b (.join first tail))
      (Parser.whole b .descendantOrSelf >>= fun inside => Parser.relative b k >>= fun rest =>
        Reading.ask b (.join inside rest) >>= fun tail => Reading.ask b (.join first tail)) fun _ => Read := by
  refine ask_bind b _ fun inside => ?_
  refine Agrees.bind (ih.relative hc) fun rest c₁ hc₁ => ?_
  exact ask_bind b _ fun tail => ask_read b hc₁ _

theorem location_succ (ih : Slipless b k) (hc : c.Read) :
    Agrees c (Strict.location b (k + 1)) (Parser.location b (k + 1)) fun _ => Read := by
  rw [Strict.location, Parser.location]
  refine glance (here ?_)
  cases hk : c.session.kind
  case slash =>
    refine Agrees.bind advance fun _ c₁ h₁ => ?_
    refine ask_bind b _ fun root => ?_
    refine glance (here ?_)
    by_cases hstep : c₁.session.startsStep = true
    · simp only [if_pos hstep]
      exact Agrees.bind (ih.relative (read_advance h₁)) fun rest c₂ hc₂ => ask_read b hc₂ _
    · simp only [if_neg hstep]
      exact Agrees.pure (read_advance h₁)
  case slashSlash =>
    refine Agrees.bind advance fun _ c₁ h₁ => ?_
    exact ask_bind b _ fun root => ih.inside (read_advance h₁) root
  all_goals exact ih.relative hc

theorem relative_succ (ih : Slipless b k) (hc : c.Read) :
    Agrees c (Strict.relative b (k + 1)) (Parser.relative b (k + 1)) fun _ => Read := by
  rw [Strict.relative, Parser.relative]
  exact Agrees.bind (ih.step hc) fun first c₁ hc₁ => ih.steps hc₁ first

theorem steps_succ (ih : Slipless b k) (hc : c.Read) (first : ν) :
    Agrees c (Strict.steps b (k + 1) first) (Parser.steps b (k + 1) first) fun _ => Read := by
  rw [Strict.steps, Parser.steps]
  refine glance (here ?_)
  cases hk : c.session.kind
  case slash =>
    refine Agrees.bind advance fun _ c₁ h₁ => ?_
    exact Agrees.bind (ih.relative (read_advance h₁)) fun rest c₂ hc₂ => ask_read b hc₂ _
  case slashSlash => exact Agrees.bind advance fun _ c₁ h₁ => ih.inside (read_advance h₁) first
  all_goals exact Agrees.pure hc

theorem step_succ (ih : Slipless b k) (hc : c.Read) :
    Agrees c (Strict.step b (k + 1)) (Parser.step b (k + 1)) fun _ => Read := by
  rw [Strict.step, Parser.step]
  refine glance (here ?_)
  have tested : Agrees c
      (Strict.axisOf >>= fun axis => Strict.nodeTest b axis >>= fun node => Strict.predicates b k axis.isReverse node)
      (Parser.axisOf >>= fun axis => Parser.nodeTest b axis >>= fun node => Parser.predicates b k axis.isReverse node)
      fun _ => Read :=
    Agrees.bind (axisOf hc) fun axis c₁ hc₁ =>
      Agrees.bind (nodeTest hc₁ b axis) fun node c₂ hc₂ => ih.predicates hc₂ _ node
  cases hk : c.session.kind
  case dot => exact dotted b .dot .self
  case dotDot => exact dotted b .dotDot .parent
  all_goals exact tested

theorem predicates_succ (ih : Slipless b k) (hc : c.Read) (reverse : Bool) (node : ν) :
    Agrees c (Strict.predicates b (k + 1) reverse node) (Parser.predicates b (k + 1) reverse node) fun _ => Read := by
  rw [Strict.predicates, Parser.predicates]
  refine glance (here ?_)
  by_cases hbracket : c.session.kind = .lbracket
  · simp only [if_pos hbracket]
    refine Agrees.bind (announced hbracket) fun _ c₁ h₁ => ?_
    refine Agrees.bind (ih.operand (read_advance h₁) 0) fun condition c₂ _ => ?_
    refine Agrees.bind (pass (by decide)) fun _ c₃ h₃ => ?_
    exact ask_bind b _ fun node => ih.predicates (read_advance h₃.2) reverse node
  · simp only [if_neg hbracket]
    exact Agrees.pure hc

theorem filter_succ (ih : Slipless b k) (hc : c.Read) (hprimary : c.session.startsPrimary = true) :
    Agrees c (Strict.filter b (k + 1)) (Parser.filter b (k + 1)) fun _ => Read := by
  rw [Strict.filter, Parser.filter]
  refine glance (here ?_)
  refine Agrees.bind (ih.primary hc hprimary) fun node c₁ hc₁ => ?_
  refine glance (here ?_)
  exact within (ih.predicates hc₁ false node)

/-- A function is called only by a name that has announced its parenthesis. -/
theorem call (ih : Slipless b k) (hc : c.Read) (hname : c.session.kind = .name) (hcall : c.session.isCallable = true) :
    Agrees c (Strict.primary b (k + 1)) (Parser.primary b (k + 1)) fun _ => Read := by
  rw [Strict.primary, Parser.primary]
  refine glance (here ?_)
  simp only [hname]
  rw [InStep.check_pass]
  refine glance (Agrees.look (Looks.name hc hname) ?_)
  refine Agrees.bind (announced hname) fun _ c₁ h₁ => ?_
  refine Agrees.bind (announced (kind_of_announces (Session.isCallable_promises hcall) h₁)) fun _ c₂ h₂ => ?_
  refine Agrees.bind (ih.arguments (read_advance h₂)) fun args c₃ _ => ?_
  refine Agrees.bind advance fun _ c₄ h₄ => ?_
  refine glance (here ?_)
  exact within (ask_read b (read_advance h₄) _)

theorem primary_succ (ih : Slipless b k) (hc : c.Read) (hprimary : c.session.startsPrimary = true) :
    Agrees c (Strict.primary b (k + 1)) (Parser.primary b (k + 1)) fun _ => Read := by
  by_cases hname : c.session.kind = .name
  · simp only [Session.startsPrimary, hname, Bool.and_eq_true] at hprimary
    exact ih.call hc hname hprimary.1
  rw [Strict.primary, Parser.primary]
  refine glance (here ?_)
  have literal : ∀ call : Call ν, Agrees c
      (Strict.ask b call >>= fun node => Strict.advance >>= fun _ => pure node)
      (Reading.ask b call >>= fun node => Reading.advance >>= fun _ => pure node) fun _ => Read :=
    fun call => ask_bind b call fun node => advance_pure node
  cases hk : c.session.kind
  case string => exact Agrees.look (Looks.content hc hk) (literal _)
  case number => exact glance (literal _)
  case dollar =>
    refine glance ?_
    refine Agrees.bind advance fun _ c₁ h₁ => ?_
    refine Agrees.bind (check (by decide)) fun _ c₂ h₂ => ?_
    obtain ⟨rfl, hvariable⟩ := h₂
    refine Agrees.look (Looks.name (read_advance h₁) hvariable) (glance (here ?_))
    refine Agrees.bind (within (ask_read b (read_advance h₁) _)) fun node c₃ _ => ?_
    exact advance_pure node
  case lparen =>
    refine Agrees.bind advance fun _ c₁ h₁ => ?_
    refine Agrees.bind (ih.operand (read_advance h₁) 0) fun inner c₂ _ => ?_
    exact pass_pure (by decide) inner
  -- nothing else starts a primary expression
  all_goals
    simp only [Session.startsPrimary, hk, Bool.false_eq_true] at hprimary
    try exact absurd hk hname

theorem arguments_succ (ih : Slipless b k) (hc : c.Read) :
    Agrees c (Strict.arguments b (k + 1)) (Parser.arguments b (k + 1)) fun _ => Read := by
  rw [Strict.arguments, Parser.arguments]
  refine glance (here ?_)
  by_cases hclosed : c.session.kind = .rparen
  · simp only [if_pos hclosed]
    exact Agrees.pure hc
  · simp only [if_neg hclosed]
    exact ih.someArguments hc

theorem someArguments_succ (ih : Slipless b k) (hc : c.Read) :
    Agrees c (Strict.someArguments b (k + 1)) (Parser.someArguments b (k + 1)) fun _ => Read := by
  rw [Strict.someArguments, Parser.someArguments]
  refine Agrees.bind (ih.operand hc 0) fun arg c₁ hc₁ => ?_
  refine glance (here ?_)
  by_cases hcomma : c₁.session.kind = .comma
  · simp only [if_pos hcomma]
    refine Agrees.bind advance fun _ c₂ h₂ => ?_
    exact Agrees.bind (ih.someArguments (read_advance h₂)) fun args c₃ hc₃ => Agrees.pure hc₃
  · simp only [if_neg hcomma]
    refine Agrees.bind (check (by decide)) fun _ c₂ h₂ => ?_
    exact Agrees.pure (h₂.1 ▸ hc₁)

/-- Without fuel every rule finds the same fault. -/
theorem zero (b : Builder σ ν) : Slipless b 0 where
  operand _ _ := by
    rw [Strict.operand, Parser.operand]
    exact unexpected
  operators _ _ _ := by
    rw [Strict.operators, Parser.operators]
    exact unexpected
  union _ := unexpected
  members _ _ := unexpected
  path _ := unexpected
  location _ := unexpected
  relative _ := unexpected
  steps _ _ := unexpected
  step _ := unexpected
  predicates _ _ _ := by
    rw [Strict.predicates, Parser.predicates]
    exact unexpected
  filter _ _ := unexpected
  primary _ _ := unexpected
  arguments _ := unexpected
  someArguments _ := unexpected

end Slipless

/-- No rule comes to a slip. -/
theorem slipless (b : Builder σ ν) : ∀ k, Slipless b k
  | 0 => .zero b
  | k + 1 =>
    have ih := slipless b k
    { operand := ih.operand_succ
      operators := ih.operators_succ
      union := ih.union_succ
      members := ih.members_succ
      path := ih.path_succ
      location := ih.location_succ
      relative := ih.relative_succ
      steps := ih.steps_succ
      step := ih.step_succ
      predicates := ih.predicates_succ
      filter := ih.filter_succ
      primary := ih.primary_succ
      arguments := ih.arguments_succ
      someArguments := ih.someArguments_succ }

/-! ## Whole expressions -/

theorem Agrees.expression (b : Builder σ ν) (k : Nat) (c : Scanner) :
    Agrees c (Strict.expression b k) (Parser.expression b k) fun _ => Read := by
  unfold Strict.expression Parser.expression
  refine Agrees.bind Agrees.advance fun _ c₁ h₁ => ?_
  refine Agrees.bind ((slipless b k).operand (Scanner.read_advance h₁) 0) fun node c₂ hc₂ => ?_
  exact Agrees.bind (Agrees.check (by decide)) fun _ c₃ h₃ => Agrees.pure (h₃.1 ▸ hc₂)

section

variable (b : Builder σ ν) (text : String) (start : Nat) (st : σ)

/-- **Strict parsing is parsing**: it comes to no slip, and to the same end. -/
theorem Strict.parse_eq : Strict.parse b text start st = .ok (b.parse text start st) := by
  obtain ⟨result, c, st', hstrict, hparser, -⟩ := Agrees.expression b (Parser.fuel (Session.fresh text start).rest.length)
    (Scanner.fresh text start) [] (b.start st)
  have reading : Parser.expression b (Parser.fuel (Session.fresh text start).rest.length)
      ⟨Session.fresh text start, [], b.start st⟩ = (result, ⟨c.session, [], st'⟩) := hparser
  simp only [Strict.parse, Builder.parse, hstrict, reading, ne_eq, not_true_eq_false, if_false]
  cases result with
  | error fault => rfl
  | ok node =>
    cases hfinish : b.finish (some node) st' with
    | mk answer s => cases answer <;> simp only [hfinish]

theorem Builder.parse_fair {err : ParseError} (h : (b.parse text start st).1 = .error err) : err.toFault.Fair := by
  obtain ⟨result, c, st', -, hparser, hresult⟩ := Agrees.expression b (Parser.fuel (Session.fresh text start).rest.length)
    (Scanner.fresh text start) [] (b.start st)
  have reading : Parser.expression b (Parser.fuel (Session.fresh text start).rest.length)
      ⟨Session.fresh text start, [], b.start st⟩ = (result, ⟨c.session, [], st'⟩) := hparser
  simp only [Builder.parse, reading] at h
  cases result with
  | error fault =>
    cases h
    exact hresult
  | ok node =>
    cases hfinish : b.finish (some node) st' with
    | mk answer s =>
      cases answer <;> simp only [hfinish] at h <;> cases h
      exact fun _ _ hcause => by cases hcause

end

/-- **What the scanner promises is kept.**  Wherever a session stands in a text, and whatever it was asked for before: an
axis is one of the axes and colons follow it, and a name that may be called is followed by a parenthesis.  So a parse of any
text with any builder comes to no slip: it asks for names, flags and contents only where the current lexeme has them, leaves
the innermost unit first and all of them in the end, and never demands a lexeme that was announced. -/
theorem promises_kept :
    (∀ (text : String) (start : Nat) (requests : List Request) (s : Session),
      s = (Session.fresh text start).advance.1.after requests →
        (s.kind = .axis → s.axis.isSome = true ∧ s.Announces .colonColon) ∧ (s.isCallable = true → s.Announces .lparen)) ∧
    ∀ (σ ν : Type) (b : Builder σ ν) (text : String) (start : Nat) (st : σ),
      Strict.parse b text start st = .ok (b.parse text start st) ∧
        ∀ err expected found, (b.parse text start st).1 = .error err → err.cause = .tokenExpected expected found →
          expected ∈ [.name, .string, .rparen, .rbracket] := by
  refine ⟨fun text start requests s hs => ?_, fun σ ν b text start st => ⟨Strict.parse_eq b text start st, ?_⟩⟩
  · obtain ⟨t, -, ht⟩ := (Session.behind_fresh text start).moved.after requests
    rw [← hs] at ht
    subst ht
    exact ⟨Session.axis_promises, Session.isCallable_promises⟩
  · exact fun err expected found herr hcause => Builder.parse_fair b text start st herr expected found hcause

/-- An axis, the name of a function behind a string, and a parenthesis that was not announced. -/
theorem promises_kept_call :
    (∃ s : Session, s = (Session.fresh "child ::a" 0).advance.1.after [] ∧ s.kind = .axis ∧ s.axis.isSome = true ∧
      s.Announces .colonColon) ∧
    (∃ s : Session, s = (Session.fresh "'f' | f (" 0).advance.1.after [.pass .string, .advance] ∧ s.isCallable = true ∧
      s.Announces .lparen) ∧
    ∃ err, (Expr.builder.parse "f (a" 0 ()).1 = .error err ∧ err.cause = .tokenExpected .rparen "<eof>" ∧
      Kind.rparen ∈ [Kind.name, .string, .rparen, .rbracket] := by
  refine ⟨⟨_, rfl, rfl, (promises_kept.1 "child ::a" 0 [] _ rfl).1 rfl⟩,
    ⟨_, rfl, rfl, (promises_kept.1 "'f' | f (" 0 [.pass .string, .advance] _ rfl).2 rfl⟩, ?_⟩
  have refused : Expr.parseFrom "f (a" 0 = .error ⟨⟨.tokenExpected .rparen "<eof>", ⟨4, 4⟩⟩, "f (a"⟩ := by
    rw [Expr.parseFrom_eq]
    rfl
  exact ⟨_, refused, rfl, (promises_kept.2 Unit Expr Expr.builder "f (a" 0 ()).2 _ _ _ refused rfl⟩

end StylesheetReversal.Path
