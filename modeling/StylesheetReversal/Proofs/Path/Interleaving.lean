import StylesheetReversal.Proofs.Path.InStep
import StylesheetReversal.Proofs.Path.PrimaryRules
/-!
# The parser reads phrases and builds them

Every rule of the parser keeps in step with the rule for phrases (`inSteps`), although it asks for
constructions in the middle of reading.
-/
namespace StylesheetReversal.Path

open Builder (Work)
open RuleSpecs (test_default axisOf_implied axisOf_default step_default location_default steps_default
  primary_default)

namespace InStep

variable {σ ν β δ : Type} {b : Builder σ ν} {e : Ending} {us : List Span} {s : Session} {p : Place}

/-! ## Node tests -/

theorem target (hs : s.At e p) (kind : NodeKind) :
    InStep b e us s (Work.done ()) Work.done (fun _ => Parser.target kind) (Rule.target e kind p) := by
  unfold Parser.target Rule.target
  refine here ?_
  rw [hs.kind]
  by_cases hc : kind = .processingInstruction ∧ p.kind ≠ .rparen
  · simp only [if_pos hc]
    refine andThen_plain (.nil ()) (check hs .string) fun _ q s' ho hs' => ?_
    -- the string is the lexeme ahead, and no other string is read behind it
    obtain ⟨hstring, rfl⟩ := expected ho
    refine andThen_plain (.nil ()) (advance hs' (by rw [hstring]; decide)) fun _ q s'' _ hs'' => ?_
    refine returned (fun _ => some (String.ofList s.content)) hs'' ?_
    rw [hs.content hstring]
    rfl
  · simp only [if_neg hc]
    exact returned (fun _ => none) hs rfl

theorem test (hs : s.At e p) (axis : Axis) :
    InStep b e us s (Work.done ()) Work.done (fun _ => Parser.test axis) (Rule.test e axis p) := by
  unfold Parser.test
  refine here ?_
  by_cases hn : p.kind = .name
  · simp only [Rule.test, hs.kind, hn, hs.isCallable, hs.namesNodeType, hs.name]
    have notEnd : p.kind ≠ .eof := by rw [hn]; decide
    by_cases hc : p.isCall = true ∧ p.namesNodeType = true
    · obtain ⟨kind, hk⟩ : ∃ kind, NodeKind.ofTypeName? p.name.base = some kind := by
        have := hc.2
        simp only [Place.namesNodeType, Bool.and_eq_true] at this
        exact Option.isSome_iff_exists.1 this.2
      simp only [if_pos hc, hk, Option.getD_some]
      refine andThen_plain (.nil ()) (advance hs notEnd) fun _ q s' _ hs' => ?_
      refine andThen_plain (.nil ()) (pass hs' (by decide)) fun _ q s' _ hs' => ?_
      refine andThen_plain (.nil ()) (target hs' kind) fun name q s' _ hs' => ?_
      refine andThen_plain (.nil ()) (pass hs' (by decide)) fun _ q s' _ hs' => ?_
      exact returned (fun _ => (kind, none, name)) hs' rfl
    · simp only [if_neg hc]
      refine andThen_plain (.nil ()) (advance hs notEnd) fun _ q s' _ hs' => ?_
      exact returned (fun _ => (axis.principalKind, p.name.qualifier?, p.name.base?)) hs' rfl
  by_cases hstar : p.kind = .star
  · simp only [Rule.test, hs.kind, hstar]
    refine andThen_plain (.nil ()) (advance hs (by rw [hstar]; decide)) fun _ q s' _ hs' => ?_
    exact returned (fun _ => (axis.principalKind, none, none)) hs' rfl
  · rw [test_default hn hstar, hs.kind]
    split
    · next h => exact absurd h hn
    · next h => exact absurd h hstar
    · have hf : s.noNodeTest = ⟨.nodeTestExpected p.found, p.span e⟩ := by
        rw [Session.noNodeTest, hs.found, hs.span]
      rw [hf]
      exact fault (.nil ()) fun _ _ => rfl

theorem axisOf (hs : s.At e p) :
    InStep b e us s (Work.done ()) Work.done (fun _ => Parser.axisOf) (Rule.axisOf e p) := by
  unfold Parser.axisOf
  refine here ?_
  by_cases ha : p.kind = .axis
  · simp only [Rule.axisOf, hs.kind, ha, hs.axis ha]
    cases Axis.ofName? p.name.base with
    | none => exact unexpected (.nil ()) hs
    | some axis =>
      refine andThen_plain (.nil ()) (advance hs (by rw [ha]; decide)) fun _ q s' _ hs' => ?_
      refine andThen_plain (.nil ()) (pass hs' (by decide)) fun _ q s' _ hs' => ?_
      exact returned (fun _ => axis) hs' rfl
  by_cases hat : p.kind = .at
  · simp only [Rule.axisOf, hs.kind, hat]
    refine andThen_plain (.nil ()) (advance hs (by rw [hat]; decide)) fun _ q s' _ hs' => ?_
    exact returned (fun _ => Axis.attribute) hs' rfl
  by_cases hi : p.kind = .name ∨ p.kind = .star
  · rw [axisOf_implied hi, hs.kind]
    rcases hi with hi | hi <;> rw [hi] <;> exact returned (fun _ => Axis.child) hs rfl
  · rw [axisOf_default ha hat (fun h => hi (.inl h)) (fun h => hi (.inr h)), hs.kind]
    split
    · next h => exact absurd h ha
    · next h => exact absurd h hat
    · next h => exact absurd (.inl h) hi
    · next h => exact absurd (.inr h) hi
    · exact unexpected (.nil ()) hs

theorem nodeTest (hs : s.At e p) (axis : Axis) :
    InStep b e us s (Work.done ()) b.build (fun _ => Parser.nodeTest b axis) (Rule.nodeTest e axis p) := by
  unfold Parser.nodeTest Rule.nodeTest
  refine here ?_
  refine andThen_plain (.nil ()) (test hs axis) fun t q s' _ hs' => ?_
  obtain ⟨kind, qualifier, name⟩ := t
  refine here ?_
  have window : (⟨s.start, s'.before⟩ : Span) = ⟨(p.span e).start, q.last⟩ := by
    rw [← hs.span, hs'.last]
    rfl
  simp only [window]
  exact asked hs' (fun _ => asks_within _ _) rfl

theorem asks_whole (hs : s.At e p) (axis : Axis) :
    Asks b us s (p.blame e us.head?) (.axis axis .all none none) (Parser.whole b axis) :=
  asks_plain hs _

theorem dotted (hs : s.At e p) (hk : p.kind ≠ .eof) (step : DottedStep) (axis : Axis) :
    InStep b e us s (Work.done ()) b.build (fun _ => Parser.dotted b step axis)
      (Rule.dotted e us.head? step axis p) := by
  unfold Parser.dotted Rule.dotted
  refine andThen_plain (.nil ()) (advance hs hk) fun _ q s' _ hs' => ?_
  have node : b.build (Rule.wholeAxis (q.blame e us.head?) axis) =
      (Work.done ()).andThen fun _ => b.ask (q.blame e us.head?) (.axis axis .all none none) := rfl
  refine ask (fun _ => asks_whole hs' axis) node ?_
  refine here ?_
  rw [hs'.kind]
  by_cases hb : q.kind = .lbracket
  · simp only [if_pos hb]
    have hf : s'.noPredicate step = ⟨.predicateAfterDottedStep step, q.span e⟩ := by
      rw [Session.noPredicate, hs'.span]
    rw [hf]
    exact fault (.single _) fun _ _ => rfl
  · simp only [if_neg hb]
    exact returned id hs' (Work.andThen_done _).symm

end InStep

/-- All rules keep in step, as far as this fuel takes them.  A loop goes on behind the phrase that it has
in hand. -/
structure InSteps {σ ν : Type} (b : Builder σ ν) (k : Nat) : Prop where
  operand : ∀ {e us s p limit}, s.At e p → InStep b e us s (Work.done ()) b.build
    (fun _ => Parser.operand b k limit) (Rule.operand e k us.head? limit p)
  operators : ∀ {e us s p limit left}, s.At e p → InStep b e us s (b.build left) b.build
    (fun node => Parser.operators b k limit node) (Rule.operators e k us.head? limit left p)
  union : ∀ {e us s p}, s.At e p → InStep b e us s (Work.done ()) b.build
    (fun _ => Parser.union b k) (Rule.union e k us.head? p)
  members : ∀ {e us s p left}, s.At e p → InStep b e us s (b.build left) b.build
    (fun node => Parser.members b k node) (Rule.members e k us.head? left p)
  path : ∀ {e us s p}, s.At e p → InStep b e us s (Work.done ()) b.build
    (fun _ => Parser.path b k) (Rule.path e k us.head? p)
  location : ∀ {e us s p}, s.At e p → InStep b e us s (Work.done ()) b.build
    (fun _ => Parser.location b k) (Rule.location e k us.head? p)
  relative : ∀ {e us s p}, s.At e p → InStep b e us s (Work.done ()) b.build
    (fun _ => Parser.relative b k) (Rule.relative e k us.head? p)
  steps : ∀ {e us s p first}, s.At e p → InStep b e us s (b.build first) b.build
    (fun node => Parser.steps b k node) (Rule.steps e k us.head? first p)
  step : ∀ {e us s p}, s.At e p → InStep b e us s (Work.done ()) b.build
    (fun _ => Parser.step b k) (Rule.step e k us.head? p)
  predicates : ∀ {e us s p reverse node}, s.At e p → InStep b e us s (b.build node) b.build
    (fun node => Parser.predicates b k reverse node) (Rule.predicates e k us.head? reverse node p)
  filter : ∀ {e us s p}, s.At e p → InStep b e us s (Work.done ()) b.build
    (fun _ => Parser.filter b k) (Rule.filter e k us.head? p)
  primary : ∀ {e us s p}, s.At e p → InStep b e us s (Work.done ()) b.build
    (fun _ => Parser.primary b k) (Rule.primary e k us.head? p)
  arguments : ∀ {e us s p}, s.At e p → InStep b e us s (Work.done ()) b.buildAll
    (fun _ => Parser.arguments b k) (Rule.arguments e k us.head? p)
  someArguments : ∀ {e us s p}, s.At e p → InStep b e us s (Work.done ()) b.buildAll
    (fun _ => Parser.someArguments b k) (Rule.someArguments e k us.head? p)

namespace InSteps

open InStep

variable {σ ν : Type} {b : Builder σ ν} {k limit : Nat} {e : Ending} {us : List Span} {s : Session}
  {p : Place}

theorem operand_succ (ih : InSteps b k) (hs : s.At e p) : InStep b e us s (Work.done ()) b.build
    (fun _ => Parser.operand b (k + 1) limit) (Rule.operand e (k + 1) us.head? limit p) := by
  simp only [Parser.operand, Rule.operand]
  refine here ?_
  rw [hs.kind]
  by_cases hm : p.kind = .minus
  · simp only [if_pos hm]
    refine andThen_plain (.nil ()) (advance hs (by rw [hm]; decide)) fun _ q s' _ hs' => ?_
    refine andThen_first (ih.operand hs') fun inner q' s'' _ hs'' => ?_
    have negation : b.build (.negation (q'.blame e us.head?) inner) = (b.build inner).andThen fun node =>
      b.ask (q'.blame e us.head?) (.operator .unaryMinus (some node) none) := rfl
    exact ask (fun _ => asks_plain hs'' _) negation (ih.operators hs'')
  · simp only [if_neg hm]
    exact andThen_first (ih.union hs) fun left q s' _ hs' => ih.operators hs'

theorem operators_succ (ih : InSteps b k) (hs : s.At e p) {left : Phrase} :
    InStep b e us s (b.build left) b.build (fun node => Parser.operators b (k + 1) limit node)
      (Rule.operators e (k + 1) us.head? limit left p) := by
  simp only [Parser.operators, Rule.operators]
  refine here ?_
  rw [hs.kind]
  cases hop : p.kind.operator? with
  | none => exact returned id hs (Work.andThen_done _).symm
  | some op =>
    dsimp only
    by_cases hc : op = .union ∨ op.precedence ≤ limit
    · simp only [if_pos hc]
      exact returned id hs (Work.andThen_done _).symm
    · simp only [if_neg hc]
      have notEnd : p.kind ≠ .eof := by
        intro h
        rw [h] at hop
        cases hop
      refine andThen_plain (.single left) (advance hs notEnd) fun _ q s' _ hs' => ?_
      refine andThen (.single left) (ih.operand hs') fun right q' s'' _ hs'' => ?_
      have binary : b.build (.binary (q'.blame e us.head?) op left right) =
          ((b.build left).andThen fun l => (b.build right).andThen fun r => Work.done (l, r)).andThen fun lr =>
            b.ask (q'.blame e us.head?) (.operator op (some lr.1) (some lr.2)) := by
        simp only [Builder.build, Work.andThen_assoc, Work.done_andThen]
      exact ask (fun _ => asks_plain hs'' _) binary (ih.operators hs'')

theorem union_succ (ih : InSteps b k) (hs : s.At e p) : InStep b e us s (Work.done ()) b.build
    (fun _ => Parser.union b (k + 1)) (Rule.union e (k + 1) us.head? p) := by
  simp only [Parser.union, Rule.union]
  exact andThen_first (ih.path hs) fun left q s' _ hs' => ih.members hs'

theorem members_succ (ih : InSteps b k) (hs : s.At e p) {left : Phrase} :
    InStep b e us s (b.build left) b.build (fun node => Parser.members b (k + 1) node)
      (Rule.members e (k + 1) us.head? left p) := by
  simp only [Parser.members, Rule.members]
  refine here ?_
  rw [hs.kind]
  by_cases hu : p.kind = .union
  · simp only [if_pos hu]
    refine andThen_plain (.single left) (advance hs (by rw [hu]; decide)) fun _ q s' _ hs' => ?_
    refine here ?_
    refine andThen (.single left) (ih.path hs') fun right q' s'' _ hs'' => ?_
    refine here ?_
    have window : (⟨s'.start, s''.before⟩ : Span) = ⟨(q.span e).start, q'.last⟩ := by
      rw [← hs'.span, hs''.last]
      rfl
    have binary : b.build (.binary ⟨(q.span e).start, q'.last⟩ .union left right) =
        ((b.build left).andThen fun l => (b.build right).andThen fun r => Work.done (l, r)).andThen fun lr =>
          b.ask ⟨(q.span e).start, q'.last⟩ (.operator .union (some lr.1) (some lr.2)) := by
      simp only [Builder.build, Work.andThen_assoc, Work.done_andThen]
    simp only [window]
    exact ask (fun _ => asks_within _ _) binary (ih.members hs'')
  · simp only [if_neg hu]
    exact returned id hs (Work.andThen_done _).symm

theorem path_succ (ih : InSteps b k) (hs : s.At e p) : InStep b e us s (Work.done ()) b.build
    (fun _ => Parser.path b (k + 1)) (Rule.path e (k + 1) us.head? p) := by
  simp only [Parser.path, Rule.path]
  refine here ?_
  rw [hs.startsPrimary]
  by_cases hp : p.startsPrimary = true
  · simp only [if_pos hp]
    refine andThen_first (ih.filter hs) fun node q s' _ hs' => ?_
    refine here ?_
    have window : (⟨s.start, s'.before⟩ : Span) = ⟨(p.span e).start, q.last⟩ := by
      rw [← hs.span, hs'.last]
      rfl
    simp only [window]
    exact within (ih.steps hs')
  · simp only [if_neg hp]
    exact ih.location hs

/-- What stands behind `//`: a step of its own, the path, and two joins. -/
theorem inside (ih : InSteps b k) (hs : s.At e p) (first : Phrase) : InStep b e us s (b.build first) b.build
    (fun node => Parser.whole b .descendantOrSelf >>= fun inside => Parser.relative b k >>= fun rest =>
      Reading.ask b (.join inside rest) >>= fun tail => Reading.ask b (.join node tail))
    ((Rule.relative e k us.head? p).andThen
      [first, Rule.wholeAxis (p.blame e us.head?) .descendantOrSelf] fun rest q =>
        .read (.join (q.blame e us.head?) first (.join (q.blame e us.head?)
          (Rule.wholeAxis (p.blame e us.head?) .descendantOrSelf) rest)) q) := by
  have step : b.build (Rule.wholeAxis (p.blame e us.head?) .descendantOrSelf) =
      b.ask (p.blame e us.head?) (.axis .descendantOrSelf .all none none) := rfl
  refine ask_beside (asks_whole hs .descendantOrSelf) step ?_
  refine andThen ((Builds.single first).append (.single _)) (ih.relative hs) fun rest q s' _ hs' => ?_
  have joins : ∀ (n i r : ν) (next : ν → Reading σ ν),
      ((Reading.ask b (.join i r) >>= fun tail => Reading.ask b (.join n tail)) >>= next).work s' us =
        ((b.ask (q.blame e us.head?) (.join i r)).andThen fun tail =>
          b.ask (q.blame e us.head?) (.join n tail)).andThen fun node => (next node).work s' us := by
    intro n i r next
    rw [Reading.bind_assoc, asks_plain hs', Work.andThen_assoc]
    simp only [asks_plain hs' _ _]
  refine built hs' (fun y next => joins y.1.1 y.1.2 y.2 next) ?_
  simp only [Builder.build, Work.andThen_assoc, Work.done_andThen]

theorem location_succ (ih : InSteps b k) (hs : s.At e p) : InStep b e us s (Work.done ()) b.build
    (fun _ => Parser.location b (k + 1)) (Rule.location e (k + 1) us.head? p) := by
  simp only [Parser.location]
  refine here ?_
  have root : ∀ blame : Span, b.build (Rule.wholeAxis blame .root) =
      (Work.done ()).andThen fun _ => b.ask blame (.axis .root .all none none) := fun _ => rfl
  by_cases hk : p.kind = .slash
  · simp only [Rule.location, hs.kind, hk]
    refine andThen_plain (.nil ()) (advance hs (by rw [hk]; decide)) fun _ q s' _ hs' => ?_
    refine ask (fun _ => asks_whole hs' .root) (root _) ?_
    refine here ?_
    rw [hs'.startsStep]
    by_cases hstep : q.startsStep = true
    · simp only [if_pos hstep]
      refine andThen (.single _) (ih.relative hs') fun rest q' s'' _ hs'' => ?_
      refine asked hs'' (fun _ => asks_plain hs'' _) ?_
      simp only [Builder.build, Work.andThen_assoc, Work.done_andThen]
    · simp only [if_neg hstep]
      exact returned id hs' (Work.andThen_done _).symm
  by_cases hkk : p.kind = .slashSlash
  · simp only [Rule.location, hs.kind, hkk]
    refine andThen_plain (.nil ()) (advance hs (by rw [hkk]; decide)) fun _ q s' _ hs' => ?_
    exact ask (fun _ => asks_whole hs' .root) (root _) (ih.inside hs' _)
  · rw [location_default hk hkk, hs.kind]
    split
    · next h => exact absurd h hk
    · next h => exact absurd h hkk
    · exact ih.relative hs

theorem relative_succ (ih : InSteps b k) (hs : s.At e p) : InStep b e us s (Work.done ()) b.build
    (fun _ => Parser.relative b (k + 1)) (Rule.relative e (k + 1) us.head? p) := by
  simp only [Parser.relative, Rule.relative]
  exact andThen_first (ih.step hs) fun first q s' _ hs' => ih.steps hs'

theorem steps_succ (ih : InSteps b k) (hs : s.At e p) {first : Phrase} :
    InStep b e us s (b.build first) b.build (fun node => Parser.steps b (k + 1) node)
      (Rule.steps e (k + 1) us.head? first p) := by
  simp only [Parser.steps]
  refine here ?_
  by_cases hk : p.kind = .slash
  · simp only [Rule.steps, hs.kind, hk]
    refine andThen_plain (.single first) (advance hs (by rw [hk]; decide)) fun _ q s' _ hs' => ?_
    refine andThen (.single first) (ih.relative hs') fun rest q' s'' _ hs'' => ?_
    refine asked hs'' (fun _ => asks_plain hs'' _) ?_
    simp only [Builder.build, Work.andThen_assoc, Work.done_andThen]
  by_cases hkk : p.kind = .slashSlash
  · simp only [Rule.steps, hs.kind, hkk]
    refine andThen_plain (.single first) (advance hs (by rw [hkk]; decide)) fun _ q s' _ hs' => ?_
    exact ih.inside hs' first
  · rw [steps_default hk hkk, hs.kind]
    split
    · next h => exact absurd h hk
    · next h => exact absurd h hkk
    · exact returned id hs (Work.andThen_done _).symm

theorem step_succ (ih : InSteps b k) (hs : s.At e p) : InStep b e us s (Work.done ()) b.build
    (fun _ => Parser.step b (k + 1)) (Rule.step e (k + 1) us.head? p) := by
  simp only [Parser.step]
  refine here ?_
  by_cases hd : p.kind = .dot
  · simp only [Rule.step, hs.kind, hd]
    exact dotted hs (by rw [hd]; decide) .dot .self
  by_cases hdd : p.kind = .dotDot
  · simp only [Rule.step, hs.kind, hdd]
    exact dotted hs (by rw [hdd]; decide) .dotDot .parent
  · rw [step_default hd hdd, hs.kind]
    split
    · next h => exact absurd h hd
    · next h => exact absurd h hdd
    · refine andThen_plain (.nil ()) (axisOf hs) fun axis q s' _ hs' => ?_
      exact andThen_first (nodeTest hs' axis) fun node q' s'' _ hs'' => ih.predicates hs''

theorem predicates_succ (ih : InSteps b k) (hs : s.At e p) {reverse : Bool} {node : Phrase} :
    InStep b e us s (b.build node) b.build (fun node => Parser.predicates b (k + 1) reverse node)
      (Rule.predicates e (k + 1) us.head? reverse node p) := by
  simp only [Parser.predicates, Rule.predicates]
  refine here ?_
  rw [hs.kind]
  by_cases hb : p.kind = .lbracket
  · simp only [if_pos hb]
    have passes : p.pass e .lbracket = p.advance e := by
      rw [Place.pass, Place.expect, if_pos hb, Outcome.andThen_read]
    rw [← passes]
    refine andThen_plain (.single node) (pass hs (by decide)) fun _ q s' _ hs' => ?_
    refine andThen (.single node) (ih.operand hs') fun condition q' s'' _ hs'' => ?_
    refine andThen_plain ((Builds.single node).append (.single condition)) (pass hs'' (by decide))
      fun _ q3 s3 _ hs3 => ?_
    have predicate : b.build (.predicate (q3.blame e us.head?) node condition reverse) =
        ((b.build node).andThen fun n => (b.build condition).andThen fun c => Work.done (n, c)).andThen
          fun nc => b.ask (q3.blame e us.head?) (.predicate nc.1 nc.2 reverse) := by
      simp only [Builder.build, Work.andThen_assoc, Work.done_andThen]
    exact ask (fun _ => asks_plain hs3 _) predicate (ih.predicates hs3)
  · simp only [if_neg hb]
    exact returned id hs (Work.andThen_done _).symm

theorem filter_succ (ih : InSteps b k) (hs : s.At e p) : InStep b e us s (Work.done ()) b.build
    (fun _ => Parser.filter b (k + 1)) (Rule.filter e (k + 1) us.head? p) := by
  simp only [Parser.filter, Rule.filter]
  refine here ?_
  refine andThen_first (ih.primary hs) fun node q s' _ hs' => ?_
  refine here ?_
  have window : (⟨s.start, s'.before⟩ : Span) = ⟨(p.span e).start, q.last⟩ := by
    rw [← hs.span, hs'.last]
    rfl
  simp only [window]
  exact within (ih.predicates hs')

theorem literal (hs : s.At e p) (hk : p.kind ≠ .eof) {phrase : Phrase} {call : Call ν}
    (hb : b.build phrase = b.ask (p.blame e us.head?) call) : InStep b e us s (Work.done ()) b.build
    (fun _ => Reading.ask b call >>= fun node => Reading.advance >>= fun _ => pure node)
    ((p.advance e).andThen [phrase] fun _ q => .read phrase q) := by
  refine ask (fun _ => asks_plain hs call) hb ?_
  refine andThen_plain (.single phrase) (advance hs hk) fun _ q s' _ hs' => ?_
  exact returned id hs' (Work.andThen_done _).symm

theorem variable_succ (hs : s.At e p) (hd : p.kind = .dollar) : InStep b e us s (Work.done ()) b.build
    (fun _ => Parser.primary b (k + 1)) (Rule.primary e (k + 1) us.head? p) := by
  simp only [Parser.primary]
  refine here ?_
  simp only [Rule.primary, hs.kind, hd]
  refine andThen_plain (.nil ()) (advance hs (by rw [hd]; decide)) fun _ q s' _ hs' => ?_
  refine andThen_plain (.nil ()) (check hs' .name) fun _ q' s'' ho hs'' => ?_
  obtain ⟨hname, rfl⟩ := expected ho
  refine here ?_
  have window : (⟨s.start, s''.stop⟩ : Span) = ⟨(p.span e).start, (q.span e).stop⟩ := by
    rw [← hs.span, ← hs''.span]
    rfl
  simp only [window, hs''.name]
  have node : b.build (.variable ⟨(p.span e).start, (q.span e).stop⟩ q.name.qualifier? q.name.base) =
      (Work.done ()).andThen fun _ => b.ask ⟨(p.span e).start, (q.span e).stop⟩
        (.variable q.name.qualifier? q.name.base) := rfl
  refine ask (fun _ => asks_within _ _) node ?_
  refine andThen_plain (.single _) (advance hs'' (by rw [hname]; decide)) fun _ q' s3 _ hs3 => ?_
  exact returned id hs3 (Work.andThen_done _).symm

/-- The arguments that are read end at the closing parenthesis. -/
theorem someArguments_kind {unit : Option Span} : ∀ {k : Nat} {p q : Place} {args : List Phrase},
    Rule.someArguments e k unit p = .read args q → q.kind = .rparen
  | 0, _, _, _, h => by cases h
  | k + 1, p, q, args, h => by
    rw [Rule.someArguments, Outcome.andThen_eq_read_iff] at h
    obtain ⟨arg, p', -, h⟩ := h
    by_cases hc : p'.kind = .comma
    · rw [if_pos hc, Outcome.andThen_eq_read_iff] at h
      obtain ⟨_, p'', -, h⟩ := h
      obtain ⟨more, p3, hmore, h⟩ := Outcome.andThen_eq_read_iff.1 h
      cases h
      exact someArguments_kind hmore
    · rw [if_neg hc, Outcome.andThen_eq_read_iff] at h
      obtain ⟨_, p'', hexpect, h⟩ := h
      obtain ⟨hr, rfl⟩ := expected hexpect
      cases h
      exact hr

theorem arguments_kind {unit : Option Span} {q : Place} {args : List Phrase} :
    ∀ {k : Nat}, Rule.arguments e k unit p = .read args q → q.kind = .rparen
  | 0, h => by cases h
  | k + 1, h => by
    rw [Rule.arguments] at h
    by_cases hr : p.kind = .rparen
    · rw [if_pos hr] at h
      cases h
      exact hr
    · rw [if_neg hr] at h
      exact someArguments_kind h

theorem call (ih : InSteps b k) (hs : s.At e p) : InStep b e us s (Work.done ()) b.build
    (fun _ => Reading.check .name >>= fun _ => Reading.pass .name >>= fun _ =>
      Reading.pass .lparen >>= fun _ => Parser.arguments b k >>= fun args =>
      Reading.advance >>= fun _ => Reading.here >>= fun s' =>
      Reading.within ⟨s.start, s'.before⟩ (Reading.ask b (.function s.name.qualifier? s.name.base args)))
    ((p.pass e .name).andThen [] fun _ q => (q.pass e .lparen).andThen [] fun _ q =>
      (Rule.arguments e k us.head? q).andThen [] fun args q => (q.advance e).andThen args fun _ q =>
      .read (.function ⟨(p.span e).start, q.last⟩ p.name.qualifier? p.name.base args) q) := by
  rw [check_pass]
  refine andThen_plain (.nil ()) (pass hs (by decide)) fun _ q1 s1 _ hs1 => ?_
  refine andThen_plain (.nil ()) (pass hs1 (by decide)) fun _ q2 s2 _ hs2 => ?_
  refine andThen_first (ih.arguments hs2) fun args q3 s3 ho hs3 => ?_
  have closed := arguments_kind ho
  refine andThen_plain (fun _ => rfl) (advance hs3 (by rw [closed]; decide)) fun _ q4 s4 _ hs4 => ?_
  refine here ?_
  have window : (⟨s.start, s4.before⟩ : Span) = ⟨(p.span e).start, q4.last⟩ := by
    rw [← hs.span, hs4.last]
    rfl
  simp only [window, hs.name]
  exact asked hs4 (fun _ => asks_within _ _) rfl

theorem primary_succ (ih : InSteps b k) (hs : s.At e p) : InStep b e us s (Work.done ()) b.build
    (fun _ => Parser.primary b (k + 1)) (Rule.primary e (k + 1) us.head? p) := by
  by_cases hd : p.kind = .dollar
  · exact variable_succ hs hd
  simp only [Parser.primary]
  refine here ?_
  by_cases hstring : p.kind = .string
  · simp only [Rule.primary, hs.kind, hstring, hs.content hstring]
    exact literal hs (by rw [hstring]; decide) rfl
  by_cases hnumber : p.kind = .number
  · simp only [Rule.primary, hs.kind, hnumber, hs.text]
    exact literal hs (by rw [hnumber]; decide) rfl
  by_cases hl : p.kind = .lparen
  · simp only [Rule.primary, hs.kind, hl]
    refine andThen_plain (.nil ()) (advance hs (by rw [hl]; decide)) fun _ q s' _ hs' => ?_
    refine andThen_first (ih.operand hs') fun inner q' s'' _ hs'' => ?_
    refine andThen_plain (.single inner) (pass hs'' (by decide)) fun _ q3 s3 _ hs3 => ?_
    exact returned id hs3 (Work.andThen_done _).symm
  · rw [primary_default hstring hnumber hd hl, hs.kind]
    split
    · next h => exact absurd h hstring
    · next h => exact absurd h hnumber
    · next h => exact absurd h hd
    · next h => exact absurd h hl
    · exact ih.call hs

theorem arguments_succ (ih : InSteps b k) (hs : s.At e p) : InStep b e us s (Work.done ()) b.buildAll
    (fun _ => Parser.arguments b (k + 1)) (Rule.arguments e (k + 1) us.head? p) := by
  simp only [Parser.arguments, Rule.arguments]
  refine here ?_
  rw [hs.kind]
  by_cases hr : p.kind = .rparen
  · simp only [if_pos hr]
    exact returned (fun _ => []) hs rfl
  · simp only [if_neg hr]
    exact ih.someArguments hs

theorem someArguments_succ (ih : InSteps b k) (hs : s.At e p) :
    InStep b e us s (Work.done ()) b.buildAll (fun _ => Parser.someArguments b (k + 1))
      (Rule.someArguments e (k + 1) us.head? p) := by
  simp only [Parser.someArguments, Rule.someArguments]
  refine andThen_first (ih.operand hs) fun arg q s' _ hs' => ?_
  refine here ?_
  rw [hs'.kind]
  by_cases hc : q.kind = .comma
  · simp only [if_pos hc]
    refine andThen_plain (.single arg) (advance hs' (by rw [hc]; decide)) fun _ q2 s2 _ hs2 => ?_
    refine andThen (.single arg) (ih.someArguments hs2) fun args q3 s3 _ hs3 => ?_
    refine returned (fun y : ν × List ν => y.1 :: y.2) hs3 ?_
    simp only [Builder.buildAll, Work.andThen_assoc, Work.done_andThen]
    rfl
  · simp only [if_neg hc]
    refine andThen_plain (.single arg) (check hs' .rparen) fun _ q2 s2 _ hs2 => ?_
    exact returned (fun node => [node]) hs2 rfl

theorem zero (b : Builder σ ν) : InSteps b 0 where
  operand hs := by
    simp only [Parser.operand, Rule.operand]
    exact unexpected (.nil ()) hs
  operators hs := by
    simp only [Parser.operators, Rule.operators]
    exact unexpected (.single _) hs
  union hs := unexpected (.nil ()) hs
  members hs := unexpected (.single _) hs
  path hs := unexpected (.nil ()) hs
  location hs := unexpected (.nil ()) hs
  relative hs := unexpected (.nil ()) hs
  steps hs := unexpected (.single _) hs
  step hs := unexpected (.nil ()) hs
  predicates hs := by
    simp only [Parser.predicates, Rule.predicates]
    exact unexpected (.single _) hs
  filter hs := unexpected (.nil ()) hs
  primary hs := unexpected (.nil ()) hs
  arguments hs := unexpected (.nil ()) hs
  someArguments hs := unexpected (.nil ()) hs

end InSteps

/-- All rules keep in step. -/
theorem inSteps {σ ν : Type} (b : Builder σ ν) : ∀ k, InSteps b k
  | 0 => .zero b
  | k + 1 =>
    have ih := inSteps b k
    { operand := ih.operand_succ
      operators hs := ih.operators_succ hs
      union := ih.union_succ
      members hs := ih.members_succ hs
      path := ih.path_succ
      location := ih.location_succ
      relative := ih.relative_succ
      steps hs := ih.steps_succ hs
      step := ih.step_succ
      predicates hs := ih.predicates_succ hs
      filter := ih.filter_succ
      primary := ih.primary_succ
      arguments := ih.arguments_succ
      someArguments := ih.someArguments_succ }

end StylesheetReversal.Path
