import StylesheetReversal.Proofs.Path.PrimaryRules
import StylesheetReversal.Proofs.Path.Tree
/-!
# Lexemes that are moved

The rules of the grammar look at the kinds and the characters of lexemes.  Where the lexemes stand is only handed on,
into the windows of phrases and faults.  So when all positions are changed alike, whatever the change, a rule reads the
same phrases and finds the same faults, with the positions changed (`Rule.Moves`, `moves`).
-/
namespace StylesheetReversal.Path

/-! ## Moving -/

variable (f : Nat → Nat)

def Span.moved (s : Span) : Span := ⟨f s.start, f s.stop⟩

def Lexeme.moved (l : Lexeme) : Lexeme := ⟨l.kind, l.span.moved f, l.text⟩

def Fault.moved (x : Fault) : Fault := ⟨x.cause, x.span.moved f⟩

def Ending.moved : Ending → Ending
  | .atEnd n => .atEnd (f n)
  | .faulty x => .faulty (x.moved f)

def Place.moved (p : Place) : Place := ⟨f p.last, p.ahead.map (Lexeme.moved f)⟩

mutual

/-- The phrase with other windows. -/
def Phrase.moved : Phrase → Phrase
  | .string blame value => .string (blame.moved f) value
  | .number blame text => .number (blame.moved f) text
  | .binary blame op left right => .binary (blame.moved f) op left.moved right.moved
  | .negation blame inner => .negation (blame.moved f) inner.moved
  | .axis blame along kind qualifier name => .axis (blame.moved f) along kind qualifier name
  | .join blame left right => .join (blame.moved f) left.moved right.moved
  | .predicate blame node condition reverse => .predicate (blame.moved f) node.moved condition.moved reverse
  | .variable blame qualifier name => .variable (blame.moved f) qualifier name
  | .function blame qualifier name args => .function (blame.moved f) qualifier name (Phrase.movedAll args)

def Phrase.movedAll : List Phrase → List Phrase
  | [] => []
  | p :: ps => p.moved :: Phrase.movedAll ps

end

/-- What a reading comes to with other windows; `m` moves what is read. -/
def Outcome.moved {α : Type} (m : α → α) : Outcome α → Outcome α
  | .read a p => .read (m a) (p.moved f)
  | .broken done x => .broken (Phrase.movedAll f done) (x.moved f)

mutual

/-- The windows of a phrase do not show in its tree. -/
theorem Phrase.expr_moved : ∀ p : Phrase, (p.moved f).expr = p.expr
  | .string .. | .number .. | .axis .. | .variable .. => rfl
  | .binary _ _ left right => by rw [moved, expr, expr, expr_moved left, expr_moved right]
  | .negation _ inner => by rw [moved, expr, expr, expr_moved inner]
  | .join _ left right => by rw [moved, expr, expr, expr_moved left, expr_moved right]
  | .predicate _ node condition _ => by rw [moved, expr, expr, expr_moved node, expr_moved condition]
  | .function _ _ _ args => by rw [moved, expr, expr, exprs_moved args]

theorem Phrase.exprs_moved : ∀ ps : List Phrase, exprs (movedAll f ps) = exprs ps
  | [] => rfl
  | p :: ps => by rw [movedAll, exprs, exprs, expr_moved p, exprs_moved ps]

end

theorem Phrase.movedAll_append : ∀ ps qs : List Phrase, movedAll f (ps ++ qs) = movedAll f ps ++ movedAll f qs
  | [], qs => rfl
  | p :: ps, qs => by rw [List.cons_append, movedAll, movedAll, movedAll_append ps qs, List.cons_append]

/-! ## Places -/

namespace Place

variable (e : Ending) (p : Place)

@[simp] theorem kind_moved : (p.moved f).kind = p.kind := by
  obtain ⟨last, _ | ⟨l, ls⟩⟩ := p <;> rfl

@[simp] theorem kindAfter_moved : (p.moved f).kindAfter = p.kindAfter := by
  obtain ⟨last, _ | ⟨l, _ | ⟨l', ls⟩⟩⟩ := p <;> rfl

@[simp] theorem text_moved : (p.moved f).text = p.text := by
  obtain ⟨last, _ | ⟨l, ls⟩⟩ := p <;> rfl

@[simp] theorem found_moved : (p.moved f).found = p.found := by
  obtain ⟨last, _ | ⟨l, ls⟩⟩ := p <;> rfl

@[simp] theorem name_moved : (p.moved f).name = p.name := by
  rw [name, text_moved, name]

@[simp] theorem content_moved : (p.moved f).content = p.content := by
  rw [content, text_moved, content]

@[simp] theorem namesNodeType_moved : (p.moved f).namesNodeType = p.namesNodeType := by
  rw [namesNodeType, name_moved, namesNodeType]

@[simp] theorem isCall_moved : (p.moved f).isCall = p.isCall := by
  rw [isCall, kind_moved, name_moved, kindAfter_moved, isCall]

@[simp] theorem startsStep_moved : (p.moved f).startsStep = p.startsStep := by
  rw [startsStep, kind_moved, startsStep]

@[simp] theorem startsPrimary_moved : (p.moved f).startsPrimary = p.startsPrimary := by
  rw [startsPrimary, kind_moved, isCall_moved, namesNodeType_moved, startsPrimary]

@[simp] theorem span_moved : (p.moved f).span (e.moved f) = (p.span e).moved f := by
  obtain ⟨last, _ | ⟨l, ls⟩⟩ := p
  · cases e <;> rfl
  · rfl

@[simp] theorem blame_moved (unit : Option Span) :
    (p.moved f).blame (e.moved f) (unit.map (Span.moved f)) = (p.blame e unit).moved f := by
  cases unit with
  | none => exact span_moved f e p
  | some window => rfl

end Place

/-! ## Putting readings together -/

namespace Outcome

variable {f} {α β : Type} {m : α → α} {m' : β → β}

/-- Readings that follow one another are moved one by one. -/
theorem moved_andThen {o o' : Outcome α} {held held' : List Phrase} {next next' : α → Place → Outcome β}
    (h : o.moved f m = o') (hheld : Phrase.movedAll f held = held')
    (hnext : ∀ a q, (next a q).moved f m' = next' (m a) (q.moved f)) :
    (o.andThen held next).moved f m' = o'.andThen held' next' := by
  subst h hheld
  cases o with
  | read a q => exact hnext a q
  | broken done x => simp only [andThen_broken, moved, Phrase.movedAll_append]

end Outcome

namespace Place

variable (e : Ending) (p : Place) {α : Type} (m : α → α)

theorem moved_fault (cause : Cause) :
    (p.fault e cause : Outcome α).moved f m = (p.moved f).fault (e.moved f) cause := by
  rw [fault, Outcome.moved, fault, span_moved]
  rfl

theorem moved_advance : (p.advance e).moved f id = (p.moved f).advance (e.moved f) := by
  obtain ⟨last, _ | ⟨l, _ | ⟨l', ls⟩⟩⟩ := p
  · rfl
  · cases e <;> rfl
  · rfl

theorem moved_expect (expected : Kind) : (p.expect e expected).moved f id = (p.moved f).expect (e.moved f) expected := by
  simp only [expect, kind_moved, found_moved]
  split
  · rfl
  · split <;> exact moved_fault f e p id _

theorem moved_pass (expected : Kind) : (p.pass e expected).moved f id = (p.moved f).pass (e.moved f) expected :=
  Outcome.moved_andThen (moved_expect f e p expected) rfl fun _ q => moved_advance f e q

end Place

/-! ## The rules -/

namespace Rule

open Outcome Place
open RuleSpecs (test_default axisOf_implied axisOf_default step_default location_default steps_default primary_default)

variable {f} (e : Ending) (p : Place)

theorem moved_target (kind : NodeKind) : (target e kind p).moved f id = target (e.moved f) kind (p.moved f) := by
  simp only [target, kind_moved]
  split
  · refine moved_andThen (moved_expect f e p _) rfl fun _ p => ?_
    refine moved_andThen (moved_advance f e p) rfl fun _ q => ?_
    rw [content_moved]
    rfl
  · rfl

theorem moved_test (axis : Axis) : (test e axis p).moved f id = test (e.moved f) axis (p.moved f) := by
  by_cases hn : p.kind = .name
  · simp only [test, kind_moved, isCall_moved, namesNodeType_moved, name_moved, hn]
    split
    · refine moved_andThen (moved_advance f e p) rfl fun _ p => ?_
      refine moved_andThen (moved_pass f e p _) rfl fun _ p => ?_
      refine moved_andThen (moved_target e p _) rfl fun name p => ?_
      exact moved_andThen (moved_pass f e p _) rfl fun _ p => rfl
    · exact moved_andThen (moved_advance f e p) rfl fun _ q => rfl
  by_cases hs : p.kind = .star
  · simp only [test, kind_moved, hs]
    exact moved_andThen (moved_advance f e p) rfl fun _ q => rfl
  · rw [test_default hn hs, test_default (by rwa [kind_moved]) (by rwa [kind_moved]), found_moved]
    exact moved_fault f e p id _

theorem moved_nodeTest (axis : Axis) :
    (nodeTest e axis p).moved f (Phrase.moved f) = nodeTest (e.moved f) axis (p.moved f) := by
  refine moved_andThen (moved_test e p axis) rfl fun t q => ?_
  rw [span_moved]
  rfl

theorem moved_axisOf : (axisOf e p).moved f id = axisOf (e.moved f) (p.moved f) := by
  by_cases ha : p.kind = .axis
  · simp only [axisOf, kind_moved, name_moved, found_moved, ha]
    cases Axis.ofName? p.name.base with
    | none => exact moved_fault f e p id _
    | some axis =>
      refine moved_andThen (moved_advance f e p) rfl fun _ p => ?_
      exact moved_andThen (moved_pass f e p _) rfl fun _ p => rfl
  by_cases hat : p.kind = .at
  · simp only [axisOf, kind_moved, hat]
    exact moved_andThen (moved_advance f e p) rfl fun _ p => rfl
  by_cases hi : p.kind = .name ∨ p.kind = .star
  · rw [axisOf_implied hi, axisOf_implied (by rwa [kind_moved])]
    rfl
  · obtain ⟨hn, hs⟩ := not_or.1 hi
    rw [axisOf_default ha hat hn hs, axisOf_default (by rwa [kind_moved]) (by rwa [kind_moved]) (by rwa [kind_moved])
      (by rwa [kind_moved]), found_moved]
    exact moved_fault f e p id _

theorem moved_dotted (unit : Option Span) (step : DottedStep) (axis : Axis) :
    (dotted e unit step axis p).moved f (Phrase.moved f) =
      dotted (e.moved f) (unit.map (Span.moved f)) step axis (p.moved f) := by
  refine moved_andThen (moved_advance f e p) rfl fun _ p => ?_
  simp only [kind_moved, blame_moved, span_moved]
  split <;> rfl

variable (f)

/-- All rules, as far as this fuel takes them, read the same from lexemes that are moved. -/
structure Moves (k : Nat) : Prop where
  operand : ∀ {e unit limit p}, (Rule.operand e k unit limit p).moved f (Phrase.moved f) =
    Rule.operand (e.moved f) k (unit.map (Span.moved f)) limit (p.moved f)
  operators : ∀ {e unit limit left p}, (Rule.operators e k unit limit left p).moved f (Phrase.moved f) =
    Rule.operators (e.moved f) k (unit.map (Span.moved f)) limit (left.moved f) (p.moved f)
  union : ∀ {e unit p}, (Rule.union e k unit p).moved f (Phrase.moved f) =
    Rule.union (e.moved f) k (unit.map (Span.moved f)) (p.moved f)
  members : ∀ {e unit left p}, (Rule.members e k unit left p).moved f (Phrase.moved f) =
    Rule.members (e.moved f) k (unit.map (Span.moved f)) (left.moved f) (p.moved f)
  path : ∀ {e unit p}, (Rule.path e k unit p).moved f (Phrase.moved f) =
    Rule.path (e.moved f) k (unit.map (Span.moved f)) (p.moved f)
  location : ∀ {e unit p}, (Rule.location e k unit p).moved f (Phrase.moved f) =
    Rule.location (e.moved f) k (unit.map (Span.moved f)) (p.moved f)
  relative : ∀ {e unit p}, (Rule.relative e k unit p).moved f (Phrase.moved f) =
    Rule.relative (e.moved f) k (unit.map (Span.moved f)) (p.moved f)
  steps : ∀ {e unit first p}, (Rule.steps e k unit first p).moved f (Phrase.moved f) =
    Rule.steps (e.moved f) k (unit.map (Span.moved f)) (first.moved f) (p.moved f)
  step : ∀ {e unit p}, (Rule.step e k unit p).moved f (Phrase.moved f) =
    Rule.step (e.moved f) k (unit.map (Span.moved f)) (p.moved f)
  predicates : ∀ {e unit reverse node p}, (Rule.predicates e k unit reverse node p).moved f (Phrase.moved f) =
    Rule.predicates (e.moved f) k (unit.map (Span.moved f)) reverse (node.moved f) (p.moved f)
  filter : ∀ {e unit p}, (Rule.filter e k unit p).moved f (Phrase.moved f) =
    Rule.filter (e.moved f) k (unit.map (Span.moved f)) (p.moved f)
  primary : ∀ {e unit p}, (Rule.primary e k unit p).moved f (Phrase.moved f) =
    Rule.primary (e.moved f) k (unit.map (Span.moved f)) (p.moved f)
  arguments : ∀ {e unit p}, (Rule.arguments e k unit p).moved f (Phrase.movedAll f) =
    Rule.arguments (e.moved f) k (unit.map (Span.moved f)) (p.moved f)
  someArguments : ∀ {e unit p}, (Rule.someArguments e k unit p).moved f (Phrase.movedAll f) =
    Rule.someArguments (e.moved f) k (unit.map (Span.moved f)) (p.moved f)

variable {f}

namespace Moves

variable {e p} {k : Nat} {unit : Option Span} (ih : Moves f k)

include ih

theorem operand_succ {limit : Nat} : (Rule.operand e (k + 1) unit limit p).moved f (Phrase.moved f) =
    Rule.operand (e.moved f) (k + 1) (unit.map (Span.moved f)) limit (p.moved f) := by
  simp only [Rule.operand, kind_moved]
  split
  · refine moved_andThen (moved_advance f e p) rfl fun _ p => ?_
    refine moved_andThen ih.operand rfl fun inner p => ?_
    rw [ih.operators, blame_moved]
    rfl
  · exact moved_andThen ih.union rfl fun left p => ih.operators

theorem operators_succ {limit : Nat} {left : Phrase} :
    (Rule.operators e (k + 1) unit limit left p).moved f (Phrase.moved f) =
      Rule.operators (e.moved f) (k + 1) (unit.map (Span.moved f)) limit (left.moved f) (p.moved f) := by
  simp only [Rule.operators, kind_moved]
  cases p.kind.operator? with
  | none => rfl
  | some op =>
    dsimp only
    split
    · rfl
    · refine moved_andThen (moved_advance f e p) rfl fun _ p => ?_
      refine moved_andThen ih.operand rfl fun right p => ?_
      rw [ih.operators, blame_moved]
      rfl

theorem union_succ : (Rule.union e (k + 1) unit p).moved f (Phrase.moved f) =
    Rule.union (e.moved f) (k + 1) (unit.map (Span.moved f)) (p.moved f) := by
  simp only [Rule.union]
  exact moved_andThen ih.path rfl fun left p => ih.members

theorem members_succ {left : Phrase} : (Rule.members e (k + 1) unit left p).moved f (Phrase.moved f) =
    Rule.members (e.moved f) (k + 1) (unit.map (Span.moved f)) (left.moved f) (p.moved f) := by
  simp only [Rule.members, kind_moved]
  split
  · refine moved_andThen (moved_advance f e p) rfl fun _ p => ?_
    refine moved_andThen ih.path rfl fun right q => ?_
    rw [ih.members, span_moved]
    rfl
  · rfl

theorem path_succ : (Rule.path e (k + 1) unit p).moved f (Phrase.moved f) =
    Rule.path (e.moved f) (k + 1) (unit.map (Span.moved f)) (p.moved f) := by
  simp only [Rule.path, startsPrimary_moved]
  split
  · refine moved_andThen ih.filter rfl fun node q => ?_
    rw [ih.steps, span_moved]
    rfl
  · exact ih.location

theorem location_succ : (Rule.location e (k + 1) unit p).moved f (Phrase.moved f) =
    Rule.location (e.moved f) (k + 1) (unit.map (Span.moved f)) (p.moved f) := by
  by_cases hs : p.kind = .slash
  · simp only [Rule.location, kind_moved, hs]
    refine moved_andThen (moved_advance f e p) rfl fun _ p => ?_
    simp only [startsStep_moved, blame_moved]
    split
    · refine moved_andThen ih.relative rfl fun rest p => ?_
      rw [blame_moved]
      rfl
    · rfl
  by_cases hss : p.kind = .slashSlash
  · simp only [Rule.location, kind_moved, hss]
    refine moved_andThen (moved_advance f e p) rfl fun _ p => ?_
    simp only [blame_moved]
    refine moved_andThen ih.relative rfl fun rest p => ?_
    rw [blame_moved]
    rfl
  · rw [location_default hs hss, location_default (by rwa [kind_moved]) (by rwa [kind_moved])]
    exact ih.relative

theorem relative_succ : (Rule.relative e (k + 1) unit p).moved f (Phrase.moved f) =
    Rule.relative (e.moved f) (k + 1) (unit.map (Span.moved f)) (p.moved f) := by
  simp only [Rule.relative]
  exact moved_andThen ih.step rfl fun first p => ih.steps

theorem steps_succ {first : Phrase} : (Rule.steps e (k + 1) unit first p).moved f (Phrase.moved f) =
    Rule.steps (e.moved f) (k + 1) (unit.map (Span.moved f)) (first.moved f) (p.moved f) := by
  by_cases hs : p.kind = .slash
  · simp only [Rule.steps, kind_moved, hs]
    refine moved_andThen (moved_advance f e p) rfl fun _ p => ?_
    refine moved_andThen ih.relative rfl fun rest p => ?_
    rw [blame_moved]
    rfl
  by_cases hss : p.kind = .slashSlash
  · simp only [Rule.steps, kind_moved, hss]
    refine moved_andThen (moved_advance f e p) rfl fun _ p => ?_
    simp only [blame_moved]
    refine moved_andThen ih.relative rfl fun rest p => ?_
    rw [blame_moved]
    rfl
  · rw [steps_default hs hss, steps_default (by rwa [kind_moved]) (by rwa [kind_moved])]
    rfl

theorem step_succ : (Rule.step e (k + 1) unit p).moved f (Phrase.moved f) =
    Rule.step (e.moved f) (k + 1) (unit.map (Span.moved f)) (p.moved f) := by
  by_cases hd : p.kind = .dot
  · simp only [Rule.step, kind_moved, hd]
    exact moved_dotted e p unit _ _
  by_cases hdd : p.kind = .dotDot
  · simp only [Rule.step, kind_moved, hdd]
    exact moved_dotted e p unit _ _
  · rw [step_default hd hdd, step_default (by rwa [kind_moved]) (by rwa [kind_moved])]
    refine moved_andThen (moved_axisOf e p) rfl fun axis p => ?_
    exact moved_andThen (moved_nodeTest e p axis) rfl fun node p => ih.predicates

theorem predicates_succ {reverse : Bool} {node : Phrase} :
    (Rule.predicates e (k + 1) unit reverse node p).moved f (Phrase.moved f) =
      Rule.predicates (e.moved f) (k + 1) (unit.map (Span.moved f)) reverse (node.moved f) (p.moved f) := by
  simp only [Rule.predicates, kind_moved]
  split
  · refine moved_andThen (moved_advance f e p) rfl fun _ p => ?_
    refine moved_andThen ih.operand rfl fun condition p => ?_
    refine moved_andThen (moved_pass f e p _) rfl fun _ p => ?_
    rw [ih.predicates, blame_moved]
    rfl
  · rfl

theorem filter_succ : (Rule.filter e (k + 1) unit p).moved f (Phrase.moved f) =
    Rule.filter (e.moved f) (k + 1) (unit.map (Span.moved f)) (p.moved f) := by
  simp only [Rule.filter]
  refine moved_andThen ih.primary rfl fun node q => ?_
  rw [ih.predicates, span_moved]
  rfl

theorem primary_succ : (Rule.primary e (k + 1) unit p).moved f (Phrase.moved f) =
    Rule.primary (e.moved f) (k + 1) (unit.map (Span.moved f)) (p.moved f) := by
  by_cases hs : p.kind = .string
  · simp only [Rule.primary, kind_moved, hs, blame_moved, content_moved]
    exact moved_andThen (moved_advance f e p) rfl fun _ p => rfl
  by_cases hn : p.kind = .number
  · simp only [Rule.primary, kind_moved, hn, blame_moved, text_moved]
    exact moved_andThen (moved_advance f e p) rfl fun _ p => rfl
  by_cases hd : p.kind = .dollar
  · simp only [Rule.primary, kind_moved, hd]
    refine moved_andThen (moved_advance f e p) rfl fun _ q => ?_
    refine moved_andThen (moved_expect f e q _) rfl fun _ q => ?_
    simp only [span_moved, name_moved]
    exact moved_andThen (moved_advance f e q) rfl fun _ q => rfl
  by_cases hl : p.kind = .lparen
  · simp only [Rule.primary, kind_moved, hl]
    refine moved_andThen (moved_advance f e p) rfl fun _ p => ?_
    refine moved_andThen ih.operand rfl fun inner p => ?_
    exact moved_andThen (moved_pass f e p _) rfl fun _ p => rfl
  · rw [primary_default hs hn hd hl, primary_default (by rwa [kind_moved]) (by rwa [kind_moved]) (by rwa [kind_moved])
      (by rwa [kind_moved])]
    refine moved_andThen (moved_pass f e p _) rfl fun _ q => ?_
    refine moved_andThen (moved_pass f e q _) rfl fun _ q => ?_
    refine moved_andThen ih.arguments rfl fun args q => ?_
    refine moved_andThen (moved_advance f e q) rfl fun _ q => ?_
    rw [span_moved, name_moved]
    rfl

theorem arguments_succ : (Rule.arguments e (k + 1) unit p).moved f (Phrase.movedAll f) =
    Rule.arguments (e.moved f) (k + 1) (unit.map (Span.moved f)) (p.moved f) := by
  simp only [Rule.arguments, kind_moved]
  split
  · rfl
  · exact ih.someArguments

theorem someArguments_succ : (Rule.someArguments e (k + 1) unit p).moved f (Phrase.movedAll f) =
    Rule.someArguments (e.moved f) (k + 1) (unit.map (Span.moved f)) (p.moved f) := by
  simp only [Rule.someArguments]
  refine moved_andThen ih.operand rfl fun arg p => ?_
  simp only [kind_moved]
  split
  · refine moved_andThen (moved_advance f e p) rfl fun _ p => ?_
    exact moved_andThen ih.someArguments rfl fun args p => rfl
  · exact moved_andThen (moved_expect f e p _) rfl fun _ p => rfl

end Moves

theorem Moves.zero (f : Nat → Nat) : Moves f 0 := by
  constructor <;> intros <;>
    simp only [Rule.operand, Rule.operators, Rule.union, Rule.members, Rule.path, Rule.location, Rule.relative, Rule.steps,
      Rule.step, Rule.predicates, Rule.filter, Rule.primary, Rule.arguments, Rule.someArguments, Place.fault, Outcome.moved,
      Fault.moved, found_moved, span_moved] <;>
    rfl

/-- **Moving the lexemes moves the windows**, and changes nothing else. -/
theorem moves (f : Nat → Nat) : ∀ k, Moves f k
  | 0 => .zero f
  | k + 1 =>
    have ih := moves f k
    { operand := ih.operand_succ
      operators := ih.operators_succ
      union := ih.union_succ
      members := ih.members_succ
      path := ih.path_succ
      location := ih.location_succ
      relative := ih.relative_succ
      steps := ih.steps_succ
      step := ih.step_succ
      predicates := ih.predicates_succ
      filter := ih.filter_succ
      primary := ih.primary_succ
      arguments := ih.arguments_succ
      someArguments := ih.someArguments_succ }

end Rule

/-- A scan with other windows. -/
def Scan.moved (s : Scan) : Scan := ⟨s.lexemes.map (Lexeme.moved f), s.ending.moved f⟩

/-- **What is read from a scan that is moved** is what is read from the scan, moved. -/
theorem Phrase.ofScan_moved (last : Nat) (s : Scan) :
    (Phrase.ofScan last s).moved f (Phrase.moved f) = Phrase.ofScan (f last) (s.moved f) := by
  obtain ⟨ls, e⟩ := s
  have rest : ∀ ls : List Lexeme, ((Rule.operand e (Rule.fuel ls.length) none 0 ⟨last, ls⟩).andThen []
      fun phrase p => (p.expect e .eof).andThen [phrase] fun _ p => .read phrase p).moved f (Phrase.moved f) =
      (Rule.operand (e.moved f) (Rule.fuel (ls.map (Lexeme.moved f)).length) none 0
        ⟨f last, ls.map (Lexeme.moved f)⟩).andThen []
      fun phrase p => (p.expect (e.moved f) .eof).andThen [phrase] fun _ p => .read phrase p := by
    intro ls
    rw [List.length_map]
    refine Outcome.moved_andThen (Rule.moves f _).operand rfl fun phrase p => ?_
    exact Outcome.moved_andThen (Place.moved_expect f e p .eof) rfl fun _ p => rfl
  cases ls with
  | cons l ls => exact rest (l :: ls)
  | nil =>
    cases e with
    | atEnd n => exact rest []
    | faulty x => rfl

end StylesheetReversal.Path
