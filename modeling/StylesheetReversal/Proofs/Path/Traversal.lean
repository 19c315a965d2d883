import StylesheetReversal.Proofs.Path.TwoPasses
/-!
# What a builder is asked for

A builder that is given a text with a tree is asked for the nodes of that tree, operands first and from
left to right, until it refuses one (`Builder.parse_visits`).  Its calls are seen by a ghost beside its
state (`Builder.traced`), which makes no difference to anything else.
-/
namespace StylesheetReversal.Path

variable {σ ν α β : Type}

/-! ## Tracing -/

/-- What a builder is told. -/
inductive Event (ν : Type)
  | start
  | call (c : Call ν)
  | finish (result : Option ν)
  deriving DecidableEq, Repr

namespace Builder

/-- The builder, which writes down what it is told. -/
def traced (b : Builder σ ν) : Builder (σ × List (Event ν)) ν where
  start d := (b.start d.1, d.2 ++ [.start])
  construct c d := ((b.construct c d.1).1, (b.construct c d.1).2, d.2 ++ [.call c])
  finish result d := ((b.finish result d.1).1, (b.finish result d.1).2, d.2 ++ [.finish result])

/-- One piece of work does what another does, and writes something down. -/
def Traces (w : Work (σ × List (Event ν)) α) (v : Work σ α) : Prop :=
  ∀ s log, ∃ events, w (s, log) = ((v s).1, (v s).2, log ++ events)

theorem Traces.andThen {w : Work (σ × List (Event ν)) α} {v : Work σ α}
    {next : α → Work (σ × List (Event ν)) β} {next' : α → Work σ β} (h : Traces w v)
    (hn : ∀ a, Traces (next a) (next' a)) : Traces (w.andThen next) (v.andThen next') := by
  intro s log
  obtain ⟨events, hw⟩ := h s log
  unfold Work.andThen
  rw [hw]
  obtain ⟨result, s'⟩ := v s
  cases result with
  | error f => exact ⟨events, rfl⟩
  | ok a =>
    obtain ⟨more, hm⟩ := hn a s' (log ++ events)
    refine ⟨events ++ more, ?_⟩
    rw [← List.append_assoc]
    exact hm

theorem traces_done (result : Except Fault α) :
    Traces (ν := ν) (fun d => (result, d)) (fun s : σ => (result, s)) := by
  intro s log
  exact ⟨[], by rw [List.append_nil]⟩

variable (b : Builder σ ν)

theorem traces_ask (blame : Span) (c : Call ν) : Traces (b.traced.ask blame c) (b.ask blame c) := by
  intro s log
  refine ⟨[.call c], ?_⟩
  unfold ask traced
  dsimp only
  cases b.construct c s with
  | mk result s' => cases result <;> rfl

mutual

theorem traces_build : ∀ p : Phrase, Traces (b.traced.build p) (b.build p)
  | .string .. | .number .. | .axis .. | .variable .. => traces_ask b _ _
  | .binary _ _ left right | .join _ left right | .predicate _ left right _ =>
    (traces_build left).andThen fun _ => (traces_build right).andThen fun _ => traces_ask b _ _
  | .negation _ inner => (traces_build inner).andThen fun _ => traces_ask b _ _
  | .function _ _ _ args => (traces_buildAll args).andThen fun _ => traces_ask b _ _

theorem traces_buildAll : ∀ ps : List Phrase, Traces (b.traced.buildAll ps) (b.buildAll ps)
  | [] => traces_done _
  | p :: ps =>
    (traces_build p).andThen fun _ => (traces_buildAll ps).andThen fun _ => traces_done _

end

theorem traces_buildOutcome (o : Outcome Phrase) : Traces (b.traced.buildOutcome o) (b.buildOutcome o) := by
  cases o with
  | read phrase q => exact traces_build b phrase
  | broken complete fault => exact (traces_buildAll b complete).andThen fun _ => traces_done _

/-- **Tracing makes no difference**, whether the text is an expression or not. -/
theorem parse_traced (text : String) (start : Nat) (s : σ) (log : List (Event ν)) :
    ∃ events, b.traced.parse text start (s, log) =
      ((b.parse text start s).1, (b.parse text start s).2, log ++ events) := by
  obtain ⟨events, h⟩ := traces_buildOutcome b (Phrase.ofText text start) (b.start s) (log ++ [.start])
  have started : b.traced.start (s, log) = (b.start s, log ++ [.start]) := rfl
  rw [parse_eq, parse_eq, started, h]
  obtain ⟨result, s'⟩ := b.buildOutcome (Phrase.ofText text start) (b.start s)
  cases result with
  | error f =>
    refine ⟨.start :: (events ++ [.finish none]), ?_⟩
    simp only [traced, List.append_assoc, List.cons_append, List.nil_append]
  | ok node =>
    refine ⟨.start :: (events ++ [.finish (some node)]), ?_⟩
    simp only [traced, List.append_assoc, List.cons_append, List.nil_append]
    obtain ⟨left, s''⟩ := b.finish (some node) s'
    cases left <;> rfl

end Builder

/-! ## Visiting a tree -/

/-- What a visit comes to: the calls that were made, and the answer and the state after the last of
them. -/
structure Visit (σ ν α : Type) where
  calls : List (Call ν)
  answer : Except String α
  state : σ

/-- Goes on with an answer; a refusal ends the visit. -/
def Visit.andThen (v : Visit σ ν α) (next : α → σ → Visit σ ν β) : Visit σ ν β :=
  match v.answer with
  | .ok a =>
    let w := next a v.state
    ⟨v.calls ++ w.calls, w.answer, w.state⟩
  | .error reason => ⟨v.calls, .error reason, v.state⟩

/-- Makes one call. -/
def Builder.call (b : Builder σ ν) (c : Call ν) (s : σ) : Visit σ ν ν :=
  ⟨[c], (b.construct c s).1, (b.construct c s).2⟩

mutual

/-- Visits a tree: its parts from left to right, and then the call with what is stored in the tree and
the nodes that the builder gave for the parts. -/
def Builder.visit (b : Builder σ ν) : Expr → σ → Visit σ ν ν
  | .string value, s => b.call (.string value) s
  | .number text, s => b.call (.number text) s
  | .operator op left right, s =>
    (b.visitOperand left s).andThen fun left s => (b.visitOperand right s).andThen fun right s =>
      b.call (.operator op left right) s
  | .axis axis kind qualifier name, s => b.call (.axis axis kind qualifier name) s
  | .join left right, s =>
    (b.visit left s).andThen fun left s => (b.visit right s).andThen fun right s => b.call (.join left right) s
  | .predicate node condition reverse, s =>
    (b.visit node s).andThen fun node s => (b.visit condition s).andThen fun condition s =>
      b.call (.predicate node condition reverse) s
  | .variable qualifier name, s => b.call (.variable qualifier name) s
  | .function qualifier name args, s =>
    (b.visitAll args s).andThen fun args s => b.call (.function qualifier name args) s

def Builder.visitOperand (b : Builder σ ν) : Option Expr → σ → Visit σ ν (Option ν)
  | none, s => ⟨[], .ok none, s⟩
  | some t, s => (b.visit t s).andThen fun node s => ⟨[], .ok (some node), s⟩

def Builder.visitAll (b : Builder σ ν) : List Expr → σ → Visit σ ν (List ν)
  | [], s => ⟨[], .ok [], s⟩
  | t :: ts, s =>
    (b.visit t s).andThen fun node s => (b.visitAll ts s).andThen fun nodes s => ⟨[], .ok (node :: nodes), s⟩

end

namespace Visit

variable {γ : Type}

theorem andThen_assoc (v : Visit σ ν α) (f : α → σ → Visit σ ν β) (g : β → σ → Visit σ ν γ) :
    (v.andThen f).andThen g = v.andThen fun a s => (f a s).andThen g := by
  obtain ⟨calls, answer, s⟩ := v
  cases answer with
  | error reason => rfl
  | ok a =>
    simp only [andThen]
    cases (f a s).answer with
    | error reason => rfl
    | ok c => simp only [List.append_assoc]

theorem visitOperand_some (b : Builder σ ν) (t : Expr) (s : σ) (next : Option ν → σ → Visit σ ν β) :
    (b.visitOperand (some t) s).andThen next = (b.visit t s).andThen fun node s => next (some node) s := by
  rw [Builder.visitOperand, andThen_assoc]
  rfl

theorem visitOperand_none (b : Builder σ ν) (s : σ) (next : Option ν → σ → Visit σ ν β) :
    (b.visitOperand none s).andThen next = next none s := by
  rw [Builder.visitOperand]
  rfl

end Visit

/-! ## Building is visiting -/

/-- The work does what a visit does; a refusal is blamed on some window. -/
def Builder.Follows (w : Builder.Work σ α) (v : σ → Visit σ ν α) : Prop :=
  ∀ s, ∃ blame, w s = ((v s).answer.mapError fun reason => ⟨.rejected reason, blame⟩, (v s).state)

namespace Builder

theorem Follows.andThen {w : Work σ α} {v : σ → Visit σ ν α} {next : α → Work σ β}
    {next' : α → σ → Visit σ ν β} (h : Follows w v) (hn : ∀ a, Follows (next a) (next' a)) :
    Follows (w.andThen next) (fun s => (v s).andThen next') := by
  intro s
  obtain ⟨blame, hw⟩ := h s
  dsimp only
  rw [Work.andThen, hw]
  obtain ⟨calls, answer, s'⟩ := v s
  cases answer with
  | error reason => exact ⟨blame, rfl⟩
  | ok a => exact hn a s'

theorem follows_done (a : α) : Follows (ν := ν) (fun s : σ => (.ok a, s)) (fun s => ⟨[], .ok a, s⟩) := by
  intro s
  exact ⟨⟨0, 0⟩, rfl⟩

variable (b : Builder σ ν)

theorem follows_ask (blame : Span) (c : Call ν) : Follows (b.ask blame c) (b.call c) := by
  intro s
  refine ⟨blame, ?_⟩
  unfold ask call
  cases b.construct c s with
  | mk result s' => cases result <;> rfl

mutual

theorem follows_build : ∀ p : Phrase, Follows (b.build p) (b.visit p.expr)
  | .string .. | .number .. | .axis .. | .variable .. => by
    rw [build, Phrase.expr]
    exact follows_ask b _ _
  | .binary blame op left right => by
    rw [build, Phrase.expr]
    have both := (follows_build left).andThen fun l => (follows_build right).andThen fun r =>
      follows_ask b blame (.operator op (some l) (some r))
    intro s
    simp only [visit, Visit.visitOperand_some]
    exact both s
  | .negation blame inner => by
    rw [build, Phrase.expr]
    have one := (follows_build inner).andThen fun node => follows_ask b blame (.operator .unaryMinus (some node) none)
    intro s
    simp only [visit, Visit.visitOperand_some, Visit.visitOperand_none]
    exact one s
  | .join blame left right => by
    rw [build, Phrase.expr]
    have both := (follows_build left).andThen fun l => (follows_build right).andThen fun r =>
      follows_ask b blame (.join l r)
    intro s
    simp only [visit]
    exact both s
  | .predicate blame node condition reverse => by
    rw [build, Phrase.expr]
    have both := (follows_build node).andThen fun n => (follows_build condition).andThen fun c =>
      follows_ask b blame (.predicate n c reverse)
    intro s
    simp only [visit]
    exact both s
  | .function blame qualifier name args => by
    rw [build, Phrase.expr]
    have all := (follows_buildAll args).andThen fun nodes => follows_ask b blame (.function qualifier name nodes)
    intro s
    simp only [visit]
    exact all s

theorem follows_buildAll : ∀ ps : List Phrase, Follows (b.buildAll ps) (b.visitAll (Phrase.exprs ps))
  | [] => by
    rw [buildAll, Phrase.exprs]
    intro s
    simp only [visitAll]
    exact follows_done (ν := ν) [] s
  | p :: ps => by
    rw [buildAll, Phrase.exprs]
    have all := (follows_build p).andThen fun node => (follows_buildAll ps).andThen fun nodes =>
      follows_done (node :: nodes)
    intro s
    simp only [visitAll]
    exact all s

end

end Builder

/-! ## The listing of a tree -/

/-- A call without the nodes it is given. -/
def Call.head : Call ν → Call Unit
  | .string value => .string value
  | .number text => .number text
  | .operator op left right => .operator op (left.map fun _ => ()) (right.map fun _ => ())
  | .axis along kind qualifier name => .axis along kind qualifier name
  | .join _ _ => .join () ()
  | .predicate _ _ reverse => .predicate () () reverse
  | .variable qualifier name => .variable qualifier name
  | .function qualifier name args => .function qualifier name (args.map fun _ => ())

mutual

/-- The nodes of a tree in post-order, each with what is stored in it. -/
def Expr.listing : Expr → List (Call Unit)
  | .string value => [.string value]
  | .number text => [.number text]
  | .operator op left right => operandListing left ++ operandListing right ++
    [.operator op (left.map fun _ => ()) (right.map fun _ => ())]
  | .axis along kind qualifier name => [.axis along kind qualifier name]
  | .join left right => left.listing ++ right.listing ++ [.join () ()]
  | .predicate node condition reverse => node.listing ++ condition.listing ++ [.predicate () () reverse]
  | .variable qualifier name => [.variable qualifier name]
  | .function qualifier name args => listingAll args ++ [.function qualifier name (args.map fun _ => ())]

def Expr.operandListing : Option Expr → List (Call Unit)
  | none => []
  | some t => t.listing

def Expr.listingAll : List Expr → List (Call Unit)
  | [] => []
  | t :: ts => t.listing ++ listingAll ts

end

/-- The visit makes these calls in this order, to the end unless one is refused; `P` holds of what it
gives at the end. -/
def Visit.Lists (v : Visit σ ν α) (ls : List (Call Unit)) (P : α → Prop) : Prop :=
  v.calls.map Call.head <+: ls ∧ ∀ a, v.answer = .ok a → v.calls.map Call.head = ls ∧ P a

namespace Visit.Lists

variable {v : Visit σ ν α} {next : α → σ → Visit σ ν β} {ls ms : List (Call Unit)} {P : α → Prop}
  {Q : β → Prop}

theorem andThen (h : v.Lists ls P) (hn : ∀ a s, P a → (next a s).Lists ms Q) :
    (v.andThen next).Lists (ls ++ ms) Q := by
  obtain ⟨calls, answer, s⟩ := v
  obtain ⟨some, all⟩ := h
  cases answer with
  | error reason => exact ⟨some.trans (List.prefix_append ls ms), nofun⟩
  | ok a =>
    obtain ⟨hall, hP⟩ := all a rfl
    obtain ⟨some', all'⟩ := hn a s hP
    dsimp only at hall
    simp only [Visit.andThen, Lists, List.map_append, hall]
    refine ⟨(List.prefix_append_right_inj ls).2 some', fun c hc => ?_⟩
    obtain ⟨hrest, hQ⟩ := all' c hc
    exact ⟨by rw [hrest], hQ⟩

theorem call (b : Builder σ ν) {c : Call ν} {d : Call Unit} (hc : c.head = d) (s : σ) :
    (b.call c s).Lists [d] fun _ => True := by
  subst hc
  exact ⟨List.prefix_refl _, fun _ _ => ⟨rfl, trivial⟩⟩

theorem done {a : α} (ha : P a) (s : σ) : (⟨[], .ok a, s⟩ : Visit σ ν α).Lists [] P := by
  refine ⟨List.prefix_refl _, fun c hc => ?_⟩
  cases hc
  exact ⟨rfl, ha⟩

end Visit.Lists

namespace Builder

variable (b : Builder σ ν)

mutual

theorem visit_lists : ∀ (t : Expr) (s : σ), (b.visit t s).Lists t.listing fun _ => True
  | .string .., s | .number .., s | .axis .., s | .variable .., s => by
    rw [visit, Expr.listing]
    exact .call b rfl s
  | .operator op left right, s => by
    rw [visit, Expr.listing, List.append_assoc]
    refine (visitOperand_lists left s).andThen fun l s hl => ?_
    refine (visitOperand_lists right s).andThen fun r s hr => ?_
    exact .call b (by rw [Call.head, hl, hr]) s
  | .join left right, s => by
    rw [visit, Expr.listing, List.append_assoc]
    refine (visit_lists left s).andThen fun l s _ => ?_
    exact (visit_lists right s).andThen fun r s _ => .call b rfl s
  | .predicate node condition reverse, s => by
    rw [visit, Expr.listing, List.append_assoc]
    refine (visit_lists node s).andThen fun n s _ => ?_
    exact (visit_lists condition s).andThen fun c s _ => .call b rfl s
  | .function qualifier name args, s => by
    rw [visit, Expr.listing]
    refine (visitAll_lists args s).andThen fun nodes s hn => ?_
    exact .call b (by rw [Call.head, hn]) s

theorem visitOperand_lists : ∀ (o : Option Expr) (s : σ), (b.visitOperand o s).Lists (Expr.operandListing o)
    fun node => (node.map fun _ => ()) = o.map fun _ => ()
  | none, s => by
    rw [visitOperand, Expr.operandListing]
    exact .done (by rfl) s
  | some t, s => by
    rw [visitOperand, Expr.operandListing, ← List.append_nil t.listing]
    exact (visit_lists t s).andThen fun node s _ => .done (by rfl) s

theorem visitAll_lists : ∀ (ts : List Expr) (s : σ), (b.visitAll ts s).Lists (Expr.listingAll ts)
    fun nodes => (nodes.map fun _ => ()) = ts.map fun _ => ()
  | [], s => by
    rw [visitAll, Expr.listingAll]
    exact .done (by rfl) s
  | t :: ts, s => by
    rw [visitAll, Expr.listingAll, ← List.append_nil (Expr.listingAll ts)]
    refine (visit_lists t s).andThen fun node s _ => ?_
    refine (visitAll_lists ts s).andThen fun nodes s hn => ?_
    exact .done (by rw [List.map_cons, List.map_cons, hn]) s

end

/-! ## The trace of a visit -/

/-- A visit of the tracing builder is that of the builder, with its calls written down. -/
def Logs (log : List (Event ν)) (w : Visit (σ × List (Event ν)) ν α) (v : Visit σ ν α) : Prop :=
  w = ⟨v.calls, v.answer, v.state, log ++ v.calls.map .call⟩

theorem Logs.andThen {log : List (Event ν)} {w : Visit (σ × List (Event ν)) ν α} {v : Visit σ ν α}
    {next : α → σ × List (Event ν) → Visit (σ × List (Event ν)) ν β} {next' : α → σ → Visit σ ν β}
    (h : Logs log w v) (hn : ∀ a s log, Logs log (next a (s, log)) (next' a s)) :
    Logs log (w.andThen next) (v.andThen next') := by
  unfold Logs at h hn ⊢
  rw [h]
  obtain ⟨calls, answer, s⟩ := v
  cases answer with
  | error reason => rfl
  | ok a => simp only [Visit.andThen, hn, List.map_append, List.append_assoc]

theorem logs_done (log : List (Event ν)) (a : α) (s : σ) : Logs log ⟨[], .ok a, s, log⟩ ⟨[], .ok a, s⟩ := by
  unfold Logs
  rw [List.map_nil, List.append_nil]

mutual

theorem logs_visit : ∀ (t : Expr) (s : σ) (log : List (Event ν)), Logs log (b.traced.visit t (s, log)) (b.visit t s)
  | .string .., s, log | .number .., s, log | .axis .., s, log | .variable .., s, log => by
    rw [visit, visit]
    rfl
  | .operator op left right, s, log => by
    rw [visit, visit]
    refine (logs_visitOperand left s log).andThen fun l s log => ?_
    exact (logs_visitOperand right s log).andThen fun r s log => rfl
  | .join left right, s, log => by
    rw [visit, visit]
    exact (logs_visit left s log).andThen fun l s log => (logs_visit right s log).andThen fun r s log => rfl
  | .predicate node condition reverse, s, log => by
    rw [visit, visit]
    exact (logs_visit node s log).andThen fun n s log => (logs_visit condition s log).andThen fun c s log => rfl
  | .function qualifier name args, s, log => by
    rw [visit, visit]
    exact (logs_visitAll args s log).andThen fun nodes s log => rfl

theorem logs_visitOperand : ∀ (o : Option Expr) (s : σ) (log : List (Event ν)),
    Logs log (b.traced.visitOperand o (s, log)) (b.visitOperand o s)
  | none, s, log => by
    rw [visitOperand, visitOperand]
    exact logs_done log none s
  | some t, s, log => by
    rw [visitOperand, visitOperand]
    exact (logs_visit t s log).andThen fun node s log => logs_done log (some node) s

theorem logs_visitAll : ∀ (ts : List Expr) (s : σ) (log : List (Event ν)),
    Logs log (b.traced.visitAll ts (s, log)) (b.visitAll ts s)
  | [], s, log => by
    rw [visitAll, visitAll]
    exact logs_done log [] s
  | t :: ts, s, log => by
    rw [visitAll, visitAll]
    refine (logs_visit t s log).andThen fun node s log => ?_
    exact (logs_visitAll ts s log).andThen fun nodes s log => logs_done log (node :: nodes) s

end

/-! ## Builders that refuse nothing -/

theorem andThen_ok {v : Visit σ ν α} {next : α → σ → Visit σ ν β} (h : ∃ a, v.answer = .ok a)
    (hn : ∀ a s, ∃ c, (next a s).answer = .ok c) : ∃ c, (v.andThen next).answer = .ok c := by
  obtain ⟨a, ha⟩ := h
  rw [Visit.andThen, ha]
  exact hn a v.state

mutual

theorem visit_ok (h : ∀ c s, ∃ node, (b.construct c s).1 = .ok node) :
    ∀ (t : Expr) (s : σ), ∃ node, (b.visit t s).answer = .ok node
  | .string .., s | .number .., s | .axis .., s | .variable .., s => by
    rw [visit]
    exact h _ s
  | .operator op left right, s => by
    rw [visit]
    exact andThen_ok (visitOperand_ok h left s) fun l s =>
      andThen_ok (visitOperand_ok h right s) fun r s => h _ s
  | .join left right, s => by
    rw [visit]
    exact andThen_ok (visit_ok h left s) fun l s => andThen_ok (visit_ok h right s) fun r s => h _ s
  | .predicate node condition reverse, s => by
    rw [visit]
    exact andThen_ok (visit_ok h node s) fun n s => andThen_ok (visit_ok h condition s) fun c s => h _ s
  | .function qualifier name args, s => by
    rw [visit]
    exact andThen_ok (visitAll_ok h args s) fun nodes s => h _ s

theorem visitOperand_ok (h : ∀ c s, ∃ node, (b.construct c s).1 = .ok node) :
    ∀ (o : Option Expr) (s : σ), ∃ node, (b.visitOperand o s).answer = .ok node
  | none, s => by
    rw [visitOperand]
    exact ⟨none, rfl⟩
  | some t, s => by
    rw [visitOperand]
    exact andThen_ok (visit_ok h t s) fun node s => ⟨some node, rfl⟩

theorem visitAll_ok (h : ∀ c s, ∃ node, (b.construct c s).1 = .ok node) :
    ∀ (ts : List Expr) (s : σ), ∃ nodes, (b.visitAll ts s).answer = .ok nodes
  | [], s => by
    rw [visitAll]
    exact ⟨[], rfl⟩
  | t :: ts, s => by
    rw [visitAll]
    exact andThen_ok (visit_ok h t s) fun node s =>
      andThen_ok (visitAll_ok h ts s) fun nodes s => ⟨node :: nodes, rfl⟩

end

end Builder

/-! ## Parsing with a builder -/

/-- What a parse gives when this is the answer of the visit and this is left of it at the end. -/
def Visit.Yields (v : Visit σ ν ν) (text : String) (left : Option ν) (result : Except ParseError ν) : Prop :=
  match v.answer, left with
  | .error reason, _ => ∃ window, result = .error ⟨⟨.rejected reason, window⟩, text⟩
  | .ok _, some node => result = .ok node
  | .ok _, none =>
    result = .error ⟨⟨.rejected "the builder discarded the result", ⟨0, text.utf8ByteSize⟩⟩, text⟩

namespace Builder

/-- A builder of nothing that refuses nothing. -/
def accepting : Builder Unit Unit where
  start := id
  construct _ s := (.ok (), s)
  finish result s := (result, s)

/-- A builder that only writes down what it is told. -/
def recorder : Builder (Unit × List (Event Unit)) Unit := accepting.traced

theorem ofText_of_parse {text : String} {t : Expr} (h : Expr.parse text = .ok t) :
    ∃ phrase q, Phrase.ofText text 0 = .read phrase q ∧ phrase.expr = t := by
  rw [Expr.parse, Expr.parseFrom_eq] at h
  cases hread : Phrase.ofText text 0 with
  | broken done f => rw [hread] at h; cases h
  | read phrase q =>
    rw [hread] at h
    cases h
    exact ⟨phrase, q, rfl, rfl⟩

/-- A text with a tree is parsed by visiting the tree. -/
theorem parse_yields (b : Builder σ ν) {text : String} {t : Expr} (h : Expr.parse text = .ok t) (s : σ) :
    let run := b.visit t (b.start s)
    let ended := b.finish run.answer.toOption run.state
    ∃ result, b.parse text 0 s = (result, ended.2) ∧ run.Yields text ended.1 result := by
  obtain ⟨phrase, q, hread, rfl⟩ := ofText_of_parse h
  obtain ⟨blame, hbuild⟩ := follows_build b phrase (b.start s)
  rw [parse_eq, hread, buildOutcome, hbuild]
  dsimp only
  obtain ⟨calls, answer, s'⟩ := b.visit phrase.expr (b.start s)
  cases answer with
  | error reason => exact ⟨_, rfl, blame, rfl⟩
  | ok node =>
    have answered : (Except.ok node).mapError (fun reason => Fault.mk (.rejected reason) blame) = .ok node := rfl
    simp only [answered, Except.toOption, Visit.Yields]
    obtain ⟨left, s''⟩ := b.finish (some node) s'
    cases left <;> exact ⟨_, rfl, rfl⟩

theorem traced_parse (b : Builder σ ν) {text : String} {t : Expr} (h : Expr.parse text = .ok t) (s : σ)
    (log : List (Event ν)) :
    let run := b.visit t (b.start s)
    let ended := b.finish run.answer.toOption run.state
    (b.traced.parse text 0 (s, log)).2 =
      (ended.2, log ++ .start :: (run.calls.map .call ++ [.finish run.answer.toOption])) := by
  obtain ⟨result, hparse, -⟩ := parse_yields b.traced h (s, log)
  have started : b.traced.start (s, log) = (b.start s, log ++ [.start]) := rfl
  have logged := logs_visit b t (b.start s) (log ++ [.start])
  unfold Logs at logged
  rw [hparse, started, logged]
  simp only [traced, List.append_assoc, List.cons_append, List.nil_append]

/-- The recorder writes down the listing of the tree. -/
theorem recorder_parse {text : String} {t : Expr} (h : Expr.parse text = .ok t) :
    recorder.parse text 0 ((), []) = (.ok (), (), .start :: (t.listing.map .call ++ [.finish (some ())])) := by
  obtain ⟨node, hok⟩ := visit_ok accepting (fun _ _ => ⟨(), rfl⟩) t ()
  have listed : (accepting.visit t ()).calls = t.listing := by
    have heads : (Call.head : Call Unit → Call Unit) = id := by
      have unit : (fun _ : Unit => ()) = id := rfl
      funext c
      cases c <;> simp only [Call.head, unit, Option.map_id, List.map_id, id]
    have all := ((visit_lists accepting t ()).2 node hok).1
    rwa [heads, List.map_id] at all
  obtain ⟨result, hparse, hyields⟩ := parse_yields accepting h ()
  obtain ⟨events, htraced⟩ := parse_traced accepting text 0 () []
  have hlog := traced_parse accepting h () []
  refine Prod.ext ?_ (hlog.trans ?_)
  · show (accepting.traced.parse text 0 ((), [])).1 = .ok ()
    rw [htraced, hparse]
    simp only [Visit.Yields] at hyields
    have started : accepting.start () = () := rfl
    rw [started, hok] at hyields
    exact hyields
  · have started : accepting.start () = () := rfl
    rw [started, hok, listed]
    rfl

/-- **Parsing visits the tree.**  Whatever the builder does, it is told of the start, asked for the nodes
of the tree in post-order until it refuses one, and told of the end. -/
theorem parse_visits (text : String) (t : Expr) (h : Expr.parse text = .ok t) :
    (∀ {σ ν : Type} (b : Builder σ ν) (s : σ) (log : List (Event ν)),
      let run := b.visit t (b.start s)
      let ended := b.finish run.answer.toOption run.state
      ∃ result, b.parse text 0 s = (result, ended.2) ∧ run.Yields text ended.1 result ∧
        b.traced.parse text 0 (s, log) =
          (result, ended.2, log ++ .start :: (run.calls.map .call ++ [.finish run.answer.toOption])) ∧
        run.Lists t.listing fun _ => True) ∧
    recorder.parse text 0 ((), []) = (.ok (), (), .start :: (t.listing.map .call ++ [.finish (some ())])) := by
  refine ⟨fun {σ ν} b s log => ?_, recorder_parse h⟩
  obtain ⟨result, hparse, hyields⟩ := parse_yields b h s
  refine ⟨result, hparse, hyields, ?_, visit_lists b t (b.start s)⟩
  obtain ⟨events, htraced⟩ := parse_traced b text 0 s log
  refine Prod.ext ?_ (traced_parse b h s log)
  rw [htraced, hparse]

theorem parse_visits_descendant :
    Expr.parse "//a" = .ok (.join (.axis .root .all none none)
      (.join (.axis .descendantOrSelf .all none none) (.axis .child .element none (some "a")))) ∧
    recorder.parse "//a" 0 ((), []) = (.ok (), (), [.start, .call (.axis .root .all none none),
      .call (.axis .descendantOrSelf .all none none), .call (.axis .child .element none (some "a")),
      .call (.join () ()), .call (.join () ()), .finish (some ())]) := by
  have parsed : Expr.parse "//a" = .ok (.join (.axis .root .all none none)
      (.join (.axis .descendantOrSelf .all none none) (.axis .child .element none (some "a")))) := by
    rw [Expr.parse, Expr.parseFrom_eq]
    rfl
  exact ⟨parsed, (parse_visits "//a" _ parsed).2⟩

end Builder

end StylesheetReversal.Path
