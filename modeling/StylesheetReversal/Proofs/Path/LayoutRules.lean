import StylesheetReversal.Proofs.Path.Laying
/-!
# The rules lay out what they read

Each rule of the parser lays out the lexemes that it passes, from what the rules lay out that it calls (`Rule.LaysOut`).  So
every text has a layout, as far as it can be read, and a builder is asked for the calls of that (`Phrase.ofScan_laidOut`).
-/
namespace StylesheetReversal.Path

namespace Rule

/-! ## Rules that build nothing -/

open RuleSpecs (test_default test_call test_name axisOf_implied axisOf_default step_default location_default steps_default
  primary_default)

variable {e : Ending} {p : Place}

theorem target_passes (kind : NodeKind) : (target e kind p).Passes e p fun _ _ => True := by
  unfold target
  split
  · rcases Place.expect_cases e p .string with ⟨hk, hp⟩ | ⟨cause, hc, hp⟩
    · rw [hp]
      exact (Place.advance_passes_kind hk (by decide)).andThen (fun _ _ q _ _ => .read trivial) fun _ _ _ =>
        ⟨[], none, trivial⟩
    · rw [hp]
      exact .fault (a := none) (v := []) trivial hc
  · exact .read trivial

theorem test_passes_some (axis : Axis) : (test e axis p).Passes e p fun _ _ => True := by
  have completes : ∀ {γ : Type} (w : List Lexeme) (a : γ), True → ∃ (_ : List Lexeme) (_ : Test), True :=
    fun _ _ _ => ⟨[], (.all, none, none), trivial⟩
  by_cases hn : p.kind = .name
  · by_cases hc : p.isCall = true ∧ p.namesNodeType = true
    · have nodeType := hc.2
      simp only [Place.namesNodeType, Bool.and_eq_true] at nodeType
      obtain ⟨kind, hk⟩ := Option.isSome_iff_exists.1 nodeType.2
      rw [test_call hn hc hk]
      refine (p.advance_passes_kind hn (by decide)).andThen (fun _ _ q _ _ => ?_) fun w a _ => completes w a trivial
      refine (q.pass_passes (by decide)).andThen (fun _ _ q _ _ => ?_) fun w a _ => completes w a trivial
      refine (target_passes kind).andThen (fun _ _ q _ _ => ?_) fun w a _ => completes w a trivial
      exact (q.pass_passes (by decide)).andThen (fun _ _ q _ _ => .read trivial) fun w a _ => completes w a trivial
    · rw [test_name hn hc]
      exact (p.advance_passes_kind hn (by decide)).andThen (fun _ _ q _ _ => .read trivial) fun w a _ =>
        completes w a trivial
  by_cases hs : p.kind = .star
  · simp only [test, hs]
    exact (p.advance_passes_kind hs (by decide)).andThen (fun _ _ q _ _ => .read trivial) fun w a _ =>
      completes w a trivial
  · rw [test_default hn hs]
    exact .fault (a := (.all, none, none)) (v := []) trivial fun _ => by simp

/-- **A node test passes its lexemes**, and what it passes before it breaks starts one. -/
theorem test_passes (axis : Axis) : (test e axis p).Passes e p fun w t =>
    Derives (.test axis) (w.map Lexeme.token) (.axis axis t.1 t.2.1 t.2.2) := by
  by_cases hp : p.ahead = []
  · have kind : p.kind = .eof := by rw [Place.kind, hp]
    rw [test_default (by rw [kind]; decide) (by rw [kind]; decide)]
    exact .fault (a := (axis.principalKind, none, some "a")) (v := [Token.anyName.lexeme])
      (.name (x := Token.anyName) rfl) fun _ => by simp
  · refine ((test_passes_some axis).meets (RuleSpecs.test_meets (fun h => absurd h hp) axis)).imp fun w t h => ?_
    obtain ⟨_, h⟩ := h
    exact h

theorem axisOf_passes : (axisOf e p).Passes e p fun w _ => Specifies w := by
  by_cases ha : p.kind = .axis
  · simp only [axisOf, ha]
    cases Axis.ofName? p.name.base with
    | none => exact .fault (a := .child) (v := []) .implied fun _ => by simp
    | some axis =>
      refine (p.advance_passes_kind ha (by decide)).andThen (fun _ w q hw _ => ?_) fun w _ hw => ?_
      · obtain ⟨x, rfl, hx⟩ := hw
        refine (q.pass_passes (by decide)).andThen (fun _ v q hv _ => ?_) fun v _ hv => ?_
        · obtain ⟨y, rfl, hy⟩ := hv
          exact .read (.named hx hy)
        · obtain ⟨y, rfl, hy⟩ := hv
          exact ⟨[], axis, .named hx hy⟩
      · obtain ⟨x, rfl, hx⟩ := hw
        exact ⟨[Kind.colonColon.lexeme], axis, .named hx rfl⟩
  by_cases hat : p.kind = .at
  · simp only [axisOf, hat]
    refine (p.advance_passes_kind hat (by decide)).andThen (fun _ w q hw _ => ?_) fun w _ hw => ?_
    · obtain ⟨x, rfl, hx⟩ := hw
      exact .read (.sign hx)
    · obtain ⟨x, rfl, hx⟩ := hw
      exact ⟨[], .attribute, .sign hx⟩
  by_cases hi : p.kind = .name ∨ p.kind = .star
  · rw [axisOf_implied hi]
    exact .read .implied
  · obtain ⟨hn, hs⟩ := not_or.1 hi
    rw [axisOf_default ha hat hn hs]
    exact .fault (a := .child) (v := []) .implied fun _ => by simp

/-! ## Constructs of one rule -/

theorem askedAll_wholeAxis (blame : Span) (axes : List Axis) :
    Phrase.askedAll (axes.map (wholeAxis blame)) = axes.map fun a => (.axis a .all none none, blame) := by
  induction axes with
  | nil => rfl
  | cons a axes ih => rw [List.map_cons, Phrase.askedAll, ih]; rfl

/-- A step that is written as one lexeme is complete with that. -/
theorem laid_abbreviated {e : Ending} {unit : Option Span} {p q : Place} {x : Lexeme} {axes : List Axis}
    (h : Laid e unit unit p [.lexeme x] [] q) (hx : (x.kind, axes) ∈ abbreviations) :
    Laid e unit unit p [.construct none (axes.map fun a => .axis a .all none none) [.lexeme x]]
      (axes.map (wholeAxis (q.blame e unit))) q := by
  have window : ∀ a : Axis, (Call.axis a .all none none).window e unit q.ahead [.lexeme x] = q.blame e unit :=
    fun a => Call.window_axis (startsTest_abbreviated hx : startsTest (Layout.sources [.lexeme x]) = false)
  refine h.close none (.abbreviated hx) ?_
  rw [askedAll_wholeAxis, List.map_map]
  exact List.map_congr_left fun a _ => Prod.ext rfl (window a).symm

theorem abbreviated_lays {e : Ending} {unit : Option Span} {p : Place} {P : Layout → Prop} {next : Place → Outcome Phrase}
    (axes : List Axis) (hk : (p.kind, axes) ∈ abbreviations)
    (hn : ∀ t q x, t.isNode → t.primary? = none → t.source = [x] → x.kind = p.kind →
      Laid e unit unit p [t] (axes.map (wholeAxis (q.blame e unit))) q → (next q).Lays e unit p P) :
    ((p.advance e).andThen [] fun _ q => next q).Lays e unit p P := by
  have hne : p.kind ≠ .eof := fun heof => by
    rw [heof] at hk
    simp [abbreviations] at hk
  refine (Laid.nil e unit _ p).andThen_passes none (.inr rfl) (p.advance_passes_kind rfl hne) ?_ ?_
  · rintro _ - ⟨x, rfl, hx⟩
    exact ⟨_, [], .abbreviated (by rw [hx]; exact hk)⟩
  · rintro - _ q ⟨x, rfl, hx⟩ - hq
    have hx' : (x.kind, axes) ∈ abbreviations := by rw [hx]; exact hk
    exact hn _ q x rfl (Layout.primary?_abbreviated hx') rfl hx (laid_abbreviated hq hx')

/-- The steps `.` and `..`. -/
theorem dotted_lays {e : Ending} {unit : Option Span} {p : Place} {step : DottedStep} {axis : Axis}
    (hk : p.kind = step.kind) (haxis : (step.kind, [axis]) ∈ abbreviations) :
    (dotted e unit step axis p).Lays e unit p fun t => t.primary? = none := by
  refine abbreviated_lays [axis] (by rwa [hk]) fun t q x ht hprimary hsource hx hq => ?_
  split
  · next hb =>
    obtain ⟨y, ys, hys, hy⟩ := Place.eq_cons_of_kind hb (by decide)
    refine ⟨t, ht, hq.cut (.inr fun step' hstep => ?_)⟩
    cases hstep
    refine ⟨[], x, y, ys, ?_, hx.trans hk, hy, ?_⟩
    · rw [hq.passed.ahead, Layout.sources_singleton, hsource, hys]
      rfl
    · exact Place.span_of_ahead hys
  · exact ⟨t, hprimary, ht, hq⟩

theorem nodeTest_lays {e : Ending} {unit : Option Span} {p : Place} (axis : Axis) :
    (nodeTest e axis p).Lays e unit p fun _ => True := by
  refine (Laid.nil e unit _ p).andThen_passes none (.inr rfl) (test_passes axis) (fun w t hw => (Forms.test hw).completes)
    fun t w q hw hpassed hq => ?_
  obtain ⟨hstarts, hne⟩ := startsTest_of_derives hw
  refine ⟨_, trivial, rfl, hq.close none (.test hw) ?_⟩
  have window : (Call.axis axis t.1 t.2.1 t.2.2).window e unit q.ahead (w.map .lexeme) = .across w := by
    rw [Call.window, Layout.sources_lexemes, if_pos hstarts]
  rw [hpassed.window hne]
  exact congrArg (fun window => [(Call.axis axis t.1 t.2.1 t.2.2, window)]) window.symm

theorem literal_lays {e : Ending} {unit : Option Span} {p : Place} {P : Layout → Prop} {l : Lexeme} {ls : List Lexeme}
    {phrase : Phrase} {call : Call Unit} (hls : p.ahead = l :: ls) (forms : Forms none [call] [.lexeme l])
    (asks : ∀ behind, phrase.asked = [(call, call.window e unit behind [.lexeme l])])
    (hP : P (.construct none [call] [.lexeme l])) :
    ((p.advance e).andThen [phrase] fun _ q => .read phrase q).Lays e unit p P := by
  obtain ⟨q, hq, hadvance⟩ := Place.advance_cases (e := e) hls
  have laid : Laid e unit unit p [.construct none [call] [.lexeme l]] [phrase] q :=
    ((Laid.nil e unit (none.or unit) p).lexemes hq (.inr rfl)).close none forms
      (by rw [Phrase.askedAll_singleton, asks q.ahead]; rfl)
  rcases hadvance with hread | ⟨f, hf, hbroken⟩
  · rw [hread]
    exact ⟨_, hP, rfl, laid⟩
  · rw [hbroken]
    exact ⟨_, rfl, laid.cut (.inl hf)⟩

/-! ## All rules -/

/-- All rules lay out what they read, as far as this fuel takes them.  A rule that goes on behind a construct has that as
the first part of those that it makes. -/
structure LaysOut (k : Nat) : Prop where
  operand : ∀ {e unit limit p}, (Rule.operand e k unit limit p).Lays e unit p fun _ => True
  operators : ∀ {e unit limit left p q t}, t.isNode → Laid e unit unit p [t] [left] q →
    (Rule.operators e k unit limit left q).Lays e unit p fun _ => True
  union : ∀ {e unit p}, (Rule.union e k unit p).Lays e unit p fun _ => True
  members : ∀ {e unit left p q t}, t.isNode → Laid e unit unit p [t] [left] q →
    (Rule.members e k unit left q).Lays e unit p fun _ => True
  path : ∀ {e unit p}, (Rule.path e k unit p).Lays e unit p fun _ => True
  location : ∀ {e unit p}, (Rule.location e k unit p).Lays e unit p fun _ => True
  relative : ∀ {e unit p}, (Rule.relative e k unit p).Lays e unit p fun _ => True
  steps : ∀ {e unit first p q t}, t.isNode → Laid e unit unit p [t] [first] q →
    (Rule.steps e k (t.filter?.or unit) first q).Lays e unit p fun _ => True
  step : ∀ {e unit p}, (Rule.step e k unit p).Lays e unit p fun t => t.primary? = none
  predicates : ∀ (reverse : Bool) {e unit node p q t}, t.isNode → Laid e unit unit p [t] [node] q →
    (Rule.predicates e k (t.primary?.or unit) reverse node q).Lays e unit p fun t' => t'.primary? = t.primary?
  filter : ∀ {e unit p}, (Rule.filter e k unit p).Lays e unit p fun t => t.primary?.isSome
  primary : ∀ {e unit p}, (Rule.primary e k unit p).Lays e unit p fun t => t.primary? = some (.across t.source)
  arguments : ∀ {e unit p}, (Rule.arguments e k unit p).LaysArguments e unit p fun ts n => ts = [] ∧ n = 0 ∨ Arguments ts n
  someArguments : ∀ {e unit p}, (Rule.someArguments e k unit p).LaysArguments e unit p Arguments

namespace LaysOut

variable {k limit : Nat} {e : Ending} {unit : Option Span} {p q : Place} {t : Layout} (ih : LaysOut k)

include ih

theorem operand_succ : (Rule.operand e (k + 1) unit limit p).Lays e unit p fun _ => True := by
  simp only [Rule.operand]
  split
  · next hk =>
    refine (Laid.nil e unit _ p).andThen_passes none (.inr rfl) (p.advance_passes_kind hk (by decide)) ?_ ?_
    · rintro _ - ⟨x, rfl, hx⟩
      exact ⟨_, [.blank], .negation hx rfl⟩
    · rintro - _ q ⟨x, rfl, hx⟩ - hq
      refine hq.andThen_lays none (.inr rfl) ih.operand (fun t ht => ⟨_, [], .negation hx ht⟩) fun t inner r _ ht _ hr => ?_
      exact ih.operators rfl (hr.close none (.negation hx ht) (by simp [Phrase.asked, Phrase.askedAll]; rfl))
  · exact ih.union.andThen fun t left q _ ht hq => ih.operators ht hq

theorem operators_succ {left : Phrase} (ht : t.isNode) (h : Laid e unit unit p [t] [left] q) :
    (Rule.operators e (k + 1) unit limit left q).Lays e unit p fun _ => True := by
  simp only [Rule.operators]
  cases hop : q.kind.operator? with
  | none => exact ⟨t, trivial, ht, h⟩
  | some op =>
    dsimp only
    split
    · exact ⟨t, trivial, ht, h⟩
    · next hlimit =>
      have other : op ≠ .union := fun hu => hlimit (.inl hu)
      have operator : ∀ {x : Lexeme}, x.kind = q.kind → x.kind.operator? = some op := fun hx => by rw [hx, hop]
      have hk : q.kind ≠ .eof := fun heof => by
        rw [heof] at hop
        cases hop
      refine h.andThen_passes none (.inr rfl) (q.advance_passes_kind rfl hk) ?_ ?_
      · rintro _ - ⟨x, rfl, hx⟩
        exact ⟨_, [.blank], .binary (operator hx) ht rfl⟩
      · rintro - _ r ⟨x, rfl, hx⟩ - hr
        refine hr.andThen_lays none (.inr rfl) ih.operand (fun s hs => ⟨_, [], .binary (operator hx) ht hs⟩)
          fun s right r' _ hs _ hr' => ?_
        refine ih.operators rfl (hr'.close none (.binary (operator hx) ht hs) ?_)
        simp [Phrase.asked, Phrase.askedAll, Call.window_operator other]
        rfl

theorem union_succ : (Rule.union e (k + 1) unit p).Lays e unit p fun _ => True :=
  ih.path.andThen fun _ _ _ _ ht hq => ih.members ht hq

theorem members_succ {left : Phrase} (ht : t.isNode) (h : Laid e unit unit p [t] [left] q) :
    (Rule.members e (k + 1) unit left q).Lays e unit p fun _ => True := by
  simp only [Rule.members]
  split
  · next hk =>
    refine h.andThen_passes none (.inr rfl) (q.advance_passes_kind hk (by decide)) ?_ ?_
    · rintro _ - ⟨x, rfl, hx⟩
      exact ⟨_, [.blank], .binary (by rw [hx]; rfl) ht rfl⟩
    · rintro - _ r ⟨x, rfl, hx⟩ - hr
      have operator : x.kind.operator? = some .union := by rw [hx]; rfl
      refine hr.andThen_lays none (.inr rfl) ih.path (fun s hs => ⟨_, [], .binary operator ht hs⟩)
        fun s right r' _ hs hlaid hr' => ?_
      refine ih.members rfl (hr'.close none (.binary operator ht hs) ?_)
      rw [hlaid.window]
      simp [Phrase.asked, Phrase.askedAll]
      rfl
  · exact ⟨t, trivial, ht, h⟩

theorem path_succ : (Rule.path e (k + 1) unit p).Lays e unit p fun _ => True := by
  simp only [Rule.path]
  split
  · refine ih.filter.andThen fun t node q hP ht hq => ?_
    obtain ⟨primary, hprimary⟩ := Option.isSome_iff_exists.1 hP
    have further := ih.steps ht hq
    rw [Layout.filter?, hprimary] at further
    rw [hq.window]
    exact further
  · exact ih.location

theorem location_succ : (Rule.location e (k + 1) unit p).Lays e unit p fun _ => True := by
  by_cases hs : p.kind = .slash
  · simp only [Rule.location, hs]
    refine abbreviated_lays [.root] (by rw [hs]; decide) fun t q x ht _ hsource hx hq => ?_
    rw [hs] at hx
    split
    · refine hq.andThen_lays none (.inr rfl) ih.relative (fun r hr => ⟨_, [], .root hx hsource ht hr⟩)
        fun r rest q' _ hr _ hq' => ?_
      refine ⟨_, trivial, rfl, hq'.close none (.root hx hsource ht hr) ?_⟩
      simp [Phrase.asked, Phrase.askedAll]
      rfl
    · exact ⟨t, trivial, ht, hq⟩
  by_cases hss : p.kind = .slashSlash
  · simp only [Rule.location, hss]
    refine abbreviated_lays [.root, .descendantOrSelf] (by rw [hss]; decide) fun t q x ht _ hsource hx hq => ?_
    rw [hss] at hx
    refine hq.andThen_lays none (.inr rfl) ih.relative (fun r hr => ⟨_, [], .rootDeep hx hsource ht hr⟩)
      fun r rest q' _ hr _ hq' => ?_
    refine ⟨_, trivial, rfl, hq'.close none (.rootDeep hx hsource ht hr) ?_⟩
    simp [Phrase.asked, Phrase.askedAll]
    rfl
  · rw [location_default hs hss]
    exact ih.relative

theorem relative_succ : (Rule.relative e (k + 1) unit p).Lays e unit p fun _ => True := by
  refine ih.step.andThen fun t first q hP ht hq => ?_
  have further := ih.steps ht hq
  rw [Layout.filter?, hP] at further
  exact further

theorem steps_succ {first : Phrase} (ht : t.isNode) (h : Laid e unit unit p [t] [first] q) :
    (Rule.steps e (k + 1) (t.filter?.or unit) first q).Lays e unit p fun _ => True := by
  have behind : [t] ≠ [] ∨ unit = t.filter?.or unit := .inl (List.cons_ne_nil _ _)
  by_cases hs : q.kind = .slash
  · simp only [Rule.steps, hs]
    refine h.single.andThen_passes t.filter? behind (q.advance_passes_kind hs (by decide)) ?_ ?_
    · rintro _ - ⟨x, rfl, hx⟩
      exact ⟨_, [.blank], .join hx ht rfl⟩
    · rintro - _ r ⟨x, rfl, hx⟩ - hr
      refine hr.andThen_lays t.filter? (.inl (List.cons_ne_nil _ _)) ih.relative (fun s hs => ⟨_, [], .join hx ht hs⟩)
        fun s rest r' _ hs _ hr' => ?_
      refine ⟨_, trivial, rfl, hr'.close t.filter? (.join hx ht hs) ?_⟩
      simp [Phrase.asked, Phrase.askedAll]
      rfl
  by_cases hss : q.kind = .slashSlash
  · simp only [Rule.steps, hss]
    obtain ⟨x, ls, hls, hx⟩ := Place.eq_cons_of_kind hss (by decide)
    have deep : (x.kind, [Axis.descendantOrSelf]) ∈ abbreviations := by rw [hx]; decide
    obtain ⟨r, hr, hread | ⟨f, hf, hbroken⟩⟩ := Place.advance_cases (e := e) hls
    · rw [hread, Outcome.andThen_read]
      have inside := laid_abbreviated ((Laid.nil e (t.filter?.or unit) _ q).lexemes hr (.inr rfl)) deep
      refine (h.single.append inside behind).andThen_lays t.filter? (.inl (List.cons_ne_nil _ _)) ih.relative
        (fun s hs => ⟨_, [], .joinDeep hx rfl ht rfl hs⟩) fun s rest r' _ hs _ hr' => ?_
      refine ⟨_, trivial, rfl, hr'.close t.filter? (.joinDeep hx rfl ht rfl hs) ?_⟩
      simp [Phrase.asked, Phrase.askedAll]
      rfl
    · rw [hbroken, Outcome.andThen_broken]
      have inside := ((Laid.nil e (t.filter?.or unit) _ q).lexemes hr (.inr rfl)).cut (f := f) (.inl hf)
      refine Laid.lays_broken t.filter? (h.single.cut_append (inside.close none ⟨_, [], .abbreviated deep⟩) behind)
        ⟨_, [.blank], .joinDeep hx rfl ht rfl rfl⟩
  · rw [steps_default hs hss]
    exact ⟨t, trivial, ht, h⟩

theorem step_succ : (Rule.step e (k + 1) unit p).Lays e unit p fun t => t.primary? = none := by
  by_cases hd : p.kind = .dot
  · simp only [Rule.step, hd]
    exact dotted_lays hd (by decide)
  by_cases hdd : p.kind = .dotDot
  · simp only [Rule.step, hdd]
    exact dotted_lays hdd (by decide)
  · rw [step_default hd hdd]
    refine (Laid.nil e unit _ p).andThen_passes none (.inr rfl) axisOf_passes (fun w axis hw => ⟨_, [.blank], .step hw rfl⟩)
      fun axis w q hw _ hq => ?_
    refine hq.andThen_lays none (.inr rfl) (nodeTest_lays axis) (fun t ht => (Forms.step hw ht).completes)
      fun t node r _ ht _ hr => ?_
    have made : Laid e unit unit p [.construct none [] (w.map .lexeme ++ [t])] [node] r :=
      hr.close none (.step hw ht) (by simp)
    have further := ih.predicates axis.isReverse rfl made
    rw [Layout.primary?_step hw ht] at further
    exact further

theorem predicates_succ {reverse : Bool} {node : Phrase} (ht : t.isNode) (h : Laid e unit unit p [t] [node] q) :
    (Rule.predicates e (k + 1) (t.primary?.or unit) reverse node q).Lays e unit p fun t' => t'.primary? = t.primary? := by
  simp only [Rule.predicates]
  split
  · next hb =>
    refine h.single.andThen_passes t.primary? (.inl (List.cons_ne_nil _ _)) (q.advance_passes_kind hb (by decide)) ?_ ?_
    · rintro _ - ⟨x, rfl, hx⟩
      exact ⟨_, [.blank, .lexeme Kind.rbracket.lexeme], .predicate reverse hx rfl ht rfl⟩
    · rintro - _ r ⟨x, rfl, hx⟩ - hr
      refine hr.andThen_lays t.primary? (.inl (List.cons_ne_nil _ _)) ih.operand
        (fun c hc => ⟨_, [.lexeme Kind.rbracket.lexeme], .predicate reverse hx rfl ht hc⟩)
        fun c condition r' _ hc _ hr' => ?_
      refine hr'.andThen_passes t.primary? (.inl (List.cons_ne_nil _ _)) (r'.pass_passes (by decide)) ?_ ?_
      · rintro _ - ⟨y, rfl, hy⟩
        exact ⟨_, [], .predicate reverse hx hy ht hc⟩
      · rintro - _ r'' ⟨y, rfl, hy⟩ - hr''
        have made : Laid e unit unit p [.construct t.primary? [.predicate () () reverse] [t, .lexeme x, c, .lexeme y]]
            [.predicate (r''.blame e (t.primary?.or unit)) node condition reverse] r'' :=
          hr''.close t.primary? (.predicate reverse hx hy ht hc) (by simp [Phrase.asked, Phrase.askedAll]; rfl)
        have further := ih.predicates reverse rfl made
        exact further
  · exact ⟨t, rfl, ht, h⟩

theorem filter_succ : (Rule.filter e (k + 1) unit p).Lays e unit p fun t => t.primary?.isSome := by
  refine ih.primary.andThen fun t node q hP ht hq => ?_
  have further := ih.predicates false ht hq
  rw [hP] at further
  rw [hq.window]
  exact further.imp fun t' h => by rw [h]; rfl

omit ih in
theorem variable_succ (hd : p.kind = .dollar) :
    (Rule.primary e (k + 1) unit p).Lays e unit p fun t => t.primary? = some (.across t.source) := by
  simp only [Rule.primary, hd]
  refine (Laid.nil e unit _ p).andThen_passes none (.inr rfl) (p.advance_passes_kind hd (by decide)) ?_ ?_
  · rintro _ - ⟨x, rfl, hx⟩
    exact ⟨_, [.lexeme Kind.name.lexeme], .reference hx rfl⟩
  rintro - _ q ⟨x, rfl, hx⟩ hpassed hq
  rcases Place.expect_cases e q .name with ⟨hk, hexpect⟩ | ⟨cause, hc, hexpect⟩
  · obtain ⟨l, ls, hls, hl⟩ := Place.eq_cons_of_kind hk (by decide)
    obtain ⟨r, hr, hadvance⟩ := Place.advance_cases (e := e) hls
    have made : Laid e unit unit p [.construct none [.variable l.name.qualifier? l.name.base] [.lexeme x, .lexeme l]]
        [.variable ⟨(p.span e).start, (q.span e).stop⟩ q.name.qualifier? q.name.base] r := by
      refine (hq.lexemes hr (.inr rfl)).close none (.reference hx hl) ?_
      rw [Place.span_of_ahead hpassed.ahead, Place.span_of_ahead hls, Place.name_of_ahead hls]
      rfl
    rw [hexpect, Outcome.andThen_read]
    rcases hadvance with hread | ⟨f, hf, hbroken⟩
    · rw [hread]
      exact ⟨_, rfl, rfl, made⟩
    · rw [hbroken]
      exact ⟨_, rfl, made.cut (.inl hf)⟩
  · rw [hexpect]
    exact Laid.lays_broken none (hq.cut (.inr fun step hstep => absurd hstep (hc step)))
      ⟨_, [.lexeme Kind.name.lexeme], .reference hx rfl⟩

theorem call_lays : ((p.pass e .name).andThen [] fun _ q => (q.pass e .lparen).andThen [] fun _ q =>
    (Rule.arguments e k unit q).andThen [] fun args q => (q.advance e).andThen args fun _ q =>
      .read (.function ⟨(p.span e).start, q.last⟩ p.name.qualifier? p.name.base args) q).Lays e unit p
        fun t => t.primary? = some (.across t.source) := by
  have forms : ∀ {l x y : Lexeme} {ts : List Layout} {n : Nat}, l.kind = .name → x.kind = .lparen → y.kind = .rparen →
      (ts = [] ∧ n = 0 ∨ Arguments ts n) → Forms none _ ([.lexeme l, .lexeme x] ++ ts ++ [.lexeme y]) :=
    fun hl hx hy hts => .function hl hx hy hts
  have started : ∀ {l x : Lexeme}, l.kind = .name → x.kind = .lparen → Completes none [.lexeme l, .lexeme x] :=
    fun hl hx => ⟨_, [.lexeme Kind.rparen.lexeme], forms hl hx rfl (.inl ⟨rfl, rfl⟩)⟩
  refine (Laid.nil e unit _ p).andThen_passes none (.inr rfl) (p.pass_passes (by decide)) ?_ ?_
  · rintro _ - ⟨l, rfl, hl⟩
    exact ⟨_, [.lexeme Kind.lparen.lexeme, .lexeme Kind.rparen.lexeme], forms hl rfl rfl (.inl ⟨rfl, rfl⟩)⟩
  rintro - _ q ⟨l, rfl, hl⟩ hpassed hq
  refine hq.andThen_passes none (.inr rfl) (q.pass_passes (by decide)) ?_ ?_
  · rintro _ - ⟨x, rfl, hx⟩
    exact started hl hx
  rintro - _ r ⟨x, rfl, hx⟩ - hr
  have arguments : (Rule.arguments e k unit r).LaysArguments e unit r _ := ih.arguments
  cases ho : Rule.arguments e k unit r with
  | broken done f =>
    rw [ho] at arguments
    obtain ⟨ts, more, n, hS, hcut⟩ := arguments
    have complete := (forms (y := Kind.rparen.lexeme) hl hx rfl hS).completes
    rw [← List.append_assoc, List.append_assoc _ more] at complete
    exact Laid.lays_broken none (hr.cut_append hcut (.inr rfl)) complete.front
  | read args r' =>
    rw [ho] at arguments
    obtain ⟨ts, hS, hlaid⟩ := arguments
    rw [Outcome.andThen_read]
    refine (hr.append hlaid (.inr rfl)).andThen_passes none (.inr rfl)
      (r'.advance_passes_kind (InSteps.arguments_kind ho) (by decide)) ?_ ?_
    · rintro _ - ⟨y, rfl, hy⟩
      exact (forms hl hx hy hS).completes
    · rintro - _ r'' ⟨y, rfl, hy⟩ - hr''
      refine ⟨_, rfl, rfl, hr''.close none (forms hl hx hy hS) ?_⟩
      have window := hr''.passed.window (List.cons_ne_nil _ _) e
      rw [window, Place.name_of_ahead hpassed.ahead, Phrase.askedAll_singleton, Phrase.asked, List.map_const']
      rfl

theorem primary_succ : (Rule.primary e (k + 1) unit p).Lays e unit p fun t => t.primary? = some (.across t.source) := by
  by_cases hd : p.kind = .dollar
  · exact variable_succ hd
  by_cases hs : p.kind = .string
  · obtain ⟨l, ls, hls, hl⟩ := Place.eq_cons_of_kind hs (by decide)
    simp only [Rule.primary, hs]
    refine literal_lays hls (.string hl) (fun behind => ?_) rfl
    rw [Phrase.asked, Place.content, Place.text_of_ahead hls, Place.blame, Place.span_of_ahead hls]
    rfl
  by_cases hn : p.kind = .number
  · obtain ⟨l, ls, hls, hl⟩ := Place.eq_cons_of_kind hn (by decide)
    simp only [Rule.primary, hn]
    refine literal_lays hls (.number hl) (fun behind => ?_) rfl
    rw [Phrase.asked, Place.text_of_ahead hls, Place.blame, Place.span_of_ahead hls]
    rfl
  by_cases hl : p.kind = .lparen
  · simp only [Rule.primary, hl]
    refine (Laid.nil e unit _ p).andThen_passes none (.inr rfl) (p.advance_passes_kind hl (by decide)) ?_ ?_
    · rintro _ - ⟨x, rfl, hx⟩
      exact ⟨_, [.blank, .lexeme Kind.rparen.lexeme], .parens hx rfl rfl⟩
    rintro - _ q ⟨x, rfl, hx⟩ - hq
    refine hq.andThen_lays none (.inr rfl) ih.operand
      (fun t ht => ⟨_, [.lexeme Kind.rparen.lexeme], .parens hx rfl ht⟩) fun t inner r _ ht _ hr => ?_
    refine hr.andThen_passes none (.inr rfl) (r.pass_passes (by decide)) ?_ ?_
    · rintro _ - ⟨y, rfl, hy⟩
      exact (Forms.parens hx hy ht).completes
    · rintro - _ r' ⟨y, rfl, hy⟩ - hr'
      exact ⟨_, Layout.primary?_parens hx, rfl, hr'.close none (.parens hx hy ht) (by simp)⟩
  · rw [primary_default hs hn hd hl]
    exact ih.call_lays

theorem arguments_succ : (Rule.arguments e (k + 1) unit p).LaysArguments e unit p
    fun ts n => ts = [] ∧ n = 0 ∨ Arguments ts n := by
  simp only [Rule.arguments]
  split
  · exact ⟨[], .inl ⟨rfl, rfl⟩, .nil e unit unit p⟩
  · exact ih.someArguments.imp fun _ _ => .inr

theorem someArguments_succ : (Rule.someArguments e (k + 1) unit p).LaysArguments e unit p Arguments := by
  simp only [Rule.someArguments]
  have first : (Rule.operand e k unit 0 p).Lays e unit p fun _ => True := ih.operand
  cases ho : Rule.operand e k unit 0 p with
  | broken done f =>
    rw [ho] at first
    obtain ⟨t, ht, hcut⟩ := first
    exact ⟨[t], [], 1, .last ht, hcut⟩
  | read arg q =>
    rw [ho] at first
    obtain ⟨t, -, ht, hq⟩ := first
    rw [Outcome.andThen_read]
    split
    · next hc =>
      obtain ⟨x, ls, hls, hx⟩ := Place.eq_cons_of_kind hc (by decide)
      obtain ⟨r, hr, hread | ⟨f, hf, hbroken⟩⟩ := Place.advance_cases (e := e) hls
      · rw [hread, Outcome.andThen_read]
        have both := hq.lexemes hr (.inr rfl)
        have others : (Rule.someArguments e k unit r).LaysArguments e unit r Arguments := ih.someArguments
        cases hs : Rule.someArguments e k unit r with
        | read args r' =>
          rw [hs] at others
          obtain ⟨ts, hS, hlaid⟩ := others
          exact ⟨_, .more ht hx hS, both.append hlaid (.inr rfl)⟩
        | broken done f =>
          rw [hs] at others
          obtain ⟨ts, more, n, hS, hcut⟩ := others
          exact ⟨_, more, n + 1, .more ht hx hS, both.cut_append hcut (.inr rfl)⟩
      · rw [hbroken]
        exact ⟨_, [.blank], 2, .more ht hx (.last rfl), (hq.lexemes hr (.inr rfl)).cut (.inl hf)⟩
    · rcases Place.expect_cases e q .rparen with ⟨hk, hexpect⟩ | ⟨cause, hc, hexpect⟩
      · rw [hexpect]
        exact ⟨[t], .last ht, hq⟩
      · rw [hexpect]
        exact ⟨[t], [], 1, .last ht, hq.cut (.inr fun step hstep => absurd hstep (hc step))⟩

end LaysOut

theorem LaysOut.zero : LaysOut 0 where
  operand := by
    simp only [Rule.operand]
    exact .fault fun _ => by simp
  operators ht h := by
    simp only [Rule.operators]
    exact ⟨_, ht, h.cut (.inr fun _ => by simp)⟩
  union := .fault fun _ => by simp
  members ht h := ⟨_, ht, h.cut (.inr fun _ => by simp)⟩
  path := .fault fun _ => by simp
  location := .fault fun _ => by simp
  relative := .fault fun _ => by simp
  steps ht h := ⟨_, ht, h.cut (.inr fun _ => by simp)⟩
  step := .fault fun _ => by simp
  predicates reverse _ _ _ _ _ _ ht h := by
    simp only [Rule.predicates]
    exact ⟨_, ht, h.cut (.inr fun _ => by simp)⟩
  filter := .fault fun _ => by simp
  primary := .fault fun _ => by simp
  arguments := ⟨[], [], 0, .inl ⟨rfl, rfl⟩, (Laid.nil _ _ _ _).cut (.inr fun _ => by simp)⟩
  someArguments := ⟨[], [.blank], 1, .last rfl, (Laid.nil _ _ _ _).cut (.inr fun _ => by simp)⟩

/-- **The rules lay out what they read.** -/
theorem laysOut : ∀ k, LaysOut k
  | 0 => .zero
  | k + 1 =>
    have ih := laysOut k
    { operand := ih.operand_succ
      operators := ih.operators_succ
      union := ih.union_succ
      members := ih.members_succ
      path := ih.path_succ
      location := ih.location_succ
      relative := ih.relative_succ
      steps := ih.steps_succ
      step := ih.step_succ
      predicates _ := ih.predicates_succ
      filter := ih.filter_succ
      primary := ih.primary_succ
      arguments := ih.arguments_succ
      someArguments := ih.someArguments_succ }

end Rule

/-! ## A whole text -/

/-- What a builder will be asked for: for the phrase that was read, or for those that were complete. -/
def Outcome.asked : Outcome Phrase → List (Call Unit × Span)
  | read phrase _ => phrase.asked
  | broken done _ => Phrase.askedAll done

/-- The layout shows how a scan was read as far as that is, up to the lexemes `rest`. -/
structure Outcome.LaidOut (s : Scan) (o : Outcome Phrase) (t : Layout) (rest : List Lexeme) : Prop where
  source : s.lexemes = t.source ++ rest
  proper : t.Proper
  asked : (t.sites none [] rest).map (Site.asked s.ending) = o.asked
  fault : ∀ done f, o = .broken done f → s.ending = .faulty f ∨ f.FollowsStep s.lexemes

theorem CutShort.laidOut {m : Nat} {s : Scan} {t : Layout} {done : List Phrase} {f : Fault}
    (h : CutShort s.ending none none ⟨m, s.lexemes⟩ [t] done f) : ∃ rest, (Outcome.broken done f).LaidOut s t rest := by
  obtain ⟨rest, hr, hasked⟩ := h.asked
  rw [Layout.sources_singleton] at hr
  refine ⟨rest, hr, h.proper t List.mem_cons_self, ?_, fun _ _ hf => ?_⟩
  · rw [← Layout.sitesOf_singleton none none]
    exact hasked []
  · cases hf
    exact h.fault

/-- **A text is laid out as far as it can be read**, and what is asked for are the calls of the layout. -/
theorem Phrase.ofScan_laidOut (m : Nat) (s : Scan) : ∃ t rest, (ofScan m s).LaidOut s t rest := by
  by_cases hs : Place.Stands s.ending ⟨m, s.lexemes⟩
  · have lays : (Rule.operand s.ending (Rule.fuel s.lexemes.length) none 0 ⟨m, s.lexemes⟩).Lays s.ending none
        ⟨m, s.lexemes⟩ fun _ => True := (Rule.laysOut _).operand
    rw [ofScan_eq hs]
    cases ho : Rule.operand s.ending (Rule.fuel s.lexemes.length) none 0 ⟨m, s.lexemes⟩ with
    | broken done f =>
      rw [ho] at lays
      obtain ⟨t, -, hcut⟩ := lays
      exact ⟨t, hcut.laidOut⟩
    | read phrase q =>
      rw [ho] at lays
      obtain ⟨t, -, -, hlaid⟩ := lays
      rw [Outcome.andThen_read]
      rcases Place.expect_cases s.ending q .eof with ⟨-, hexpect⟩ | ⟨cause, hc, hexpect⟩
      · have source := hlaid.passed.ahead
        have asked := hlaid.asked []
        rw [Layout.sources_singleton] at source
        rw [Layout.sitesOf_singleton, Phrase.askedAll_singleton] at asked
        rw [hexpect]
        exact ⟨t, q.ahead, source, hlaid.proper t List.mem_cons_self, asked, nofun⟩
      · rw [hexpect]
        exact ⟨t, (hlaid.cut (.inr fun step hstep => absurd hstep (hc step))).laidOut⟩
  · obtain ⟨f, rfl, hbroken⟩ := ofScan_faulty hs
    rw [hbroken]
    have nothing := (Laid.nil (.faulty f) none none ⟨m, []⟩).cut (f := f) (.inl rfl)
    exact ⟨.blank, (nothing.close none ⟨_, _, .string (l := Kind.string.lexeme) rfl⟩).laidOut (s := ⟨[], .faulty f⟩)⟩

end StylesheetReversal.Path