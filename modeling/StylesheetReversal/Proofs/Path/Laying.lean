import StylesheetReversal.Proofs.Path.Layout
import StylesheetReversal.Proofs.Path.Parsing
/-!
# Laying out

What it takes to lay out lexemes while they are read.  A reading passes lexemes (`Outcome.Passes`) or comes to a phrase that
is laid out as one construct (`Outcome.Lays`).  Either is a part of the construct that is being read, which makes its calls
when it is complete (`Laid.close`) and stays unfinished when something breaks (`CutShort.close`).

The windows that the parser blames for the calls are those of the sites of the layout.
-/
namespace StylesheetReversal.Path

variable {α β : Type}

mutual

/-- The calls for a phrase in order, with the window to blame for each. -/
def Phrase.asked : Phrase → List (Call Unit × Span)
  | .string blame value => [(.string value, blame)]
  | .number blame text => [(.number text, blame)]
  | .binary blame op left right => left.asked ++ right.asked ++ [(.operator op (some ()) (some ()), blame)]
  | .negation blame inner => inner.asked ++ [(.operator .unaryMinus (some ()) none, blame)]
  | .axis blame along kind qualifier name => [(.axis along kind qualifier name, blame)]
  | .join blame left right => left.asked ++ right.asked ++ [(.join () (), blame)]
  | .predicate blame node condition reverse => node.asked ++ condition.asked ++ [(.predicate () () reverse, blame)]
  | .variable blame qualifier name => [(.variable qualifier name, blame)]
  | .function blame qualifier name args =>
    Phrase.askedAll args ++ [(.function qualifier name (args.map fun _ => ()), blame)]

def Phrase.askedAll : List Phrase → List (Call Unit × Span)
  | [] => []
  | p :: ps => p.asked ++ Phrase.askedAll ps

end

theorem Phrase.askedAll_append (ps qs : List Phrase) : askedAll (ps ++ qs) = askedAll ps ++ askedAll qs := by
  induction ps with
  | nil => rfl
  | cons p ps ih => rw [List.cons_append, askedAll, askedAll, ih, List.append_assoc]

theorem Phrase.askedAll_singleton (p : Phrase) : askedAll [p] = p.asked := List.append_nil _

def DottedStep.kind : DottedStep → Kind
  | .dot => .dot
  | .dotDot => .dotDot

/-- A fault of a predicate behind `.` or `..` is at a bracket among the lexemes, and the lexeme before it is that step. -/
def Fault.FollowsStep (f : Fault) (ls : List Lexeme) : Prop :=
  ∀ step, f.cause = .predicateAfterDottedStep step →
    ∃ front l x back, ls = front ++ l :: x :: back ∧ l.kind = step.kind ∧ x.kind = .lbracket ∧ f.span = x.span

theorem Fault.FollowsStep.append {f : Fault} {ls : List Lexeme} (h : f.FollowsStep ls) (w : List Lexeme) :
    f.FollowsStep (w ++ ls) := by
  intro step hstep
  obtain ⟨front, l, x, back, rfl, hl, hx, hspan⟩ := h step hstep
  exact ⟨w ++ front, l, x, back, (List.append_assoc ..).symm, hl, hx, hspan⟩

/-! ## Passing lexemes -/

/-- The place stands behind some of the lexemes ahead. -/
structure Place.Passed (p : Place) (w : List Lexeme) (q : Place) : Prop where
  ahead : p.ahead = w ++ q.ahead
  last : q.last = if w = [] then p.last else (Span.across w).stop

namespace Place.Passed

variable {p q r : Place} {v w : List Lexeme}

theorem refl (p : Place) : p.Passed [] p := ⟨rfl, rfl⟩

theorem trans (h : p.Passed v q) (h' : q.Passed w r) : p.Passed (v ++ w) r := by
  refine ⟨by rw [h.ahead, h'.ahead, List.append_assoc], ?_⟩
  rw [h'.last, h.last]
  by_cases hw : w = []
  · rw [if_pos hw, hw, List.append_nil]
  · rw [if_neg hw, if_neg (by simp [hw]), Span.across_stop_append v hw]

/-- The window of what was passed, as the parser has it. -/
theorem window (h : p.Passed w q) (hw : w ≠ []) (e : Ending) : (⟨(p.span e).start, q.last⟩ : Span) = .across w := by
  rw [span_start h.ahead hw, h.last, if_neg hw]

end Place.Passed

/-- The reading passes lexemes of which `S` holds and builds nothing.  Where it breaks, what was passed can be completed. -/
def Outcome.Passes (e : Ending) (p : Place) (S : List Lexeme → α → Prop) : Outcome α → Prop
  | read a q => ∃ w, S w a ∧ p.Passed w q
  | broken done f => done = [] ∧ (∃ w more a r, S (w ++ more) a ∧ p.ahead = w ++ r) ∧
    (e = .faulty f ∨ ∀ step, f.cause ≠ .predicateAfterDottedStep step)

/-- A lexeme of a kind, in a window that does not matter. -/
def Kind.lexeme (k : Kind) : Lexeme := ⟨k, ⟨0, 0⟩, []⟩

namespace Outcome.Passes

variable {e : Ending} {p : Place} {S : List Lexeme → α → Prop} {S' : List Lexeme → β → Prop}

theorem imp {S' : List Lexeme → α → Prop} {o : Outcome α} (h : o.Passes e p S) (hS : ∀ w a, S w a → S' w a) :
    o.Passes e p S' := by
  cases o with
  | read a q =>
    obtain ⟨w, hw, hpassed⟩ := h
    exact ⟨w, hS w a hw, hpassed⟩
  | broken done f =>
    obtain ⟨hdone, ⟨w, more, a, r, hw, hr⟩, hf⟩ := h
    exact ⟨hdone, ⟨w, more, a, r, hS _ a hw, hr⟩, hf⟩

theorem read {a : α} (h : S [] a) : (Outcome.read a p).Passes e p S := ⟨[], h, .refl p⟩

theorem fault {a : α} {v : List Lexeme} (h : S v a) {cause : Cause}
    (hc : ∀ step, cause ≠ .predicateAfterDottedStep step) : (p.fault e cause : Outcome α).Passes e p S :=
  ⟨rfl, ⟨[], v, a, p.ahead, h, rfl⟩, .inr hc⟩

theorem andThen {o : Outcome α} {next : α → Place → Outcome β} (h : o.Passes e p S)
    (hn : ∀ a w q, S w a → p.Passed w q → (next a q).Passes e q fun v b => S' (w ++ v) b)
    (completes : ∀ w a, S w a → ∃ more b, S' (w ++ more) b) : (o.andThen [] next).Passes e p S' := by
  cases o with
  | broken done f =>
    obtain ⟨rfl, ⟨w, more, a, r, hw, hr⟩, hf⟩ := h
    obtain ⟨more', b, hb⟩ := completes _ a hw
    exact ⟨rfl, ⟨w, more ++ more', b, r, by rwa [← List.append_assoc], hr⟩, hf⟩
  | read a q =>
    obtain ⟨w, hw, hpassed⟩ := h
    have further := hn a w q hw hpassed
    rw [andThen_read]
    cases hnext : next a q with
    | read b q' =>
      rw [hnext] at further
      obtain ⟨v, hv, hpassed'⟩ := further
      exact ⟨w ++ v, hv, hpassed.trans hpassed'⟩
    | broken done f =>
      rw [hnext] at further
      obtain ⟨hdone, ⟨v, more, b, r, hv, hr⟩, hf⟩ := further
      refine ⟨hdone, ⟨w ++ v, more, b, r, by rwa [List.append_assoc], ?_⟩, hf⟩
      rw [hpassed.ahead, hr, List.append_assoc]

/-- What is known already of the lexemes passed holds of them. -/
theorem meets {o : Outcome α} {L : List Token → α → Kind → Prop} {moves : Prop} {alt : Ending → Place → Outcome α}
    (h : o.Passes e p fun _ _ => True) (hm : o.Meets e p L moves alt) :
    o.Passes e p fun w a => ∃ k, L (w.map Lexeme.token) a k := by
  cases o with
  | read a q =>
    obtain ⟨w, -, hpassed⟩ := h
    obtain ⟨v, hv, -, -, hL, -⟩ := hm
    obtain rfl : w = v := List.append_cancel_right (hpassed.ahead.symm.trans hv)
    exact ⟨w, ⟨_, hL⟩, hpassed⟩
  | broken done f =>
    obtain ⟨hdone, -, hf⟩ := h
    obtain ⟨v, r, hv, -, -, ⟨z, a, k, hL⟩, -⟩ := hm
    refine ⟨hdone, ⟨v, z.map Token.lexeme, a, r, ⟨k, ?_⟩, hv⟩, hf⟩
    rwa [List.map_append, Token.map_lexeme]

end Outcome.Passes

namespace Place

variable {e : Ending} {p : Place} {l : Lexeme} {ls : List Lexeme}

theorem advance_cases (hp : p.ahead = l :: ls) : ∃ q, p.Passed [l] q ∧
    (p.advance e = .read () q ∨ ∃ f, e = .faulty f ∧ p.advance e = .broken [] f) := by
  obtain ⟨n, _⟩ := p
  subst hp
  refine ⟨⟨l.span.stop, ls⟩, ⟨rfl, rfl⟩, ?_⟩
  cases ls with
  | cons l' ls => exact .inl rfl
  | nil =>
    cases e with
    | atEnd m => exact .inl rfl
    | faulty f => exact .inr ⟨f, rfl, rfl⟩

theorem advance_passes_kind {k : Kind} (hk : p.kind = k) (hne : k ≠ .eof) :
    (p.advance e).Passes e p fun w _ => ∃ x : Lexeme, w = [x] ∧ x.kind = k := by
  obtain ⟨l, ls, hl, hlk⟩ := eq_cons_of_kind hk hne
  obtain ⟨q, hq, hread | ⟨f, rfl, hbroken⟩⟩ := advance_cases (e := e) hl
  · rw [hread]
    exact ⟨[l], ⟨l, rfl, hlk⟩, hq⟩
  · rw [hbroken]
    exact ⟨rfl, ⟨[l], [], (), q.ahead, ⟨l, rfl, hlk⟩, hq.ahead⟩, .inl rfl⟩

theorem expect_cases (e : Ending) (p : Place) (k : Kind) : (p.kind = k ∧ p.expect e k = .read () p) ∨
    ∃ cause, (∀ step, cause ≠ .predicateAfterDottedStep step) ∧ p.expect e k = p.fault e cause := by
  unfold expect
  by_cases hk : p.kind = k
  · exact .inl ⟨hk, if_pos hk⟩
  · rw [if_neg hk]
    split
    · exact .inr ⟨_, fun _ => by simp, rfl⟩
    · exact .inr ⟨_, fun _ => by simp, rfl⟩

theorem pass_passes {k : Kind} (hne : k ≠ .eof) :
    (p.pass e k).Passes e p fun w _ => ∃ x : Lexeme, w = [x] ∧ x.kind = k := by
  unfold pass
  rcases expect_cases e p k with ⟨hk, hp⟩ | ⟨cause, hc, hp⟩
  · rw [hp]
    exact advance_passes_kind hk hne
  · rw [hp]
    exact .fault (a := ()) (v := [k.lexeme]) ⟨_, rfl, rfl⟩ hc

end Place

/-! ## Laying out -/

/-- The parts of a construct that is not complete yet can be completed. -/
def Completes (own : Option Span) (parts : List Layout) : Prop := ∃ calls more, Forms own calls (parts ++ more)

/-- What stands for a construct of which nothing has been read. -/
def Layout.blank : Layout := .unfinished none []

/-- From one place to another some parts were read, of which the first belongs to another unit than the rest, and
the phrases `held` are what they ask for. -/
structure Laid (e : Ending) (first rest : Option Span) (p : Place) (parts : List Layout) (held : List Phrase) (q : Place) :
    Prop where
  passed : p.Passed (Layout.sources parts) q
  proper : ∀ t ∈ parts, t.Proper
  finished : ∀ t ∈ parts, t.isFinished
  asked : ∀ around, (Layout.sitesOf first rest around q.ahead parts).map (Site.asked e) = Phrase.askedAll held

/-- From a place some parts were read, and then came a fault.  The last part may be unfinished. -/
structure CutShort (e : Ending) (first rest : Option Span) (p : Place) (parts : List Layout) (held : List Phrase)
    (f : Fault) : Prop where
  proper : ∀ t ∈ parts, t.Proper
  finished : ∀ t ∈ parts.dropLast, t.isFinished
  asked : ∃ r, p.ahead = Layout.sources parts ++ r ∧
    ∀ around, (Layout.sitesOf first rest around r parts).map (Site.asked e) = Phrase.askedAll held
  fault : e = .faulty f ∨ f.FollowsStep p.ahead

section

variable {e : Ending} {unit first rest : Option Span} {p q r : Place} {parts more : List Layout}
  {held held' : List Phrase} {f : Fault} {t : Layout} {phrase : Phrase}

theorem Forms.completes {own : Option Span} {calls : List (Call Unit)} (h : Forms own calls parts) : Completes own parts :=
  ⟨calls, [], by rwa [List.append_nil]⟩

theorem Completes.front {own : Option Span} (h : Completes own (parts ++ more)) : Completes own parts := by
  obtain ⟨calls, ts, h⟩ := h
  exact ⟨calls, more ++ ts, by rwa [← List.append_assoc]⟩

namespace Laid

theorem nil (e : Ending) (first rest : Option Span) (p : Place) : Laid e first rest p [] [] p :=
  ⟨.refl p, nofun, nofun, fun _ => rfl⟩

/-- A single part belongs to the unit of the first. -/
theorem single {rest' : Option Span} (h : Laid e first rest p [t] held q) : Laid e first rest' p [t] held q :=
  ⟨h.passed, h.proper, h.finished, h.asked⟩

/-- The window of a single part, as the parser has it. -/
theorem window (h : Laid e first rest p [t] held q) : (⟨(p.span e).start, q.last⟩ : Span) = .across t.source := by
  have passed := h.passed
  rw [Layout.sources_singleton] at passed
  exact passed.window ((h.proper t List.mem_cons_self).source_ne_nil (h.finished t List.mem_cons_self)) e

theorem append (h : Laid e first rest p parts held q) (h' : Laid e rest rest q more held' r)
    (hp : parts ≠ [] ∨ first = rest) : Laid e first rest p (parts ++ more) (held ++ held') r where
  passed := by
    rw [Layout.sources_append]
    exact h.passed.trans h'.passed
  proper := List.forall_mem_append.2 ⟨h.proper, h'.proper⟩
  finished := List.forall_mem_append.2 ⟨h.finished, h'.finished⟩
  asked around := by
    rw [Layout.sitesOf_append rest around r.ahead more hp, ← h'.passed.ahead, List.map_append, h.asked, h'.asked,
      Phrase.askedAll_append]

theorem lexemes {w : List Lexeme} (h : Laid e first rest p parts held q) (hw : q.Passed w r)
    (hp : parts ≠ [] ∨ first = rest) : Laid e first rest p (parts ++ w.map .lexeme) held r := by
  have added : Laid e rest rest q (w.map .lexeme) [] r := by
    refine ⟨by rwa [Layout.sources_lexemes], ?_, ?_, fun around => ?_⟩
    · simp only [List.forall_mem_map]
      exact fun l _ => .lexeme l
    · simp only [List.forall_mem_map]
      exact fun _ _ => rfl
    · rw [Layout.sitesOf_lexemes]
      rfl
  have both := h.append added hp
  rwa [List.append_nil] at both

/-- **A construct is complete** when its parts are, and then it makes its calls. -/
theorem close (own : Option Span) {calls : List (Call Unit)} {made : List Phrase}
    (h : Laid e unit (own.or unit) p parts held q) (forms : Forms own calls parts)
    (asks : Phrase.askedAll made =
      Phrase.askedAll held ++ calls.map fun c => (c, c.window e (own.or unit) q.ahead parts)) :
    Laid e unit rest p [.construct own calls parts] made q where
  passed := by
    rw [Layout.sources_singleton]
    exact h.passed
  proper := List.forall_mem_singleton.2 (.construct forms h.proper h.finished)
  finished := List.forall_mem_singleton.2 rfl
  asked around := by
    rw [Layout.sitesOf_singleton, Layout.sites, List.map_append, h.asked, asks, List.map_map]
    rfl

theorem cut (h : Laid e first rest p parts held q) (hf : e = .faulty f ∨ f.FollowsStep p.ahead) :
    CutShort e first rest p parts held f :=
  ⟨h.proper, fun t ht => h.finished t (List.dropLast_subset _ ht), ⟨q.ahead, h.passed.ahead, h.asked⟩, hf⟩

theorem cut_append (h : Laid e first rest p parts held q) (h' : CutShort e rest rest q more held' f)
    (hp : parts ≠ [] ∨ first = rest) : CutShort e first rest p (parts ++ more) (held ++ held') f where
  proper := List.forall_mem_append.2 ⟨h.proper, h'.proper⟩
  finished := by
    by_cases hm : more = []
    · rw [hm, List.append_nil]
      exact fun t ht => h.finished t (List.dropLast_subset _ ht)
    · rw [List.dropLast_append_of_ne_nil hm]
      exact List.forall_mem_append.2 ⟨h.finished, h'.finished⟩
  asked := by
    obtain ⟨r, hr, hasked⟩ := h'.asked
    refine ⟨r, ?_, fun around => ?_⟩
    · rw [h.passed.ahead, hr, Layout.sources_append, List.append_assoc]
    · rw [Layout.sitesOf_append rest around r more hp, ← hr, List.map_append, h.asked, hasked, Phrase.askedAll_append]
  fault := by
    refine h'.fault.imp_right fun hf => ?_
    rw [h.passed.ahead]
    exact hf.append _

end Laid

/-- What is cut short is an unfinished construct. -/
theorem CutShort.close (own : Option Span) (h : CutShort e unit (own.or unit) p parts held f)
    (completes : Completes own parts) :
    CutShort e unit rest p [.unfinished own parts] held f where
  proper := by
    obtain ⟨calls, more, forms⟩ := completes
    exact List.forall_mem_singleton.2 (.unfinished forms h.proper h.finished)
  finished := nofun
  asked := by
    obtain ⟨r, hr, hasked⟩ := h.asked
    refine ⟨r, by rwa [Layout.sources_singleton], fun around => ?_⟩
    rw [Layout.sitesOf_singleton]
    exact hasked _
  fault := h.fault

end

/-! ## Outcomes -/

/-- What is read from a place is laid out as one construct, of which `P` holds if it is complete. -/
def Outcome.Lays (e : Ending) (unit : Option Span) (p : Place) (P : Layout → Prop) : Outcome Phrase → Prop
  | read phrase q => ∃ t, P t ∧ t.isNode ∧ Laid e unit unit p [t] [phrase] q
  | broken done f => ∃ t, t.isNode ∧ CutShort e unit unit p [t] done f

/-- The same for arguments. -/
def Outcome.LaysArguments (e : Ending) (unit : Option Span) (p : Place) (S : List Layout → Nat → Prop) :
    Outcome (List Phrase) → Prop
  | read args q => ∃ ts, S ts args.length ∧ Laid e unit unit p ts args q
  | broken done f => ∃ ts more n, S (ts ++ more) n ∧ CutShort e unit unit p ts done f

theorem Outcome.LaysArguments.imp {e : Ending} {unit : Option Span} {p : Place} {S S' : List Layout → Nat → Prop}
    {o : Outcome (List Phrase)} (h : o.LaysArguments e unit p S) (hS : ∀ ts n, S ts n → S' ts n) :
    o.LaysArguments e unit p S' := by
  cases o with
  | read args q =>
    obtain ⟨ts, hts, h⟩ := h
    exact ⟨ts, hS _ _ hts, h⟩
  | broken done f =>
    obtain ⟨ts, more, n, hts, h⟩ := h
    exact ⟨ts, more, n, hS _ _ hts, h⟩

namespace Laid

variable {e : Ending} {unit : Option Span} {p q : Place} {parts : List Layout} {held : List Phrase} {P : Layout → Prop}
  (own : Option Span)

/-- What breaks inside a construct leaves it unfinished. -/
theorem lays_broken {done : List Phrase} {f : Fault} (h : CutShort e unit (own.or unit) p parts done f)
    (completes : Completes own parts) : (Outcome.broken done f).Lays e unit p P :=
  ⟨.unfinished own parts, rfl, h.close own completes⟩

/-- **Lexemes as parts of a construct.** -/
theorem andThen_passes {o : Outcome α} {S : List Lexeme → α → Prop} {next : α → Place → Outcome Phrase}
    (h : Laid e unit (own.or unit) p parts held q) (hp : parts ≠ [] ∨ unit = own.or unit) (ho : o.Passes e q S)
    (completes : ∀ w a, S w a → Completes own (parts ++ w.map .lexeme))
    (hn : ∀ a w r, S w a → q.Passed w r → Laid e unit (own.or unit) p (parts ++ w.map .lexeme) held r →
      (next a r).Lays e unit p P) :
    (o.andThen held next).Lays e unit p P := by
  cases o with
  | read a r =>
    obtain ⟨w, hw, hpassed⟩ := ho
    exact hn a w r hw hpassed (h.lexemes hpassed hp)
  | broken done f =>
    obtain ⟨rfl, ⟨w, more, a, r, hw, hr⟩, hf⟩ := ho
    have passed : q.Passed w ⟨if w = [] then q.last else (Span.across w).stop, r⟩ := ⟨hr, rfl⟩
    have complete := completes _ a hw
    rw [List.map_append, ← List.append_assoc] at complete
    rw [Outcome.andThen_broken, List.append_nil]
    have cut := (h.lexemes passed hp).cut (hf.imp_right fun hf step hstep => absurd hstep (hf step))
    exact lays_broken own cut complete.front

/-- **A construct as part of another.** -/
theorem andThen_lays {o : Outcome Phrase} {Q : Layout → Prop} {next : Phrase → Place → Outcome Phrase}
    (h : Laid e unit (own.or unit) p parts held q) (hp : parts ≠ [] ∨ unit = own.or unit) (ho : o.Lays e (own.or unit) q Q)
    (completes : ∀ t : Layout, t.isNode → Completes own (parts ++ [t]))
    (hn : ∀ t phrase r, Q t → t.isNode → Laid e (own.or unit) (own.or unit) q [t] [phrase] r →
      Laid e unit (own.or unit) p (parts ++ [t]) (held ++ [phrase]) r → (next phrase r).Lays e unit p P) :
    (o.andThen held next).Lays e unit p P := by
  cases o with
  | read phrase r =>
    obtain ⟨t, hQ, ht, hlaid⟩ := ho
    exact hn t phrase r hQ ht hlaid (h.append hlaid hp)
  | broken done f =>
    obtain ⟨t, ht, hcut⟩ := ho
    exact lays_broken own (h.cut_append hcut hp) (completes t ht)

end Laid

namespace Outcome.Lays

variable {e : Ending} {unit : Option Span} {p : Place} {P Q : Layout → Prop}

theorem imp {o : Outcome Phrase} (h : o.Lays e unit p P) (hP : ∀ t, P t → Q t) : o.Lays e unit p Q := by
  cases o with
  | read phrase q =>
    obtain ⟨t, ht, h⟩ := h
    exact ⟨t, hP t ht, h⟩
  | broken done f => exact h

/-- A construct that comes first is laid out before it is known what it is part of. -/
theorem andThen {o : Outcome Phrase} {next : Phrase → Place → Outcome Phrase} (h : o.Lays e unit p Q)
    (hn : ∀ t phrase q, Q t → t.isNode → Laid e unit unit p [t] [phrase] q → (next phrase q).Lays e unit p P) :
    (o.andThen [] next).Lays e unit p P := by
  cases o with
  | read phrase q =>
    obtain ⟨t, hQ, ht, hlaid⟩ := h
    exact hn t phrase q hQ ht hlaid
  | broken done f => exact h

theorem fault {cause : Cause} (hc : ∀ step, cause ≠ .predicateAfterDottedStep step) :
    (p.fault e cause : Outcome Phrase).Lays e unit p P :=
  ⟨.blank, rfl, ((Laid.nil e unit unit p).cut (.inr fun step hstep => absurd hstep (hc step))).close none
    ⟨_, _, .string (l := Kind.string.lexeme) rfl⟩⟩

end Outcome.Lays

end StylesheetReversal.Path
