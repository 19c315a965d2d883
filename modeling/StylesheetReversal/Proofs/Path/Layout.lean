import StylesheetReversal.Proofs.Path.Grammar
import StylesheetReversal.Proofs.Path.Windows
/-!
# How an expression is laid out

A `Layout` is an expression with all its lexemes, each of which is part of one construct.  The calls that a builder gets
are those of the constructs, when their parts are complete; `Layout.sites` lists them in order, with the constructs around
each and the lexemes behind it, and `Site.window` is the window that is blamed when the call is refused.

An expression that is cut short is laid out as well, with its last constructs `unfinished`.
-/
namespace StylesheetReversal.Path

/-- From the start of the first lexeme to the end of the last. -/
def Span.across (ls : List Lexeme) : Span := ⟨ls.head?.elim 0 (·.span.start), ls.getLast?.elim 0 (·.span.stop)⟩

namespace Span

theorem across_singleton (l : Lexeme) : across [l] = l.span := rfl

theorem across_start_append {a : List Lexeme} (b : List Lexeme) (ha : a ≠ []) :
    (across (a ++ b)).start = (across a).start := by
  obtain ⟨l, a, rfl⟩ := List.exists_cons_of_ne_nil ha
  rfl

theorem across_stop_append (a : List Lexeme) {b : List Lexeme} (hb : b ≠ []) :
    (across (a ++ b)).stop = (across b).stop := by
  rw [across, across, List.getLast?_append, List.getLast?_eq_some_getLast hb]
  rfl

end Span

theorem Place.span_of_ahead {e : Ending} {p : Place} {l : Lexeme} {ls : List Lexeme} (h : p.ahead = l :: ls) :
    p.span e = l.span := by
  obtain ⟨n, _⟩ := p
  subst h
  rfl

theorem Place.text_of_ahead {p : Place} {l : Lexeme} {ls : List Lexeme} (h : p.ahead = l :: ls) : p.text = l.text := by
  obtain ⟨n, _⟩ := p
  subst h
  rfl

theorem Place.name_of_ahead {p : Place} {l : Lexeme} {ls : List Lexeme} (h : p.ahead = l :: ls) : p.name = l.name :=
  congrArg WrittenName.ofChars (text_of_ahead h)

theorem Place.span_start {e : Ending} {p : Place} {w r : List Lexeme} (h : p.ahead = w ++ r) (hw : w ≠ []) :
    (p.span e).start = (Span.across w).start := by
  obtain ⟨n, _⟩ := p
  obtain ⟨l, w, rfl⟩ := List.exists_cons_of_ne_nil hw
  cases h
  rfl

/-! ## Layouts -/

/-- A lexeme, or a construct with its parts in order.  A construct makes its `calls` when its parts are complete: most
make one, `//` makes two at once, parentheses make none.  A construct that starts with a filter expression has the window
of that as the unit `own`, to which all parts but the first belong. -/
inductive Layout
  | lexeme (l : Lexeme)
  | construct (own : Option Span) (calls : List (Call Unit)) (parts : List Layout)
  | unfinished (own : Option Span) (parts : List Layout)

namespace Layout

mutual

/-- The lexemes of a layout. -/
def source : Layout → List Lexeme
  | lexeme l => [l]
  | construct _ _ parts => sources parts
  | unfinished _ parts => sources parts

def sources : List Layout → List Lexeme
  | [] => []
  | t :: ts => t.source ++ sources ts

end

theorem sources_append (ts us : List Layout) : sources (ts ++ us) = sources ts ++ sources us := by
  induction ts with
  | nil => rfl
  | cons t ts ih => rw [List.cons_append, sources, sources, ih, List.append_assoc]

theorem sources_singleton (t : Layout) : sources [t] = t.source := List.append_nil _

theorem sources_lexemes (w : List Lexeme) : sources (w.map lexeme) = w := by
  induction w with
  | nil => rfl
  | cons l w ih => rw [List.map_cons, sources, source, ih, List.singleton_append]

/-- Whether the layout is that of a construct and no mere lexeme. -/
def isNode : Layout → Bool
  | lexeme _ => false
  | _ => true

/-- Whether the layout is complete. -/
def isFinished : Layout → Bool
  | unfinished .. => false
  | _ => true

/-- Whether parts start with a parenthesis of their own. -/
def startsParens : List Layout → Bool
  | lexeme x :: _ => x.kind = .lparen
  | _ => false

/-- The window of the primary expression that a filter expression starts with. -/
def primary? : Layout → Option Span
  | construct own calls parts =>
    match calls.head? with
    | some (.string _) | some (.number _) | some (.variable ..) | some (.function ..) => some (.across (sources parts))
    | some (.predicate ..) => own
    | none => if startsParens parts then some (.across (sources parts)) else none
    | _ => none
  | _ => none

/-- The window of a filter expression. -/
def filter? (t : Layout) : Option Span := t.primary?.map fun _ => .across t.source

end Layout

/-- The steps that are written as one lexeme, with the axes of which they keep every node. -/
def abbreviations : List (Kind × List Axis) :=
  [(.dot, [.self]), (.dotDot, [.parent]), (.slash, [.root]), (.slashSlash, [.root, .descendantOrSelf]),
    (.slashSlash, [.descendantOrSelf])]

theorem Layout.primary?_abbreviated {x : Lexeme} {axes : List Axis} (h : (x.kind, axes) ∈ abbreviations) :
    primary? (.construct none (axes.map fun a => .axis a .all none none) [.lexeme x]) = none := by
  simp only [abbreviations, List.mem_cons, Prod.mk.injEq, List.not_mem_nil, or_false] at h
  rcases h with ⟨-, rfl⟩ | ⟨-, rfl⟩ | ⟨-, rfl⟩ | ⟨-, rfl⟩ | ⟨-, rfl⟩ <;> rfl

/-- What can stand in front of a node test. -/
inductive Specifies : List Lexeme → Prop
  | implied : Specifies []
  | sign {x : Lexeme} : x.kind = .at → Specifies [x]
  | named {x y : Lexeme} : x.kind = .axis → y.kind = .colonColon → Specifies [x, y]

theorem Layout.primary?_parens {x : Lexeme} {parts : List Layout} (hx : x.kind = .lparen) :
    primary? (.construct none [] (.lexeme x :: parts)) = some (.across (sources (.lexeme x :: parts))) := by
  simp [primary?, startsParens, hx]

theorem Layout.primary?_step {w : List Lexeme} {t : Layout} (hw : Specifies w) (ht : t.isNode) :
    primary? (.construct none [] (w.map .lexeme ++ [t])) = none := by
  cases hw with
  | implied =>
    cases t with
    | lexeme => cases ht
    | _ => rfl
  | sign hx | named hx => simp [primary?, startsParens, hx]

/-- One or more arguments with commas between them, and how many there are. -/
inductive Arguments : List Layout → Nat → Prop
  | last {t : Layout} : t.isNode → Arguments [t] 1
  | more {t : Layout} {x : Lexeme} {ts : List Layout} {n : Nat} : t.isNode → x.kind = .comma → Arguments ts n →
    Arguments (t :: .lexeme x :: ts) (n + 1)

/-- The constructs: the parts that each consists of, and what it calls when they are complete. -/
inductive Forms : Option Span → List (Call Unit) → List Layout → Prop
  | string {l : Lexeme} : l.kind = .string → Forms none [.string (String.ofList l.content)] [.lexeme l]
  | number {l : Lexeme} : l.kind = .number → Forms none [.number (String.ofList l.text)] [.lexeme l]
  | reference {x l : Lexeme} : x.kind = .dollar → l.kind = .name →
    Forms none [.variable l.name.qualifier? l.name.base] [.lexeme x, .lexeme l]
  | parens {x y : Lexeme} {t : Layout} : x.kind = .lparen → y.kind = .rparen → t.isNode →
    Forms none [] [.lexeme x, t, .lexeme y]
  | function {l x y : Lexeme} {args : List Layout} {n : Nat} : l.kind = .name → x.kind = .lparen → y.kind = .rparen →
    args = [] ∧ n = 0 ∨ Arguments args n →
    Forms none [.function l.name.qualifier? l.name.base (List.replicate n ())]
      (.lexeme l :: .lexeme x :: (args ++ [.lexeme y]))
  | test {a : Axis} {kind : NodeKind} {qualifier name : Option String} {w : List Lexeme} :
    Derives (.test a) (w.map Lexeme.token) (.axis a kind qualifier name) →
    Forms none [.axis a kind qualifier name] (w.map .lexeme)
  | step {w : List Lexeme} {t : Layout} : Specifies w → t.isNode → Forms none [] (w.map .lexeme ++ [t])
  | abbreviated {x : Lexeme} {axes : List Axis} : (x.kind, axes) ∈ abbreviations →
    Forms none (axes.map fun a => .axis a .all none none) [.lexeme x]
  | predicate (reverse : Bool) {x y : Lexeme} {t c : Layout} : x.kind = .lbracket → y.kind = .rbracket →
    t.isNode → c.isNode →
    Forms t.primary? [.predicate () () reverse] [t, .lexeme x, c, .lexeme y]
  | root {x : Lexeme} {t r : Layout} : x.kind = .slash → t.source = [x] → t.isNode → r.isNode →
    Forms none [.join () ()] [t, r]
  | rootDeep {x : Lexeme} {t r : Layout} : x.kind = .slashSlash → t.source = [x] → t.isNode → r.isNode →
    Forms none [.join () (), .join () ()] [t, r]
  | join {x : Lexeme} {l r : Layout} : x.kind = .slash → l.isNode → r.isNode →
    Forms l.filter? [.join () ()] [l, .lexeme x, r]
  | joinDeep {x : Lexeme} {l t r : Layout} : x.kind = .slashSlash → t.source = [x] → l.isNode → t.isNode → r.isNode →
    Forms l.filter? [.join () (), .join () ()] [l, t, r]
  | negation {x : Lexeme} {t : Layout} : x.kind = .minus → t.isNode →
    Forms none [.operator .unaryMinus (some ()) none] [.lexeme x, t]
  | binary {x : Lexeme} {op : Operator} {l r : Layout} : x.kind.operator? = some op → l.isNode → r.isNode →
    Forms none [.operator op (some ()) (some ())] [l, .lexeme x, r]

/-- Every construct in a layout has its parts.  Of a construct that is unfinished some parts are there, and only the last
of them may be unfinished itself. -/
inductive Layout.Proper : Layout → Prop
  | lexeme (l : Lexeme) : Proper (.lexeme l)
  | construct {own : Option Span} {calls : List (Call Unit)} {parts : List Layout} : Forms own calls parts →
    (∀ t ∈ parts, t.Proper) → (∀ t ∈ parts, t.isFinished) → Proper (.construct own calls parts)
  | unfinished {own : Option Span} {calls : List (Call Unit)} {parts more : List Layout} : Forms own calls (parts ++ more) →
    (∀ t ∈ parts, t.Proper) → (∀ t ∈ parts.dropLast, t.isFinished) → Proper (.unfinished own parts)

/-! ## Sites -/

/-- The place of a call in a layout: the parts of the construct that makes it, the lexemes of the constructs around that
from the inside to the outside, the unit that is open there, and the lexemes behind the construct. -/
structure Site where
  call : Call Unit
  parts : List Layout
  around : List (List Lexeme)
  unit : Option Span
  behind : List Lexeme

/-- Whether some lexemes are those of a node test. -/
def startsTest (ls : List Lexeme) : Bool := ls.head?.any fun l => l.kind = .name || l.kind = .star

theorem startsTest_of_derives {a : Axis} {w : List Lexeme} {t : Expr} (h : Derives (.test a) (w.map Lexeme.token) t) :
    startsTest w = true ∧ w ≠ [] := by
  obtain ⟨x, v, hv, hx⟩ : ∃ x v, w.map Lexeme.token = x :: v ∧ (x.kind = .name ∨ x.kind = .star) := by
    generalize w.map Lexeme.token = v at h
    cases h with
    | star hx => exact ⟨_, _, rfl, .inr hx⟩
    | name hx | nodeType hx | instruction hx => exact ⟨_, _, rfl, .inl hx⟩
  obtain ⟨l, w, rfl, rfl, -⟩ := List.map_eq_cons_iff.1 hv
  refine ⟨?_, List.cons_ne_nil l w⟩
  rcases hx with hx | hx <;> simp [startsTest, show l.kind = _ from hx]

theorem startsTest_abbreviated {x : Lexeme} {axes : List Axis} (h : (x.kind, axes) ∈ abbreviations) :
    startsTest [x] = false := by
  simp only [abbreviations, List.mem_cons, Prod.mk.injEq, List.not_mem_nil, or_false] at h
  rcases h with ⟨hx, -⟩ | ⟨hx, -⟩ | ⟨hx, -⟩ | ⟨hx, -⟩ | ⟨hx, -⟩ <;> simp [startsTest, hx]

/-- The window to blame for a call.  Some constructs are units of their own: variables, functions, node tests and, as the
right operands of unions, paths.  The others belong to the unit that is open; if there is none, it is the lexeme that has
been reached, which is the literal itself or what stands behind the construct. -/
def Call.window (e : Ending) (unit : Option Span) (behind : List Lexeme) (parts : List Layout) : Call Unit → Span
  | .string _ | .number _ => unit.getD (.across (Layout.sources parts))
  | .variable .. | .function .. => .across (Layout.sources parts)
  | .operator .union _ _ => .across (parts.getLast?.elim [] Layout.source)
  | .axis .. =>
    if startsTest (Layout.sources parts) then .across (Layout.sources parts) else unit.getD (Place.span e ⟨0, behind⟩)
  | _ => unit.getD (Place.span e ⟨0, behind⟩)

theorem Call.window_operator {e : Ending} {unit : Option Span} {behind : List Lexeme} {parts : List Layout}
    {op : Operator} {left right : Option Unit} (h : op ≠ .union) :
    (Call.operator op left right).window e unit behind parts = unit.getD (Place.span e ⟨0, behind⟩) := by
  cases op <;> first | exact absurd rfl h | rfl

theorem Call.window_axis {e : Ending} {unit : Option Span} {behind : List Lexeme} {parts : List Layout} {a : Axis}
    {kind : NodeKind} {qualifier name : Option String} (h : startsTest (Layout.sources parts) = false) :
    (Call.axis a kind qualifier name).window e unit behind parts = unit.getD (Place.span e ⟨0, behind⟩) := by
  rw [window, h]
  rfl

namespace Site

/-- The lexemes of the construct. -/
def source (s : Site) : List Lexeme := Layout.sources s.parts

def window (e : Ending) (s : Site) : Span := s.call.window e s.unit s.behind s.parts

/-- What is asked for, and the window that is blamed if it is refused. -/
def asked (e : Ending) (s : Site) : Call Unit × Span := (s.call, s.window e)

end Site

namespace Layout

mutual

/-- The calls of a layout in the order in which they are made. -/
def sites (unit : Option Span) (around : List (List Lexeme)) (behind : List Lexeme) : Layout → List Site
  | lexeme _ => []
  | construct own calls parts =>
    sitesOf unit (own.or unit) (sources parts :: around) behind parts ++
      calls.map fun c => ⟨c, parts, around, own.or unit, behind⟩
  | unfinished own parts => sitesOf unit (own.or unit) (sources parts :: around) behind parts

/-- Those of the parts of a construct, of which the first belongs to another unit than the rest. -/
def sitesOf (first rest : Option Span) (around : List (List Lexeme)) (behind : List Lexeme) : List Layout → List Site
  | [] => []
  | t :: ts => t.sites first around (sources ts ++ behind) ++ sitesOf rest rest around behind ts

end

theorem sitesOf_append (unit : Option Span) (around : List (List Lexeme)) (behind : List Lexeme) (us : List Layout) :
    ∀ {first : Option Span} {ts : List Layout}, ts ≠ [] ∨ first = unit →
      sitesOf first unit around behind (ts ++ us) =
        sitesOf first unit around (sources us ++ behind) ts ++ sitesOf unit unit around behind us
  | _, [], .inr rfl => rfl
  | first, t :: ts, _ => by
    rw [List.cons_append, sitesOf, sitesOf, sitesOf_append unit around behind us (.inr rfl), sources_append,
      List.append_assoc, List.append_assoc]

theorem sitesOf_singleton (first rest : Option Span) (around : List (List Lexeme)) (behind : List Lexeme) (t : Layout) :
    sitesOf first rest around behind [t] = t.sites first around behind := List.append_nil _

theorem sitesOf_lexemes (first rest : Option Span) (around : List (List Lexeme)) (behind : List Lexeme) :
    ∀ w : List Lexeme, sitesOf first rest around behind (w.map lexeme) = []
  | [] => rfl
  | l :: w => by
    rw [List.map_cons, sitesOf, sitesOf_lexemes rest rest around behind w]
    rfl

end Layout

/-! ## Where sites are -/

/-- The window is that of lexemes that some lexemes start with. -/
def Heads (ls : List Lexeme) (u : Span) : Prop := ∃ head, head ≠ [] ∧ head <+: ls ∧ u = .across head

theorem Heads.append {ls : List Lexeme} {u : Span} (h : Heads ls u) (more : List Lexeme) : Heads (ls ++ more) u := by
  obtain ⟨head, hne, hpre, rfl⟩ := h
  exact ⟨head, hne, hpre.trans (List.prefix_append ls more), rfl⟩

/-- Lexemes `own` with `behind` behind them stand inside other lexemes, and these in one piece among all. -/
def Encloses (all own behind outer : List Lexeme) : Prop :=
  ∃ front before after back, outer = before ++ own ++ after ∧ all = front ++ outer ++ back ∧ behind = after ++ back

namespace Encloses

variable {all own more behind outer : List Lexeme}

theorem left (h : Encloses all (own ++ more) behind outer) : Encloses all own (more ++ behind) outer := by
  obtain ⟨front, before, after, back, rfl, hall, rfl⟩ := h
  exact ⟨front, before, more ++ after, back, by simp only [List.append_assoc], hall, (List.append_assoc ..).symm⟩

theorem right (h : Encloses all (own ++ more) behind outer) : Encloses all more behind outer := by
  obtain ⟨front, before, after, back, rfl, hall, rfl⟩ := h
  exact ⟨front, before ++ own, after, back, by simp only [List.append_assoc], hall, rfl⟩

theorem self (h : Encloses all own behind outer) : Encloses all own behind own := by
  obtain ⟨front, before, after, back, rfl, rfl, rfl⟩ := h
  exact ⟨front ++ before, [], [], after ++ back, by simp, by simp only [List.append_assoc], rfl⟩

end Encloses

/-- The constructs stand in one another, the innermost with the lexemes `own`. -/
def Nested (all own behind : List Lexeme) (around : List (List Lexeme)) : Prop :=
  ∀ outer ∈ own :: around, Encloses all own behind outer

namespace Nested

variable {all own more behind : List Lexeme} {around : List (List Lexeme)}

theorem left (h : Nested all (own ++ more) behind around) : Nested all own (more ++ behind) around := by
  intro outer hmem
  rcases List.mem_cons.1 hmem with rfl | hmem
  · exact (h _ List.mem_cons_self).left.self
  · exact (h outer (List.mem_cons_of_mem _ hmem)).left

theorem right (h : Nested all (own ++ more) behind around) : Nested all more behind around := by
  intro outer hmem
  rcases List.mem_cons.1 hmem with rfl | hmem
  · exact (h _ List.mem_cons_self).right.self
  · exact (h outer (List.mem_cons_of_mem _ hmem)).right

theorem twice (h : Nested all own behind around) : Nested all own behind (own :: around) := by
  intro outer hmem
  exact h outer (by simpa only [List.mem_cons, or_self_left] using hmem)

end Nested

/-- If a unit is open, one of the constructs starts with it. -/
def Opened (around : List (List Lexeme)) (unit : Option Span) : Prop :=
  ∀ u, unit = some u → ∃ outer ∈ around, Heads outer u

namespace Opened

variable {around : List (List Lexeme)} {ls : List Lexeme} {unit : Option Span}

theorem inside (h : Opened around unit) : Opened (ls :: around) unit := by
  intro u hu
  obtain ⟨outer, hmem, hheads⟩ := h u hu
  exact ⟨outer, List.mem_cons_of_mem _ hmem, hheads⟩

theorem or {own : Option Span} (ho : ∀ u, own = some u → Heads ls u) (h : Opened around unit) :
    Opened (ls :: around) (own.or unit) := by
  intro u hu
  rcases Option.or_eq_some_iff.1 hu with hu | ⟨-, hu⟩
  · exact ⟨ls, List.mem_cons_self, ho u hu⟩
  · exact h.inside u hu

end Opened

theorem Forms.parts_ne_nil {own : Option Span} {calls : List (Call Unit)} {parts : List Layout} (h : Forms own calls parts) :
    parts ≠ [] := by
  cases h with
  | @test a kind qualifier name w h =>
    intro nothing
    rw [List.map_eq_nil_iff.1 nothing] at h
    cases h
  | step => simp
  | _ => exact List.cons_ne_nil _ _

namespace Layout

/-- What is complete has lexemes. -/
theorem Proper.source_ne_nil {t : Layout} (h : t.Proper) : t.isFinished → t.source ≠ [] := by
  induction h with
  | lexeme l => exact fun _ => List.cons_ne_nil _ _
  | @construct own calls parts forms _ finished ih =>
    intro _ nothing
    obtain ⟨t, ts, rfl⟩ := List.exists_cons_of_ne_nil forms.parts_ne_nil
    exact ih t List.mem_cons_self (finished t List.mem_cons_self) (List.append_eq_nil_iff.1 nothing).1
  | unfinished => exact nofun

theorem Proper.heads_primary {t : Layout} (h : t.Proper) : ∀ u, t.primary? = some u → Heads t.source u := by
  induction h with
  | lexeme l => exact nofun
  | unfinished => exact nofun
  | @construct own calls parts forms proper finished ih =>
    have whole : Heads (sources parts) (.across (sources parts)) :=
      ⟨_, (Proper.construct forms proper finished).source_ne_nil rfl, List.prefix_refl _, rfl⟩
    intro u hu
    cases forms with
    | string | number | reference | function =>
      cases hu
      exact whole
    | parens hx =>
      rw [primary?_parens hx] at hu
      cases hu
      exact whole
    | predicate => exact (ih _ List.mem_cons_self u hu).append _
    | step hw ht =>
      rw [primary?_step hw ht] at hu
      cases hu
    | abbreviated hx =>
      rw [primary?_abbreviated hx] at hu
      cases hu
    | _ => cases hu

theorem Proper.heads_filter {t : Layout} (h : t.Proper) {u : Span} (hu : t.filter? = some u) : Heads t.source u := by
  obtain ⟨primary, hprimary, rfl⟩ := Option.map_eq_some_iff.1 hu
  obtain ⟨head, hne, hpre, -⟩ := h.heads_primary primary hprimary
  exact ⟨t.source, fun nothing => hne (List.prefix_nil.1 (nothing ▸ hpre)), List.prefix_refl _, rfl⟩

end Layout

/-- The unit of a construct is read off what it starts with. -/
theorem Forms.heads {own : Option Span} {calls : List (Call Unit)} {t : Layout} {ts : List Layout}
    (h : Forms own calls (t :: ts)) (ht : t.Proper) {u : Span} (hu : own = some u) : Heads t.source u := by
  generalize hparts : t :: ts = parts at h
  cases h with
  | predicate =>
    cases hparts
    exact ht.heads_primary u hu
  | join | joinDeep =>
    cases hparts
    exact ht.heads_filter hu
  | _ => cases hu

/-- What is known of a site among all lexemes. -/
structure Site.Stands (all : List Lexeme) (s : Site) : Prop where
  formed : ∃ own calls, Forms own calls s.parts ∧ s.call ∈ calls
  proper : ∀ t ∈ s.parts, t.Proper
  finished : ∀ t ∈ s.parts, t.isFinished
  nested : Nested all s.source s.behind s.around
  opened : Opened (s.source :: s.around) s.unit

theorem Site.source_of_parts {s : Site} {ts : List Layout} {r : Layout} (h : s.parts = ts ++ [r]) :
    s.source = Layout.sources ts ++ r.source := by
  rw [source, h, Layout.sources_append, Layout.sources_singleton]

namespace Site.Stands

variable {all : List Lexeme} {s : Site}

theorem source_ne_nil (h : s.Stands all) : s.source ≠ [] := by
  obtain ⟨own, calls, forms, -⟩ := h.formed
  exact (Layout.Proper.construct forms h.proper h.finished).source_ne_nil rfl

theorem part_ne_nil (h : s.Stands all) {t : Layout} (ht : t ∈ s.parts) : t.source ≠ [] :=
  (h.proper t ht).source_ne_nil (h.finished t ht)

/-- The construct stands in one piece among all lexemes, in front of those behind it. -/
theorem exists_front (h : s.Stands all) : ∃ front, all = front ++ (s.source ++ s.behind) := by
  obtain ⟨front, before, after, back, hsource, hall, hbehind⟩ := h.nested s.source List.mem_cons_self
  refine ⟨front ++ before, ?_⟩
  calc all
    _ = front ++ s.source ++ back := hall
    _ = front ++ (before ++ s.source ++ after) ++ back := by rw [← hsource]
    _ = front ++ before ++ (s.source ++ s.behind) := by simp only [hbehind, List.append_assoc]

end Site.Stands

namespace Layout

/-- Wherever a layout stands, its sites stand in it. -/
def SitesStand (all : List Lexeme) (t : Layout) : Prop :=
  ∀ {unit : Option Span} {around : List (List Lexeme)} {behind : List Lexeme}, Nested all t.source behind around →
    Opened around unit → ∀ s ∈ t.sites unit around behind, s.Stands all

theorem sitesOf_stand {all : List Lexeme} : ∀ {ts : List Layout} {first rest : Option Span} {around : List (List Lexeme)}
    {behind : List Lexeme}, (∀ t ∈ ts, SitesStand all t) → Nested all (sources ts) behind around → Opened around first →
    Opened around rest → ∀ s ∈ sitesOf first rest around behind ts, s.Stands all
  | [], _, _, _, _, _, _, _, _ => by simp only [sitesOf, List.not_mem_nil, false_imp_iff, implies_true]
  | t :: ts, first, rest, around, behind, stand, nested, hfirst, hrest => by
    obtain ⟨ht, hts⟩ := List.forall_mem_cons.1 stand
    intro s hs
    rw [sitesOf] at hs
    rcases List.mem_append.1 hs with hs | hs
    · exact ht nested.left hfirst s hs
    · exact sitesOf_stand hts nested.right hrest hrest s hs

/-- **Every site of a proper layout stands in it**, in a construct that is complete. -/
theorem Proper.sites_stand {t : Layout} (h : t.Proper) (all : List Lexeme) : SitesStand all t := by
  induction h with
  | lexeme l =>
    intro unit around behind _ _ s hs
    rw [sites] at hs
    cases hs
  | @construct own calls parts forms proper finished ih =>
    intro unit around behind nested opened s hs
    have inner : Opened (sources parts :: around) (own.or unit) := by
      obtain ⟨t, ts, rfl⟩ := List.exists_cons_of_ne_nil forms.parts_ne_nil
      exact opened.or fun u hu => (forms.heads (proper t List.mem_cons_self) hu).append _
    rw [sites] at hs
    rcases List.mem_append.1 hs with hs | hs
    · exact sitesOf_stand ih nested.twice opened.inside inner s hs
    · obtain ⟨c, hc, rfl⟩ := List.mem_map.1 hs
      exact ⟨⟨own, calls, forms, hc⟩, proper, finished, nested, inner⟩
  | @unfinished own calls parts more forms proper _ ih =>
    intro unit around behind nested opened s hs
    rw [sites] at hs
    cases parts with
    | nil =>
      rw [sitesOf] at hs
      cases hs
    | cons t ts =>
      have inner : Opened (sources (t :: ts) :: around) (own.or unit) :=
        opened.or fun u hu => (forms.heads (proper t List.mem_cons_self) hu).append _
      exact sitesOf_stand ih nested.twice opened.inside inner s hs

end Layout

end StylesheetReversal.Path
