import StylesheetReversal.Proofs.Path.Rejections
/-!
# Units with windows of their own

Functions, variables, node tests and the right operands of unions are units of their own: when the call for one of them is
refused, the window is exactly that unit (`Builder.refusal_framed`), however deep the unit stands in the expression and
whatever surrounds it.
-/
namespace StylesheetReversal.Path

/-! ## Parentheses -/

/-- Every parenthesis has its counterpart. -/
inductive Balanced : List Kind → Prop
  | nil : Balanced []
  | plain {k : Kind} {ks : List Kind} : k ∉ [.lparen, .rparen] → Balanced ks → Balanced (k :: ks)
  | parens {inside ks : List Kind} : Balanced inside → Balanced ks → Balanced (.lparen :: (inside ++ .rparen :: ks))

namespace Balanced

theorem append {v w : List Kind} (hv : Balanced v) (hw : Balanced w) : Balanced (v ++ w) := by
  induction hv with
  | nil => exact hw
  | plain hk _ ih => exact .plain hk ih
  | parens hinside _ _ ih =>
    rw [List.cons_append, List.append_assoc, List.cons_append]
    exact .parens hinside ih

theorem of_specifies {w : List Lexeme} (h : Specifies w) : Balanced (w.map Lexeme.kind) := by
  cases h with
  | implied => exact .nil
  | sign hx =>
    simp only [List.map_cons, List.map_nil, hx]
    exact .plain (by decide) .nil
  | named hx hy =>
    simp only [List.map_cons, List.map_nil, hx, hy]
    exact .plain (by decide) (.plain (by decide) .nil)

theorem of_derives {a : Axis} {w : List Token} {t : Expr} (h : Derives (.test a) w t) : Balanced (w.map Token.kind) := by
  cases h with
  | star hx | name hx =>
    simp only [List.map_cons, List.map_nil, hx]
    exact .plain (by decide) .nil
  | nodeType hx _ _ hy hz =>
    simp only [List.map_cons, List.map_nil, hx, hy, hz]
    exact .plain (by decide) (.parens .nil .nil)
  | instruction hx _ _ hy hs hz =>
    simp only [List.map_cons, List.map_nil, hx, hy, hs, hz]
    have literal : Balanced [.string] := .plain (by decide) .nil
    exact .plain (by decide) (.parens literal .nil)

end Balanced

namespace Layout

/-- The kinds of the lexemes of a layout. -/
def kinds (t : Layout) : List Kind := t.source.map Lexeme.kind

def kindsOf (ts : List Layout) : List Kind := (sources ts).map Lexeme.kind

theorem kindsOf_cons (t : Layout) (ts : List Layout) : kindsOf (t :: ts) = t.kinds ++ kindsOf ts := List.map_append

theorem kindsOf_lexeme (l : Lexeme) (ts : List Layout) : kindsOf (.lexeme l :: ts) = l.kind :: kindsOf ts := rfl

theorem kindsOf_append (ts us : List Layout) : kindsOf (ts ++ us) = kindsOf ts ++ kindsOf us := by
  rw [kindsOf, sources_append, List.map_append]
  rfl

theorem balanced_single {t : Layout} (h : Balanced t.kinds) : Balanced (kindsOf [t]) := by
  rw [kindsOf_cons]
  exact h.append .nil

theorem balanced_arguments {ts : List Layout} {n : Nat} (h : Arguments ts n)
    (ih : ∀ t ∈ ts, t.isNode → Balanced t.kinds) : Balanced (kindsOf ts) := by
  induction h with
  | last ht => exact balanced_single (ih _ List.mem_cons_self ht)
  | more ht hx _ further =>
    rw [kindsOf_cons, kindsOf_lexeme, hx]
    refine (ih _ List.mem_cons_self ht).append (.plain (by decide) (further fun t hmem => ih t ?_))
    exact List.mem_cons_of_mem _ (List.mem_cons_of_mem _ hmem)

end Layout

theorem Kind.operator_plain {k : Kind} {op : Operator} (h : k.operator? = some op) : k ∉ [.lparen, .rparen] := by
  intro hk
  simp only [List.mem_cons, List.not_mem_nil, or_false] at hk
  rcases hk with rfl | rfl <;> cases h

open Layout in
/-- The parentheses of a construct are balanced if those of its parts are. -/
theorem Forms.balanced {own : Option Span} {calls : List (Call Unit)} {parts : List Layout} (h : Forms own calls parts)
    (ih : ∀ t ∈ parts, t.isNode → Balanced t.kinds) : Balanced (kindsOf parts) := by
  cases h with
  | string hl | number hl =>
    rw [kindsOf_lexeme, hl]
    exact .plain (by decide) .nil
  | reference hx hl =>
    rw [kindsOf_lexeme, kindsOf_lexeme, hx, hl]
    exact .plain (by decide) (.plain (by decide) .nil)
  | parens hx hy ht =>
    rw [kindsOf_lexeme, kindsOf_cons, kindsOf_lexeme, hx, hy]
    exact .parens (ih _ (by simp) ht) .nil
  | @function l x y args n hl hx hy hargs =>
    have inside : Balanced (kindsOf args) := by
      rcases hargs with ⟨rfl, -⟩ | hargs
      · exact .nil
      · exact balanced_arguments hargs fun t ht => ih t (by simp [ht])
    rw [kindsOf_lexeme, kindsOf_lexeme, kindsOf_append, kindsOf_lexeme, hl, hx, hy]
    exact .plain (by decide) (.parens inside .nil)
  | test h =>
    have tested := Balanced.of_derives h
    rw [List.map_map] at tested
    rw [kindsOf, sources_lexemes]
    exact tested
  | @step w t hw ht =>
    rw [kindsOf_append, kindsOf, sources_lexemes]
    exact (Balanced.of_specifies hw).append (balanced_single (ih _ (by simp) ht))
  | abbreviated hx =>
    have plain : ∀ entry ∈ abbreviations, entry.1 ∉ [.lparen, .rparen] := by decide
    exact .plain (plain _ hx) .nil
  | predicate _ hx hy ht hc =>
    rw [kindsOf_cons, kindsOf_lexeme, kindsOf_cons, kindsOf_lexeme, hx, hy]
    exact (ih _ (by simp) ht).append (.plain (by decide) ((ih _ (by simp) hc).append (.plain (by decide) .nil)))
  | root _ _ ht hr | rootDeep _ _ ht hr =>
    rw [kindsOf_cons]
    exact (ih _ (by simp) ht).append (balanced_single (ih _ (by simp) hr))
  | join hx hl hr =>
    rw [kindsOf_cons, kindsOf_lexeme, hx]
    exact (ih _ (by simp) hl).append (.plain (by decide) (balanced_single (ih _ (by simp) hr)))
  | joinDeep _ _ hl ht hr =>
    rw [kindsOf_cons, kindsOf_cons]
    exact (ih _ (by simp) hl).append ((ih _ (by simp) ht).append (balanced_single (ih _ (by simp) hr)))
  | negation hx ht =>
    rw [kindsOf_lexeme, hx]
    exact .plain (by decide) (balanced_single (ih _ (by simp) ht))
  | binary hx hl hr =>
    rw [kindsOf_cons, kindsOf_lexeme]
    exact (ih _ (by simp) hl).append (.plain (Kind.operator_plain hx) (balanced_single (ih _ (by simp) hr)))

/-- **The parentheses of a construct that is complete are balanced.** -/
theorem Layout.Proper.balanced {t : Layout} (h : t.Proper) : t.isFinished → t.isNode → Balanced t.kinds := by
  induction h with
  | lexeme l => exact fun _ => nofun
  | construct forms _ finished ih => exact fun _ _ => forms.balanced fun t ht => ih t ht (finished t ht)
  | unfinished => exact nofun

/-! ## Windows -/

/-- The window is what a refusal is to be blamed for, if the call is for a unit with a window of its own.  A function goes
from its name to the parenthesis that closes its arguments, a variable from the sign to its name, and steps that are
written as one lexeme have no node test. -/
def Site.Framed (text : String) (window : Span) (s : Site) : Prop :=
  match s.call with
  | .function qualifier name _ => ∃ l x inside y, s.source = l :: x :: (inside ++ [y]) ∧ l.kind = .name ∧ x.kind = .lparen ∧
      y.kind = .rparen ∧ Balanced (inside.map Lexeme.kind) ∧ qualifier = l.name.qualifier? ∧ name = l.name.base ∧
      window = ⟨l.span.start, y.span.stop⟩ ∧ window.Tight text
  | .variable qualifier name => ∃ x l, s.source = [x, l] ∧ x.kind = .dollar ∧ l.kind = .name ∧
      qualifier = l.name.qualifier? ∧ name = l.name.base ∧ window = ⟨x.span.start, l.span.stop⟩ ∧ window.Tight text
  | .axis along kind qualifier name =>
    (∃ x, s.source = [x] ∧ x.kind ∈ [.dot, .dotDot, .slash, .slashSlash]) ∨
      Derives (.test along) (s.source.map Lexeme.token) (.axis along kind qualifier name) ∧ window = .across s.source ∧
        window.Tight text
  | .operator .union _ _ => ∃ left x right, s.parts = [left, .lexeme x, right] ∧ x.kind = .union ∧ right.isNode ∧
      window = .across right.source ∧ window.Tight text
  | _ => True

theorem Span.across_concat (l y : Lexeme) (w : List Lexeme) : across (l :: (w ++ [y])) = ⟨l.span.start, y.span.stop⟩ := by
  rw [← List.cons_append, across, List.getLast?_concat]
  rfl

theorem Kind.operator?_eq_union {k : Kind} (h : k.operator? = some .union) : k = .union := by
  cases k <;> first | rfl | cases h

theorem Site.Stands.framed {text : String} {start : Nat} {s : Site} (h : s.Stands (scan text start).lexemes) :
    s.Framed text (s.window (scan text start).ending) := by
  obtain ⟨front, hall⟩ := h.exists_front
  have whole : (Span.across s.source).Tight text := scan_across hall h.source_ne_nil
  have last : ∀ (ts : List Layout) {r : Layout}, s.parts = ts ++ [r] → (Span.across r.source).Tight text := by
    intro ts r hparts
    have behind : (scan text start).lexemes = front ++ Layout.sources ts ++ (r.source ++ s.behind) := by
      rw [hall, Site.source_of_parts hparts]
      simp only [List.append_assoc]
    exact scan_across behind (h.part_ne_nil (by simp [hparts]))
  obtain ⟨own, calls, forms, hc⟩ := h.formed
  have balanced : ∀ t ∈ s.parts, t.isNode → Balanced t.kinds := fun t ht => (h.proper t ht).balanced (h.finished t ht)
  obtain ⟨call, parts, around, unit, behind⟩ := s
  dsimp only [Site.source] at *
  clear h hall
  cases forms with
  | string | number | predicate | root | join | negation =>
    obtain rfl := List.mem_singleton.1 hc
    trivial
  | rootDeep | joinDeep =>
    simp only [List.mem_cons, List.not_mem_nil, or_false, or_self] at hc
    subst hc
    trivial
  | parens | step => cases hc
  | reference hx hl =>
    obtain rfl := List.mem_singleton.1 hc
    exact ⟨_, _, rfl, hx, hl, rfl, rfl, rfl, whole⟩
  | @function l x y args n hl hx hy hargs =>
    obtain rfl := List.mem_singleton.1 hc
    have source : Layout.sources (.lexeme l :: .lexeme x :: (args ++ [.lexeme y])) =
        l :: x :: (Layout.sources args ++ [y]) := by
      rw [Layout.sources, Layout.sources, Layout.sources_append, Layout.sources_singleton]
      rfl
    have inside : Balanced ((Layout.sources args).map Lexeme.kind) := by
      rcases hargs with ⟨rfl, -⟩ | hargs
      · exact .nil
      · exact Layout.balanced_arguments hargs fun t ht => balanced t (by simp [ht])
    refine ⟨l, x, Layout.sources args, y, source, hl, hx, hy, inside, rfl, rfl, ?_, whole⟩
    rw [← Span.across_concat l y (x :: Layout.sources args)]
    exact congrArg Span.across source
  | @test a kind qualifier name w hd =>
    obtain rfl := List.mem_singleton.1 hc
    have starts : startsTest (Layout.sources (w.map .lexeme)) = true := by
      rw [Layout.sources_lexemes]
      exact (startsTest_of_derives hd).1
    have window : Site.window (scan text start).ending ⟨.axis a kind qualifier name, w.map .lexeme, around, unit, behind⟩ =
        .across (Layout.sources (w.map .lexeme)) := if_pos starts
    rw [window]
    refine .inr ⟨?_, rfl, whole⟩
    rw [Site.source, Layout.sources_lexemes]
    exact hd
  | @abbreviated x axes hx =>
    obtain ⟨a, -, rfl⟩ := List.mem_map.1 hc
    have kinds : ∀ entry ∈ abbreviations, entry.1 ∈ [.dot, .dotDot, .slash, .slashSlash] := by decide
    exact .inl ⟨x, rfl, kinds _ hx⟩
  | @binary x op l r hx hl hr =>
    obtain rfl := List.mem_singleton.1 hc
    cases op with
    | union => exact ⟨l, x, r, rfl, Kind.operator?_eq_union hx, hr, rfl, last [l, .lexeme x] rfl⟩
    | _ => trivial

/-- **A refusal is blamed on exactly the unit that is refused**, if that is a function, a variable, a node test or the
right operand of a union.  A text has a layout of which this holds for every builder, whatever it refuses. -/
theorem Builder.refusal_framed (text : String) (start : Nat) : ∃ (t : Layout) (rest : List Lexeme),
    (scan text start).lexemes = t.source ++ rest ∧ t.Proper ∧
    ∀ (σ ν : Type) (b : Builder σ ν) (calls : List (Call ν)) (window : Span), b.Refuses text start calls window →
      ∃ before site after, t.sites none [] rest = before ++ site :: after ∧
        calls.map Call.head = (before ++ [site]).map Site.call ∧ site.Stands (scan text start).lexemes ∧
        site.Framed text window := by
  obtain ⟨t, rest, ht⟩ := Phrase.ofScan_laidOut (Session.fresh text start).stop (scan text start)
  refine ⟨t, rest, ht.source, ht.proper, fun σ ν b calls window h => ?_⟩
  obtain ⟨before, site, after, hsites, hcalls, stands, rfl⟩ := h.site ht
  exact ⟨before, site, after, hsites, hcalls, stands, stands.framed⟩

theorem Builder.refusal_framed_function :
    (numbering.refusing 3 "no").Refuses "(1)[ f( 'x' , g( ) ) ]| b" 0
      [.number "1", .string "x", .function none "g" [], .function none "f" [1, 2]] ⟨5, 20⟩ ∧
    ∃ site : Site, site.call = .function none "f" [(), ()] ∧ site.Framed "(1)[ f( 'x' , g( ) ) ]| b" ⟨5, 20⟩ := by
  have refuses : (numbering.refusing 3 "no").Refuses "(1)[ f( 'x' , g( ) ) ]| b" 0
      [.number "1", .string "x", .function none "g" [], .function none "f" [1, 2]] ⟨5, 20⟩ :=
    ⟨(0, 0), (3, 4), "no", by decide +kernel⟩
  obtain ⟨t, rest, -, -, framed⟩ := refusal_framed "(1)[ f( 'x' , g( ) ) ]| b" 0
  obtain ⟨before, site, after, -, hcalls, -, hsite⟩ := framed _ _ _ _ _ refuses
  refine ⟨refuses, site, ?_, hsite⟩
  have last := congrArg List.getLast? hcalls
  rw [List.map_append, List.map_singleton, List.getLast?_concat] at last
  exact (Option.some.inj last).symm

end StylesheetReversal.Path
