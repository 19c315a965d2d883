import StylesheetReversal.Proofs.Path.Rejections
/-!
# Refusals that are blamed on what stands behind

A construct without a window of its own is blamed on the unit that is open, and if there is none on the lexeme that has
been reached.  When that belongs to no construct around (`Site.Exposed`), the window lies behind everything that is being
built; in all other cases it overlaps the construct or one around it (`Builder.refusal_covered_iff`).
-/
namespace StylesheetReversal.Path

/-! ## Windows inside one another -/

/-- The two windows have a byte in common. -/
def Span.Overlaps (u v : Span) : Prop := ∃ n, (u.start ≤ n ∧ n < u.stop) ∧ v.start ≤ n ∧ n < v.stop

/-- One window, which is not empty, is a part of the other. -/
structure Span.Inside (u v : Span) : Prop where
  start_le : v.start ≤ u.start
  start_lt : u.start < u.stop
  le_stop : u.stop ≤ v.stop

theorem Span.Inside.overlaps {u v : Span} (h : u.Inside v) : u.Overlaps v :=
  ⟨u.start, ⟨Nat.le_refl _, h.start_lt⟩, h.start_le, Nat.lt_of_lt_of_le h.start_lt h.le_stop⟩

namespace Windows

variable {e : Ending} {n : Nat}

/-- Some lexemes, one behind the other, stand behind the byte `n` and before what follows. -/
theorem across_bounds : ∀ {n : Nat} {w r : List Lexeme}, Windows e n (w ++ r) → w ≠ [] →
    n ≤ (Span.across w).start ∧ (Span.across w).start < (Span.across w).stop ∧ Windows e (Span.across w).stop r
  | _, [], _, _, hw => absurd rfl hw
  | _, [_], _, ⟨hn, hl, _, hr⟩, _ => ⟨hn, hl, hr⟩
  | _, _ :: x :: w, _, ⟨hn, hl, _, hw⟩, _ => by
    obtain ⟨hstart, hlt, hr⟩ := across_bounds (w := x :: w) hw (List.cons_ne_nil x w)
    exact ⟨hn, Nat.lt_of_lt_of_le hl (Nat.le_of_lt (Nat.lt_of_le_of_lt hstart hlt)), hr⟩

/-- What is left of some lexemes still stands in order. -/
theorem drop {v r : List Lexeme} (h : Windows e n (v ++ r)) : ∃ m, Windows e m r := by
  by_cases hv : v = []
  · subst hv
    exact ⟨n, h⟩
  · exact ⟨_, (h.across_bounds hv).2.2⟩

/-- The window of some lexemes is inside that of any others around them. -/
theorem across_inside {v w x r : List Lexeme} (h : Windows e n (v ++ (w ++ (x ++ r)))) (hw : w ≠ []) :
    (Span.across w).Inside (.across (v ++ (w ++ x))) := by
  obtain ⟨m, hm⟩ := h.drop
  obtain ⟨-, hlt, hr⟩ := hm.across_bounds hw
  refine ⟨?_, hlt, ?_⟩
  · by_cases hv : v = []
    · subst hv
      exact Nat.le_of_eq (Span.across_start_append x hw)
    · obtain ⟨-, hlt', further⟩ := h.across_bounds hv
      obtain ⟨hle, -, -⟩ := further.across_bounds hw
      rw [Span.across_start_append _ hv]
      exact Nat.le_trans (Nat.le_of_lt hlt') hle
  · by_cases hx : x = []
    · subst hx
      rw [List.append_nil, Span.across_stop_append v hw]
    · obtain ⟨hle, hlt', -⟩ := hr.across_bounds hx
      rw [Span.across_stop_append v (List.append_ne_nil_of_right_ne_nil w hx), Span.across_stop_append w hx]
      exact Nat.le_trans hle (Nat.le_of_lt hlt')

end Windows

/-! ## Exposed sites -/

namespace Site

/-- Whether the construct of a site has a window of its own, or is a lexeme in front of which the parser stands. -/
def hasWindow (s : Site) : Bool :=
  match s.call with
  | .string _ | .number _ | .variable .. | .function .. | .operator .union _ _ => true
  | .axis .. => startsTest s.source
  | _ => false

/-- The construct has no window of its own, no unit is open, and all constructs around it end where it ends. -/
structure Exposed (s : Site) : Prop where
  hasWindow : s.hasWindow = false
  unit : s.unit = none
  isSuffix : ∀ outer ∈ s.around, s.source <:+ outer

theorem window_of_hasWindow_eq_false {s : Site} (h : s.hasWindow = false) (e : Ending) :
    s.window e = s.unit.getD (Place.span e ⟨0, s.behind⟩) := by
  obtain ⟨call, parts, around, unit, behind⟩ := s
  cases call with
  | axis => exact Call.window_axis h
  | operator op left right =>
    refine Call.window_operator ?_
    rintro rfl
    cases h
  | join | predicate => rfl
  | _ => cases h

namespace Stands

variable {all : List Lexeme} {s : Site} {e : Ending}

/-- A window of its own is that of the construct or of its last part, if it is not that of the open unit. -/
theorem window_of_hasWindow (h : s.Stands all) (hs : s.hasWindow = true) (e : Ending) :
    s.unit = some (s.window e) ∨ ∃ front w, s.source = front ++ w ∧ w ≠ [] ∧ s.window e = .across w := by
  have whole : s.source = [] ++ s.source ∧ s.source ≠ [] := ⟨rfl, h.source_ne_nil⟩
  obtain ⟨ts, r, hparts⟩ : ∃ ts r, s.parts = ts ++ [r] := by
    obtain ⟨own, calls, forms, -⟩ := h.formed
    exact (List.eq_nil_or_concat' s.parts).resolve_left forms.parts_ne_nil
  have hsource := source_of_parts hparts
  have hr : r.source ≠ [] := h.part_ne_nil (by simp [hparts])
  obtain ⟨call, parts, around, unit, behind⟩ := s
  cases call with
  | string | number =>
    cases unit with
    | some u => exact .inl rfl
    | none => exact .inr ⟨[], _, whole.1, whole.2, rfl⟩
  | «variable» | function => exact .inr ⟨[], _, whole.1, whole.2, rfl⟩
  | axis => exact .inr ⟨[], _, whole.1, whole.2, if_pos hs⟩
  | operator op left right =>
    cases op with
    | union =>
      refine .inr ⟨Layout.sources ts, r.source, hsource, hr, ?_⟩
      dsimp only at hparts
      subst hparts
      rw [window, Call.window, List.getLast?_concat]
      rfl
    | _ => cases hs
  | _ => cases hs

/-- The open unit is inside one of the constructs. -/
theorem unit_inside (h : s.Stands all) (hw : Windows e 0 all) {u : Span} (hu : s.unit = some u) :
    ∃ outer ∈ s.source :: s.around, u.Inside (.across outer) := by
  obtain ⟨outer, hmem, head, hne, ⟨more, rfl⟩, rfl⟩ := h.opened u hu
  obtain ⟨front, before, after, back, -, rfl, -⟩ := h.nested _ hmem
  refine ⟨_, hmem, ?_⟩
  rw [List.append_assoc] at hw
  obtain ⟨m, hm⟩ := hw.drop
  rw [List.append_assoc] at hm
  exact hm.across_inside (v := []) hne

/-- A part of the construct at its end is inside it. -/
theorem end_inside (h : s.Stands all) (hw : Windows e 0 all) {front w : List Lexeme} (hsource : s.source = front ++ w)
    (hne : w ≠ []) : (Span.across w).Inside (.across s.source) := by
  obtain ⟨before, rfl⟩ := h.exists_front
  obtain ⟨m, hm⟩ := hw.drop
  rw [hsource, List.append_assoc] at hm
  have inside := hm.across_inside (x := []) hne
  rwa [List.append_nil, ← hsource] at inside

/-- If something of a construct around is left, the next lexeme is inside that. -/
theorem behind_inside (h : s.Stands all) (hw : Windows e 0 all) {outer : List Lexeme} (hmem : outer ∈ s.around)
    (hnot : ¬ s.source <:+ outer) : (Place.span e ⟨0, s.behind⟩).Inside (.across outer) := by
  obtain ⟨front, before, after, back, houter, rfl, hbehind⟩ := h.nested outer (List.mem_cons_of_mem _ hmem)
  cases after with
  | nil =>
    rw [List.append_nil] at houter
    exact absurd ⟨before, houter.symm⟩ hnot
  | cons l after =>
    have next : Place.span e ⟨0, s.behind⟩ = .across [l] := by
      rw [hbehind]
      rfl
    rw [List.append_assoc] at hw
    obtain ⟨m, hm⟩ := hw.drop
    rw [houter, List.append_assoc, List.cons_append] at hm
    rw [next, houter]
    exact hm.across_inside (w := [l]) (List.cons_ne_nil l [])

/-- **A site that is not exposed is covered**: its window is inside the construct or one around it. -/
theorem covered (h : s.Stands all) (hw : Windows e 0 all) (hs : ¬ s.Exposed) :
    ∃ outer ∈ s.source :: s.around, (s.window e).Inside (.across outer) := by
  by_cases hwindow : s.hasWindow = true
  · rcases h.window_of_hasWindow hwindow e with hu | ⟨front, w, hsource, hne, hacross⟩
    · exact h.unit_inside hw hu
    · rw [hacross]
      exact ⟨s.source, List.mem_cons_self, h.end_inside hw hsource hne⟩
  · rw [Bool.not_eq_true] at hwindow
    rw [window_of_hasWindow_eq_false hwindow]
    cases hu : s.unit with
    | some u => exact h.unit_inside hw hu
    | none =>
      have around : ¬ ∀ outer ∈ s.around, s.source <:+ outer := fun all => hs ⟨hwindow, hu, all⟩
      obtain ⟨outer, hnot⟩ := Classical.not_forall.1 around
      obtain ⟨hmem, hnot⟩ := Classical.not_imp.1 hnot
      exact ⟨outer, List.mem_cons_of_mem _ hmem, h.behind_inside hw hmem hnot⟩

/-- **An exposed site is blamed on what stands behind** the construct and all constructs around it. -/
theorem uncovered (h : s.Stands all) (hw : Windows e 0 all) (hs : s.Exposed) :
    ∀ outer ∈ s.source :: s.around, (Span.across outer).stop ≤ (s.window e).start := by
  intro outer hmem
  have suffix : s.source <:+ outer := by
    rcases List.mem_cons.1 hmem with rfl | hmem
    · exact List.suffix_refl _
    · exact hs.isSuffix outer hmem
  obtain ⟨before, rfl⟩ := suffix
  obtain ⟨front, rfl⟩ := h.exists_front
  obtain ⟨m, hm⟩ := hw.drop
  obtain ⟨-, -, further⟩ := hm.across_bounds h.source_ne_nil
  rw [window_of_hasWindow_eq_false hs.hasWindow, hs.unit, Option.getD_none, Span.across_stop_append before h.source_ne_nil]
  exact further.le_start (w := [])

end Stands

end Site

/-- **A refusal is blamed on the construct that is refused or on one around it, unless the construct is exposed.**  Then the
window lies wholly behind them all. -/
theorem Builder.refusal_covered_iff (text : String) (start : Nat) : ∃ (t : Layout) (rest : List Lexeme),
    (scan text start).lexemes = t.source ++ rest ∧ t.Proper ∧
    ∀ (σ ν : Type) (b : Builder σ ν) (calls : List (Call ν)) (window : Span), b.Refuses text start calls window →
      ∃ before site after, t.sites none [] rest = before ++ site :: after ∧
        calls.map Call.head = (before ++ [site]).map Site.call ∧ site.Stands (scan text start).lexemes ∧
        ((∃ outer ∈ site.source :: site.around, window.Overlaps (.across outer)) ↔ ¬ site.Exposed) ∧
        (site.Exposed → ∀ outer ∈ site.source :: site.around, (Span.across outer).stop ≤ window.start) := by
  obtain ⟨t, rest, ht⟩ := Phrase.ofScan_laidOut (Session.fresh text start).stop (scan text start)
  refine ⟨t, rest, ht.source, ht.proper, fun σ ν b calls window h => ?_⟩
  obtain ⟨before, site, after, hsites, hcalls, stands, rfl⟩ := h.site ht
  have windows := scan_inOrder text start
  refine ⟨before, site, after, hsites, hcalls, stands, ⟨?_, fun hs => ?_⟩, stands.uncovered windows⟩
  · rintro ⟨outer, hmem, n, ⟨hn, -⟩, -, hstop⟩ exposed
    have := stands.uncovered windows exposed outer hmem
    omega
  · obtain ⟨outer, hmem, inside⟩ := stands.covered windows hs
    exact ⟨outer, hmem, inside.overlaps⟩

theorem Builder.refusal_covered_iff_sum :
    (numbering.refusing 2 "no").Refuses "f(1 + 2 )" 0 [.number "1", .number "2", .operator .plus (some 0) (some 1)] ⟨8, 9⟩ ∧
    ∃ site : Site, site.call = .operator .plus (some ()) (some ()) ∧
      ((∃ outer ∈ site.source :: site.around, Span.Overlaps ⟨8, 9⟩ (.across outer)) ↔ ¬ site.Exposed) ∧
      (site.Exposed → ∀ outer ∈ site.source :: site.around, (Span.across outer).stop ≤ 8) := by
  have refuses : (numbering.refusing 2 "no").Refuses "f(1 + 2 )" 0
      [.number "1", .number "2", .operator .plus (some 0) (some 1)] ⟨8, 9⟩ := ⟨(0, 0), (2, 3), "no", by decide +kernel⟩
  obtain ⟨t, rest, -, -, covered⟩ := refusal_covered_iff "f(1 + 2 )" 0
  obtain ⟨before, site, after, -, hcalls, -, hsite⟩ := covered _ _ _ _ _ refuses
  refine ⟨refuses, site, ?_, hsite⟩
  have last := congrArg List.getLast? hcalls
  rw [List.map_append, List.map_singleton, List.getLast?_concat] at last
  exact (Option.some.inj last).symm

/-- A step that is the whole expression is blamed on the end of the text, and a sum on a parenthesis that does not belong
to the expression at all. -/
theorem Builder.refusal_uncovered :
    ((numbering.refusing 0 "rejected").Refuses "." 0 [.axis .self .all none none] ⟨1, 1⟩ ∧
      (scan "." 0).lexemes.map Lexeme.span = [⟨0, 1⟩] ∧ ¬ Span.Overlaps ⟨1, 1⟩ ⟨0, 1⟩) ∧
    (numbering.refusing 2 "rejected").Refuses "1 + 2 )" 0
        [.number "1", .number "2", .operator .plus (some 0) (some 1)] ⟨6, 7⟩ ∧
      (scan "1 + 2 )" 0).lexemes.map Lexeme.span = [⟨0, 1⟩, ⟨2, 3⟩, ⟨4, 5⟩, ⟨6, 7⟩] ∧ ¬ Span.Overlaps ⟨6, 7⟩ ⟨0, 5⟩ := by
  have apart : ∀ {u v : Span}, v.stop ≤ u.start → ¬ u.Overlaps v := by
    rintro u v hle ⟨n, ⟨hn, -⟩, -, hlt⟩
    omega
  exact ⟨⟨⟨(0, 0), (0, 1), "rejected", by decide +kernel⟩, by decide, apart (by decide)⟩,
    ⟨(0, 0), (2, 3), "rejected", by decide +kernel⟩, by decide, apart (by decide)⟩

end StylesheetReversal.Path
