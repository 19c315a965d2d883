import StylesheetReversal.Proofs.Path.LayoutRules
import StylesheetReversal.Proofs.Path.Refusal
import StylesheetReversal.Proofs.Path.Shown
/-!
# Where a builder refuses

When a builder refuses a construction, the window that is blamed is that of the site of the call in the layout of the text
(`Outcome.LaidOut.refused`).  The builder has made the calls of all sites before this one and no other.
-/
namespace StylesheetReversal.Path

variable {σ ν α β : Type}

/-- The refused call is one of those that are asked for; the calls made are those before it and the call itself, and the
window is the one to blame for it. -/
def Refused (asked : List (Call Unit × Span)) (calls : List (Call ν)) (f : Fault) : Prop :=
  ∃ front c back, asked = front ++ (c, f.span) :: back ∧ calls.map Call.head = front.map Prod.fst ++ [c]

namespace Builder

/-- The work makes the calls that are asked for, and `P` holds of what it gives; if it fails, it is refused one of them. -/
def Reports (w : Work (σ × List (Event ν)) α) (asked : List (Call Unit × Span)) (P : α → Prop) : Prop :=
  ∀ s log, ∃ calls : List (Call ν), (w (s, log)).2.2 = log ++ calls.map .call ∧
    match (w (s, log)).1 with
    | .ok a => calls.map Call.head = asked.map Prod.fst ∧ P a
    | .error f => Refused asked calls f

namespace Reports

variable {w : Work (σ × List (Event ν)) α} {asked more : List (Call Unit × Span)} {P : α → Prop} {Q : β → Prop}

theorem andThen {next : α → Work (σ × List (Event ν)) β} (h : Reports w asked P)
    (hn : ∀ a, P a → Reports (next a) more Q) : Reports (w.andThen next) (asked ++ more) Q := by
  intro s log
  obtain ⟨calls, hlog, hresult⟩ := h s log
  cases hw : w (s, log) with
  | mk answer d =>
    obtain ⟨s', log'⟩ := d
    rw [hw] at hlog hresult
    dsimp only at hlog hresult
    subst hlog
    cases answer with
    | error f =>
      obtain ⟨front, c, back, rfl, hcalls⟩ := hresult
      rw [Work.andThen_error hw]
      exact ⟨calls, rfl, front, c, back ++ more, List.append_assoc .., hcalls⟩
    | ok a =>
      obtain ⟨hcalls, ha⟩ := hresult
      obtain ⟨calls', hlog', hresult'⟩ := hn a ha s' (log ++ calls.map .call)
      rw [Work.andThen_ok hw]
      refine ⟨calls ++ calls', by rw [hlog', List.map_append, List.append_assoc], ?_⟩
      cases hnext : (next a (s', log ++ calls.map .call)).1 with
      | ok b =>
        rw [hnext] at hresult'
        exact ⟨by rw [List.map_append, List.map_append, hcalls, hresult'.1], hresult'.2⟩
      | error f =>
        rw [hnext] at hresult'
        obtain ⟨front, c, back, rfl, hcalls'⟩ := hresult'
        refine ⟨asked ++ front, c, back, (List.append_assoc ..).symm, ?_⟩
        rw [List.map_append, List.map_append, hcalls, hcalls', List.append_assoc]

theorem done {a : α} (ha : P a) : Reports (σ := σ) (ν := ν) (fun d => (.ok a, d)) [] P := by
  intro s log
  exact ⟨[], (List.append_nil log).symm, rfl, ha⟩

theorem ask (b : Builder σ ν) (blame : Span) {c : Call ν} {head : Call Unit} (hc : c.head = head) :
    Reports (b.traced.ask blame c) [(head, blame)] fun _ => True := by
  intro s log
  refine ⟨[c], ?_⟩
  unfold Builder.ask traced
  dsimp only
  cases b.construct c s with
  | mk result s' =>
    cases result with
    | ok node => exact ⟨rfl, by rw [← hc]; rfl, trivial⟩
    | error reason => exact ⟨rfl, [], head, [], rfl, by rw [← hc]; rfl⟩

end Reports

section

variable (b : Builder σ ν)

mutual

theorem reports_build : ∀ p : Phrase, Reports (b.traced.build p) p.asked fun _ => True
  | .string .. | .number .. | .axis .. | .variable .. => .ask b _ rfl
  | .binary _ _ left right | .join _ left right | .predicate _ left right _ => by
    rw [Phrase.asked, List.append_assoc]
    exact (reports_build left).andThen fun _ _ => (reports_build right).andThen fun _ _ => .ask b _ rfl
  | .negation _ inner => (reports_build inner).andThen fun _ _ => .ask b _ rfl
  | .function _ qualifier name args =>
    (reports_buildAll args).andThen fun nodes hnodes => .ask b _ (congrArg (Call.function qualifier name) hnodes)

theorem reports_buildAll : ∀ ps : List Phrase,
    Reports (b.traced.buildAll ps) (Phrase.askedAll ps) fun nodes => nodes.map (fun _ => ()) = ps.map fun _ => ()
  | [] => .done rfl
  | p :: ps => by
    rw [Phrase.askedAll, ← List.append_nil (Phrase.askedAll ps)]
    exact (reports_build p).andThen fun _ _ => (reports_buildAll ps).andThen fun nodes hnodes =>
      .done (by rw [List.map_cons, List.map_cons, hnodes])

end

/-- Building what was read is refused a call that is asked for, if it fails and the fault is not one of the text. -/
theorem buildOutcome_refused (o : Outcome Phrase) (s : σ) (log : List (Event ν)) : ∃ calls : List (Call ν),
    (b.traced.buildOutcome o (s, log)).2.2 = log ++ calls.map .call ∧
    ∀ f, (b.traced.buildOutcome o (s, log)).1 = .error f → Refused o.asked calls f ∨ ∃ done, o = .broken done f := by
  cases o with
  | read phrase q =>
    obtain ⟨calls, hlog, hresult⟩ := reports_build b phrase s log
    refine ⟨calls, hlog, fun f hf => .inl ?_⟩
    have failed : (b.traced.build phrase (s, log)).1 = .error f := hf
    rw [failed] at hresult
    exact hresult
  | broken done fault =>
    obtain ⟨calls, hlog, hresult⟩ := reports_buildAll b done s log
    refine ⟨calls, ?_⟩
    simp only [buildOutcome]
    cases hw : b.traced.buildAll done (s, log) with
    | mk answer d =>
      rw [hw] at hlog hresult
      cases answer with
      | error f =>
        rw [Work.andThen_error hw]
        refine ⟨hlog, fun f' hf => .inl ?_⟩
        cases hf
        exact hresult
      | ok nodes =>
        rw [Work.andThen_ok hw]
        refine ⟨hlog, fun f' hf => .inr ⟨done, ?_⟩⟩
        cases hf
        rfl

end

end Builder

/-! ## A whole text -/

theorem Phrase.stuck_of_ofText {text : String} {start : Nat} {done : List Phrase} {f : Fault}
    (h : ofText text start = .broken done f) : ∃ w r, Stuck (scan text start) w r f :=
  stuck_of_ofScan (scan_inOrder text start) h

/-- A fault of a text is never that something was refused. -/
theorem Stuck.not_rejected {text : String} {start : Nat} {w r : List Lexeme} {f : Fault}
    (h : Stuck (scan text start) w r f) (reason : String) : f.cause ≠ .rejected reason := by
  intro hc
  have blames := h.blames
  cases r with
  | cons l ls =>
    have fits := blames.2
    rw [hc] at fits
    exact fits
  | nil =>
    cases he : (scan text start).ending with
    | atEnd n =>
      rw [he] at blames
      have fits := blames.2
      rw [hc] at fits
      exact fits
    | faulty g =>
      rw [he] at blames
      have same : f = g := blames
      subst same
      rcases Session.scan_faulty he with hg | hg <;> rw [hc] at hg <;> cases hg

/-- The call that is refused has a site, and the calls made are those of the sites up to it. -/
theorem Outcome.LaidOut.refused {s : Scan} {o : Outcome Phrase} {t : Layout} {rest : List Lexeme} {calls : List (Call ν)}
    {f : Fault} (h : o.LaidOut s t rest) (hr : Refused o.asked calls f) : ∃ before site after,
      t.sites none [] rest = before ++ site :: after ∧ calls.map Call.head = (before ++ [site]).map Site.call ∧
        f.span = site.window s.ending := by
  obtain ⟨front, c, back, hasked, hcalls⟩ := hr
  rw [← h.asked] at hasked
  obtain ⟨before, others, hsites, rfl, hothers⟩ := List.map_eq_append_iff.1 hasked
  obtain ⟨site, after, rfl, hsite, -⟩ := List.map_eq_cons_iff.1 hothers
  obtain ⟨rfl, hwindow⟩ := Prod.mk.inj hsite
  refine ⟨before, site, after, hsites, ?_, hwindow.symm⟩
  rw [hcalls, List.map_append, List.map_map]
  rfl

/-- All sites of the layout stand in the text. -/
theorem Outcome.LaidOut.stands {s : Scan} {o : Outcome Phrase} {t : Layout} {rest : List Lexeme} (h : o.LaidOut s t rest) :
    ∀ site ∈ t.sites none [] rest, site.Stands s.lexemes := by
  have nested : Nested s.lexemes t.source rest [] := by
    intro outer hmem
    obtain rfl := List.mem_singleton.1 hmem
    exact ⟨[], [], [], rest, by simp, by simp [h.source], rfl⟩
  exact h.proper.sites_stand s.lexemes nested nofun

/-- The builder refuses the last of these calls, and the window is blamed for it. -/
def Builder.Refuses (b : Builder σ ν) (text : String) (start : Nat) (calls : List (Call ν)) (window : Span) : Prop :=
  ∃ s s' reason, b.traced.parse text start (s, []) = (.error ⟨⟨.rejected reason, window⟩, text⟩, s', told calls none)

/-- **A refusal is blamed at the site of the call**, in any layout of the text. -/
theorem Builder.Refuses.site {b : Builder σ ν} {text : String} {start : Nat} {calls : List (Call ν)} {window : Span}
    {t : Layout} {rest : List Lexeme} (h : b.Refuses text start calls window)
    (ht : (Phrase.ofText text start).LaidOut (scan text start) t rest) : ∃ before site after,
      t.sites none [] rest = before ++ site :: after ∧ calls.map Call.head = (before ++ [site]).map Site.call ∧
        site.Stands (scan text start).lexemes ∧ window = site.window (scan text start).ending := by
  obtain ⟨s, s', reason, hrun⟩ := h
  obtain ⟨made, hlog, hrefused⟩ := b.buildOutcome_refused (Phrase.ofText text start) (b.start s) [.start]
  have started : b.traced.start (s, []) = (b.start s, [.start]) := rfl
  rw [parse_eq, started] at hrun
  cases hw : b.traced.buildOutcome (Phrase.ofText text start) (b.start s, [.start]) with
  | mk answer d =>
    obtain ⟨s'', log⟩ := d
    rw [hw] at hrun hlog hrefused
    dsimp only at hlog
    subst hlog
    cases answer with
    | error f =>
      obtain ⟨hfault, hstate⟩ := Prod.mk.inj hrun
      have told_made : told made none = told calls none := (Prod.mk.inj hstate).2
      obtain ⟨rfl, -⟩ := told_inj told_made
      cases hfault
      rcases hrefused _ rfl with hr | ⟨done, hbroken⟩
      · obtain ⟨before, site, after, hsites, hcalls, hwindow⟩ := ht.refused hr
        have stands := ht.stands site (by rw [hsites]; exact List.mem_append_right _ List.mem_cons_self)
        exact ⟨before, site, after, hsites, hcalls, stands, hwindow⟩
      · obtain ⟨w, r, stuck⟩ := Phrase.stuck_of_ofText hbroken
        exact absurd rfl (stuck.not_rejected reason)
    | ok node =>
      -- a builder that gives up the result has refused nothing
      have ended : told made (some node) = told calls none := by
        dsimp only [traced] at hrun
        cases hf : b.finish (some node) s'' with
        | mk left s3 =>
          rw [hf] at hrun
          cases left with
          | some result => cases (Prod.mk.inj hrun).1
          | none => exact (Prod.mk.inj (Prod.mk.inj hrun).2).2
      cases (told_inj ended).2

end StylesheetReversal.Path
