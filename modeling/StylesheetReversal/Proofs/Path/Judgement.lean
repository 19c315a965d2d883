import StylesheetReversal.Proofs.Path.Grammar
import StylesheetReversal.Proofs.Path.Rules
/-!
# What a rule does to the lexemes ahead

`Outcome.Meets` is the judgement that every rule of the parser is held to.  A rule that reads passes
lexemes of its language and nothing else; a rule that breaks has passed lexemes that some others
complete, and blames the lexeme it stands before.  In both cases it has looked no further than that
lexeme, so that it does the same wherever the lexemes up to there are the same.

The judgement is closed under sequencing (`Meets.andThen`), so the rules are shown to meet it one by
one, each from those it calls.
-/
namespace StylesheetReversal.Path

/-- The lexemes ahead are alike as far as one lexeme can tell: both are at the same end, or the next
lexeme is the same. -/
def Alike (e : Ending) (ls : List Lexeme) (e' : Ending) (ls' : List Lexeme) : Prop :=
  match ls, ls' with
  | [], [] => e' = e
  | l :: _, l' :: _ => l' = l
  | _, _ => False

theorem Alike.append {e e' : Ending} {r ls : List Lexeme} (h : Alike e r e' ls) :
    ∀ w : List Lexeme, Alike e (w ++ r) e' (w ++ ls)
  | [] => h
  | _ :: _ => rfl

namespace Place

/-- A place the parser can be at: nothing is ahead only where the text ends. -/
def Stands (e : Ending) (p : Place) : Prop := p.ahead = [] → ∃ n, e = .atEnd n

theorem stands_cons (e : Ending) (n : Nat) (l : Lexeme) (ls : List Lexeme) :
    Stands e ⟨n, l :: ls⟩ := fun h => by cases h

/-- The two places look the same to a rule that looks at one lexeme. -/
structure Resembles (e : Ending) (p : Place) (e' : Ending) (p' : Place) : Prop where
  last : p'.last = p.last
  alike : Alike e p.ahead e' p'.ahead

variable {e e' : Ending} {p p' : Place}

theorem Resembles.refl (e : Ending) (p : Place) : p.Resembles e e p :=
  ⟨rfl, by cases p.ahead <;> simp [Alike]⟩

theorem Resembles.kind (h : p.Resembles e e' p') : p'.kind = p.kind := by
  obtain ⟨n, ls⟩ := p
  obtain ⟨n', ls'⟩ := p'
  have := h.alike
  cases ls <;> cases ls' <;> simp_all [Alike, Place.kind]

theorem Resembles.text (h : p.Resembles e e' p') : p'.text = p.text := by
  obtain ⟨n, ls⟩ := p
  obtain ⟨n', ls'⟩ := p'
  have := h.alike
  cases ls <;> cases ls' <;> simp_all [Alike, Place.text]

theorem Resembles.found (h : p.Resembles e e' p') : p'.found = p.found := by
  obtain ⟨n, ls⟩ := p
  obtain ⟨n', ls'⟩ := p'
  have := h.alike
  cases ls <;> cases ls' <;> simp_all [Alike, Place.found]

theorem Resembles.span (h : p.Resembles e e' p') : p'.span e' = p.span e := by
  obtain ⟨n, ls⟩ := p
  obtain ⟨n', ls'⟩ := p'
  have := h.alike
  cases ls <;> cases ls' <;> simp_all [Alike, Place.span]

theorem Resembles.name (h : p.Resembles e e' p') : p'.name = p.name := by
  simp only [Place.name, h.text]

theorem Resembles.content (h : p.Resembles e e' p') : p'.content = p.content := by
  simp only [Place.content, h.text]

theorem Resembles.blame (h : p.Resembles e e' p') (unit : Option Span) :
    p'.blame e' unit = p.blame e unit := by
  simp only [Place.blame, h.span]

theorem Resembles.fault (h : p.Resembles e e' p') {α : Type} (cause : Cause) :
    (p'.fault e' cause : Outcome α) = p.fault e cause := by
  simp only [Place.fault, h.span]

/-- What the second lexeme is, is known once the first one is passed. -/
theorem kindAfter_passed {m n : Nat} {x : Lexeme} {w r ls : List Lexeme} (h : Alike e r e' ls) :
    kindAfter ⟨m, x :: w ++ ls⟩ = kindAfter ⟨n, x :: w ++ r⟩ := by
  cases w with
  | cons y w => rfl
  | nil =>
    cases r <;> cases ls <;> simp_all [Alike, kindAfter]

theorem isCall_passed {w r ls : List Lexeme} (hw : p.ahead = w ++ r) (h : Alike e r e' ls)
    (hm : p.kind = .name → w ≠ []) : isCall ⟨p.last, w ++ ls⟩ = p.isCall := by
  have same : p.Resembles e e' ⟨p.last, w ++ ls⟩ := ⟨rfl, by rw [hw]; exact h.append w⟩
  unfold isCall
  rw [same.kind, same.name]
  by_cases hn : p.kind = .name
  · obtain ⟨x, w, rfl⟩ := List.exists_cons_of_ne_nil (hm hn)
    rw [kindAfter_passed (m := p.last) (n := p.last) h]
    rw [show p = ⟨p.last, x :: w ++ r⟩ by rw [← hw]]
  · simp [hn]

theorem startsPrimary_passed {w r ls : List Lexeme} (hw : p.ahead = w ++ r) (h : Alike e r e' ls)
    (hm : p.kind = .name → w ≠ []) : startsPrimary ⟨p.last, w ++ ls⟩ = p.startsPrimary := by
  have same : p.Resembles e e' ⟨p.last, w ++ ls⟩ := ⟨rfl, by rw [hw]; exact h.append w⟩
  have nodeType : namesNodeType ⟨p.last, w ++ ls⟩ = p.namesNodeType := by
    unfold namesNodeType
    rw [same.name]
  unfold startsPrimary
  rw [same.kind, isCall_passed hw h hm, nodeType]

theorem eq_cons_of_kind {k : Kind} (h : p.kind = k) (hk : k ≠ .eof) :
    ∃ l ls, p.ahead = l :: ls ∧ l.kind = k := by
  obtain ⟨n, ls⟩ := p
  cases ls with
  | nil => exact absurd h.symm hk
  | cons l ls => exact ⟨l, ls, rfl, h⟩

end Place

/-- The cause of a fault found at a place, as opposed to one in a lexeme that cannot be read. -/
def Cause.FitsAt (p : Place) : Cause → Prop
  | .unexpectedToken found => found = p.found
  | .nodeTestExpected found => found = p.found
  | .tokenExpected _ found => found = p.found
  | .endExpected found => found = p.found ∧ p.ahead ≠ []
  | .predicateAfterDottedStep _ => p.kind = .lbracket
  | _ => False

/-- The fault that a rule reports when it can go no further than this place. -/
def Blames (e : Ending) (p : Place) (f : Fault) : Prop :=
  match p.ahead, e with
  | [], .faulty g => f = g
  | _, _ => f.span = p.span e ∧ f.cause.FitsAt p

theorem Blames.last {e : Ending} {n m : Nat} {r : List Lexeme} {f : Fault} (h : Blames e ⟨n, r⟩ f) :
    Blames e ⟨m, r⟩ f := by
  cases r <;> cases e <;> exact h

theorem Place.Stands.blames {e : Ending} {p : Place} (h : p.Stands e) {cause : Cause}
    (fits : cause.FitsAt p) : Blames e p ⟨cause, p.span e⟩ := by
  unfold Blames
  split
  · next hp => obtain ⟨n, hn⟩ := h hp; cases hn
  · exact ⟨rfl, fits⟩

namespace Outcome

variable {α β : Type} {e : Ending} {p : Place}

/-- The outcome of a rule at a place: `L` holds of the lexemes passed, of what was read and of the
kind of the lexeme stopped at, and `alt` is the rule itself, at any other place. -/
def Meets (e : Ending) (p : Place) (L : List Token → α → Kind → Prop) (moves : Prop)
    (alt : Ending → Place → Outcome α) : Outcome α → Prop
  | .read a q => ∃ w, p.ahead = w ++ q.ahead ∧ q.Stands e ∧ (moves → w ≠ []) ∧
      L (w.map Lexeme.token) a q.kind ∧
      ∀ e' ls, Alike e q.ahead e' ls → alt e' ⟨p.last, w ++ ls⟩ = .read a ⟨q.last, ls⟩
  | .broken done f => ∃ w r, p.ahead = w ++ r ∧ Blames e ⟨p.last, r⟩ f ∧ (moves → w ≠ []) ∧
      (∃ z a k, L (w.map Lexeme.token ++ z) a k) ∧
      ∀ e' ls, Alike e r e' ls → alt e' ⟨p.last, w ++ ls⟩ = .broken done f

namespace Meets

variable {L : List Token → α → Kind → Prop} {moves : Prop} {alt : Ending → Place → Outcome α}
  {o : Outcome α}

/-- The rule may be written in another way, as long as it comes to the same wherever the lexemes
passed are the same. -/
theorem congr_passed {alt' : Ending → Place → Outcome α} (h : o.Meets e p L moves alt)
    (same : ∀ e' w r ls, p.ahead = w ++ r → Alike e r e' ls → (moves → w ≠ []) →
      alt' e' ⟨p.last, w ++ ls⟩ = alt e' ⟨p.last, w ++ ls⟩) : o.Meets e p L moves alt' := by
  cases o with
  | read a q =>
    obtain ⟨w, hw, hq, hm, hL, halt⟩ := h
    exact ⟨w, hw, hq, hm, hL, fun e' ls hls => (same e' w _ ls hw hls hm).trans (halt e' ls hls)⟩
  | broken done f =>
    obtain ⟨w, r, hw, hf, hm, hL, halt⟩ := h
    exact ⟨w, r, hw, hf, hm, hL, fun e' ls hls => (same e' w r ls hw hls hm).trans (halt e' ls hls)⟩

theorem congr {alt' : Ending → Place → Outcome α} (h : o.Meets e p L moves alt)
    (same : ∀ e' p', p.Resembles e e' p' → alt' e' p' = alt e' p') :
    o.Meets e p L moves alt' :=
  h.congr_passed fun e' w _ _ hw hls _ => same e' _ ⟨rfl, by rw [hw]; exact hls.append w⟩

theorem weaken {moves' : Prop} (h : o.Meets e p L moves alt) (hm : moves' → moves) :
    o.Meets e p L moves' alt := by
  cases o with
  | read a q =>
    obtain ⟨w, hw, hq, hmoves, hL, halt⟩ := h
    exact ⟨w, hw, hq, hmoves ∘ hm, hL, halt⟩
  | broken done f =>
    obtain ⟨w, r, hw, hf, hmoves, hL, halt⟩ := h
    exact ⟨w, r, hw, hf, hmoves ∘ hm, hL, halt⟩

theorem imp {L' : List Token → α → Kind → Prop} (h : o.Meets e p L moves alt)
    (hL : ∀ w a k, L w a k → L' w a k) : o.Meets e p L' moves alt := by
  cases o with
  | read a q =>
    obtain ⟨w, hw, hq, hm, hl, halt⟩ := h
    exact ⟨w, hw, hq, hm, hL _ _ _ hl, halt⟩
  | broken done f =>
    obtain ⟨w, r, hw, hf, hm, ⟨z, a, k, hl⟩, halt⟩ := h
    exact ⟨w, r, hw, hf, hm, ⟨z, a, k, hL _ _ _ hl⟩, halt⟩

/-- The rule at the place itself comes to the outcome. -/
theorem alt_eq (h : o.Meets e p L moves alt) : alt e p = o := by
  obtain ⟨n, ls⟩ := p
  cases o with
  | read a q =>
    obtain ⟨w, hw, -, -, -, halt⟩ := h
    dsimp only at hw
    rw [hw]
    exact halt e q.ahead (Place.Resembles.refl e q).alike
  | broken done f =>
    obtain ⟨w, r, hw, -, -, -, halt⟩ := h
    dsimp only at hw
    rw [hw]
    exact halt e r (Place.Resembles.refl e ⟨n, r⟩).alike

theorem read {a : α} (hp : p.Stands e) (hL : L [] a p.kind) :
    (Outcome.read a p).Meets e p L False (fun _ p' => .read a p') :=
  ⟨[], rfl, hp, False.elim, hL, fun _ _ _ => rfl⟩

theorem broken {done : List Phrase} {cause : Cause} (hp : p.Stands e) (fits : cause.FitsAt p)
    (hL : ∃ z a k, L z a k) :
    (Outcome.broken done ⟨cause, p.span e⟩).Meets e p L False
      (fun _ _ => .broken done ⟨cause, p.span e⟩) :=
  ⟨[], p.ahead, rfl, hp.blames fits, False.elim, hL, fun _ _ _ => rfl⟩

/-- **Sequencing.**  A rule goes on behind what another one read, provided that whatever the first
one can read can be completed to a phrase of the whole. -/
theorem andThen {L₁ : List Token → α → Kind → Prop} {L : List Token → β → Kind → Prop}
    {next : α → Place → Outcome β} {altNext : α → Ending → Place → Outcome β}
    {held : List Phrase} (h : o.Meets e p L₁ moves alt)
    (hnext : ∀ a q w, p.ahead = w ++ q.ahead → (moves → w ≠ []) → q.Stands e →
      L₁ (w.map Lexeme.token) a q.kind →
      (next a q).Meets e q (fun v b k => L (w.map Lexeme.token ++ v) b k) False (altNext a))
    (completes : ∀ w a k, L₁ w a k → ∃ z b k', L (w ++ z) b k') :
    (o.andThen held next).Meets e p L moves
      (fun e' p' => (alt e' p').andThen held fun a q' => altNext a e' q') := by
  cases o with
  | broken done f =>
    obtain ⟨w, r, hw, hf, hm, ⟨z, a, k, hL⟩, halt⟩ := h
    obtain ⟨z', b, k', hL'⟩ := completes _ _ _ hL
    exact ⟨w, r, hw, hf, hm, ⟨z ++ z', b, k', by rw [← List.append_assoc]; exact hL'⟩,
      fun e' ls hls => by dsimp only; rw [halt e' ls hls, andThen_broken]⟩
  | read a q =>
    obtain ⟨w, hw, hq, hm, hL, halt⟩ := h
    have hn := hnext a q w hw hm hq hL
    rw [andThen_read]
    -- what was passed before stays in front of what the second rule passes
    have passed : ∀ (v r : List Lexeme) (e' : Ending) (ls : List Lexeme), q.ahead = v ++ r →
        Alike e r e' ls → alt e' ⟨p.last, (w ++ v) ++ ls⟩ = .read a ⟨q.last, v ++ ls⟩ := by
      intro v r e' ls hv hls
      rw [List.append_assoc]
      exact halt e' (v ++ ls) (by rw [hv]; exact hls.append v)
    cases hr : next a q with
    | read b q' =>
      rw [hr] at hn
      obtain ⟨v, hv, hq', -, hL', halt'⟩ := hn
      refine ⟨w ++ v, by rw [hw, hv, List.append_assoc], hq', ?_, ?_, fun e' ls hls => ?_⟩
      · intro hmoves hnil
        exact hm hmoves (List.append_eq_nil_iff.1 hnil).1
      · rw [List.map_append]
        exact hL'
      · dsimp only
        rw [passed v _ e' ls hv hls, andThen_read]
        exact halt' e' ls hls
    | broken done f =>
      rw [hr] at hn
      obtain ⟨v, r, hv, hf, -, hL', halt'⟩ := hn
      refine ⟨w ++ v, r, by rw [hw, hv, List.append_assoc], Blames.last hf, ?_, ?_, fun e' ls hls => ?_⟩
      · intro hmoves hnil
        exact hm hmoves (List.append_eq_nil_iff.1 hnil).1
      · obtain ⟨z, b, k, hz⟩ := hL'
        exact ⟨z, b, k, by rw [List.map_append, List.append_assoc]; exact hz⟩
      · dsimp only
        rw [passed v _ e' ls hv hls, andThen_read]
        exact halt' e' ls hls

end Meets

end Outcome

namespace Place

variable {β : Type} {e : Ending} {p : Place}

theorem advance_meets {l : Lexeme} {ls : List Lexeme} (hp : p.ahead = l :: ls) :
    (p.advance e).Meets e p (fun w _ _ => w = [l.token]) True (fun e' p' => p'.advance e') := by
  obtain ⟨n, _⟩ := p
  subst hp
  cases ls with
  | cons l' ls =>
    refine ⟨[l], rfl, stands_cons _ _ _ _, fun _ => List.cons_ne_nil _ _, rfl, fun e' r hr => ?_⟩
    cases r with
    | nil => cases hr
    | cons => rfl
  | nil =>
    cases e with
    | atEnd m =>
      refine ⟨[l], rfl, fun _ => ⟨m, rfl⟩, fun _ => List.cons_ne_nil _ _, rfl, fun e' r hr => ?_⟩
      cases r with
      | nil => cases hr; rfl
      | cons => cases hr
    | faulty f =>
      refine ⟨[l], [], rfl, rfl, fun _ => List.cons_ne_nil _ _, ⟨[], (), .eof, rfl⟩, fun e' r hr => ?_⟩
      cases r with
      | nil => cases hr; rfl
      | cons => cases hr

theorem advance_andThen_meets {l : Lexeme} {ls : List Lexeme} {L : List Token → β → Kind → Prop}
    {held : List Phrase} {next : Place → Outcome β} {altNext : Ending → Place → Outcome β}
    (hp : p.ahead = l :: ls)
    (hnext : ∀ q : Place, q.ahead = ls → q.Stands e →
      (next q).Meets e q (fun v b k => L (l.token :: v) b k) False altNext)
    (completes : ∃ z b k, L (l.token :: z) b k) :
    ((p.advance e).andThen held fun _ q => next q).Meets e p L True
      (fun e' p' => (p'.advance e').andThen held fun _ q' => altNext e' q') := by
  refine (advance_meets hp).andThen (fun _ q w hw _ hq hL => ?_) (fun w _ _ hL => ?_)
  · have hlen : w.length = 1 := by simpa using congrArg List.length hL
    obtain ⟨x, rfl⟩ := List.length_eq_one_iff.1 hlen
    rw [hp] at hw
    simp only [List.singleton_append, List.cons.injEq] at hw
    obtain ⟨rfl, rfl⟩ := hw
    exact hnext q rfl hq
  · subst hL
    obtain ⟨z, b, k, hz⟩ := completes
    exact ⟨z, b, k, hz⟩

theorem Stands.fault_meets {L : List Token → β → Kind → Prop} (hp : p.Stands e) {cause : Cause}
    (fits : cause.FitsAt p) (hL : ∃ z b k, L z b k) :
    (p.fault e cause : Outcome β).Meets e p L False (fun _ _ => p.fault e cause) :=
  .broken hp fits hL

theorem Stands.pass_andThen_meets {k : Kind} {L : List Token → β → Kind → Prop}
    {held : List Phrase} {next : Place → Outcome β} {altNext : Ending → Place → Outcome β}
    (hp : p.Stands e) (hk : k ≠ .eof)
    (hnext : ∀ l ls (q : Place), p.ahead = l :: ls → l.kind = k → q.ahead = ls → q.Stands e →
      (next q).Meets e q (fun v b kind => L (l.token :: v) b kind) False altNext)
    (completes : ∀ x : Token, x.kind = k → ∃ z b kind, L (x :: z) b kind) :
    ((p.pass e k).andThen held fun _ q => next q).Meets e p L False
      (fun e' p' => (p'.pass e' k).andThen held fun _ q' => altNext e' q') := by
  by_cases hkind : p.kind = k
  · obtain ⟨l, ls, hl, hlk⟩ := eq_cons_of_kind hkind hk
    have pass_eq : ∀ {e' : Ending} {p' : Place}, p'.kind = k → p'.pass e' k = p'.advance e' := by
      intro e' p' h
      rw [pass, expect, if_pos h, Outcome.andThen_read]
    rw [pass_eq hkind]
    refine ((advance_andThen_meets hl (fun q hq hs => hnext l ls q hl hlk hq hs)
      (completes l.token hlk)).weaken False.elim).congr fun e' p' h => ?_
    rw [pass_eq (h.kind.trans hkind)]
  · have pass_eq : ∀ {e' : Ending} {p' : Place}, p.Resembles e e' p' →
        p'.pass e' k = .broken [] ⟨.tokenExpected k p.found, p.span e⟩ := by
      intro e' p' h
      rw [pass, expect, if_neg (by rw [h.kind]; exact hkind), if_neg hk, fault, h.found, h.span]
      rfl
    rw [pass_eq (.refl e p), Outcome.andThen_broken]
    have fits : Cause.FitsAt p (.tokenExpected k p.found) := rfl
    obtain ⟨z, b, kind, hz⟩ := completes ⟨k, []⟩ rfl
    refine (Outcome.Meets.broken hp fits ⟨_, b, kind, hz⟩).congr fun e' p' h => ?_
    rw [pass_eq h, Outcome.andThen_broken]

end Place

end StylesheetReversal.Path
