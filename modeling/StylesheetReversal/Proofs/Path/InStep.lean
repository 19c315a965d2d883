import StylesheetReversal.Proofs.Path.Building
import StylesheetReversal.Proofs.Path.Standing
/-!
# Keeping in step

The parser asks for a construction as soon as it can, in the middle of reading.  To show that this comes
to the same as reading a phrase first and building it afterwards, `InStep` compares a piece of reading
with the outcome of the rule for phrases.  It speaks of whatever is read behind the piece (`k` on the one
side and `next` on the other), so that it says of every builder, also of one that refuses, that all work
is done in the same order.

The judgement is closed under sequencing, under asking and under working inside a unit.
-/
namespace StylesheetReversal.Path

open Builder (Work)

variable {σ ν α β γ δ η : Type}

namespace Builder.Work

def done (a : α) : Work σ α := fun s => (.ok a, s)

def fail (f : Fault) : Work σ α := fun s => (.error f, s)

theorem andThen_assoc (w : Work σ α) (f : α → Work σ β) (g : β → Work σ γ) :
    (w.andThen f).andThen g = w.andThen fun a => (f a).andThen g := by
  funext s
  unfold andThen
  cases w s with
  | mk result s' => cases result <;> rfl

theorem done_andThen (a : α) (f : α → Work σ β) : (done a).andThen f = f a := rfl

theorem andThen_done (w : Work σ α) : w.andThen done = w := by
  funext s
  unfold andThen
  cases h : w s with
  | mk result s' => cases result <;> rfl

end Builder.Work

namespace Reading

/-- What a piece of reading does with the builder, from a session and inside some units. -/
def work (r : Reading σ α) (s : Session) (us : List Span) : Work σ α := fun st =>
  ((r ⟨s, us, st⟩).1, (r ⟨s, us, st⟩).2.state)

theorem bind_assoc (r : Reading σ α) (f : α → Reading σ β) (g : β → Reading σ γ) :
    (r >>= f) >>= g = r >>= fun a => f a >>= g := by
  funext d
  simp only [bind]
  cases r d with
  | mk result d' => cases result <;> rfl

variable {s s' : Session} {us : List Span} {step : Session → Session × Option Fault}

theorem move_bind_ok (h : step s = (s', none)) (k : Unit → Reading σ β) :
    (move step >>= k).work s us = (k ()).work s' us := by
  funext st
  simp only [work, bind, move, h]

theorem move_bind_fault {f : Fault} (h : step s = (s', some f)) (k : Unit → Reading σ β) :
    (move step >>= k).work s us = Work.fail f := by
  funext st
  simp only [work, bind, move, h]
  rfl

theorem ask_bind (b : Builder σ ν) (call : Call ν) (k : ν → Reading σ β) :
    (ask b call >>= k).work s us =
      (b.ask (us.head?.getD s.span) call).andThen fun node => (k node).work s us := by
  funext st
  simp only [work, bind, ask, Work.andThen, Builder.ask]
  cases b.construct call st with
  | mk result st' => cases result <;> rfl

/-- Leaves the innermost unit. -/
def leave : Reading σ Unit := fun d => (.ok (), { d with units := d.units.tail })

theorem within_bind (window : Span) (r : Reading σ α) (k : α → Reading σ β) :
    (within window r >>= k).work s us = (r >>= fun a => leave >>= fun _ => k a).work s (window :: us) := by
  funext st
  simp only [work, bind, within, leave]
  cases r ⟨s, window :: us, st⟩ with
  | mk result d => cases result <;> rfl

end Reading

/-- The work builds these phrases, whatever it gives. -/
def Builds (b : Builder σ ν) (w : Work σ γ) (held : List Phrase) : Prop :=
  ∀ v : Work σ ν, (w.andThen fun _ => v) = (b.buildAll held).andThen fun _ => v

namespace Builds

variable {b : Builder σ ν}

theorem nil (a : γ) : Builds b (Work.done a) [] := fun _ => rfl

theorem single (p : Phrase) : Builds b (b.build p) [p] := by
  intro v
  simp only [Builder.buildAll, Work.andThen_assoc]
  rfl

theorem buildAll_append (ps qs : List Phrase) (v : Work σ ν) :
    ((b.buildAll (ps ++ qs)).andThen fun _ => v) =
      (b.buildAll ps).andThen fun _ => (b.buildAll qs).andThen fun _ => v := by
  induction ps with
  | nil => rfl
  | cons p ps ih =>
    simp only [List.cons_append, Builder.buildAll, Work.andThen_assoc]
    have step : ∀ (rs : List Phrase) (node : ν) (u : Work σ ν),
        ((b.buildAll rs).andThen fun nodes => Work.andThen (fun s => (.ok (node :: nodes), s)) fun _ => u) =
          (b.buildAll rs).andThen fun _ => u := fun _ _ _ => rfl
    simp only [step, ih]

theorem append {w : Work σ γ} {v : Work σ δ} {ps qs : List Phrase} (hw : Builds b w ps) (hv : Builds b v qs) :
    Builds b (w.andThen fun g => v.andThen fun y => Work.done (g, y)) (ps ++ qs) := by
  intro u
  simp only [Work.andThen_assoc, Work.done_andThen]
  rw [buildAll_append, ← hv u]
  exact hw _

end Builds

theorem Outcome.andThen_andThen (held held' : List Phrase) (o : Outcome α)
    (next : α → Place → Outcome β) (next' : β → Place → Outcome γ) :
    (o.andThen held next).andThen held' next' =
      o.andThen (held' ++ held) fun a q => (next a q).andThen held' next' := by
  cases o with
  | read a q => rfl
  | broken done f => simp only [andThen_broken, List.append_assoc]

/-- The piece `r`, read behind the work `pre`, keeps in step with an outcome, of which `make` says what
is to be built. -/
def InStep (b : Builder σ ν) (e : Ending) (us : List Span) (s : Session) (pre : Work σ δ)
    (make : α → Work σ β) (r : δ → Reading σ β) (o : Outcome α) : Prop :=
  ∀ (γ : Type) (w : Work σ γ) (held : List Phrase) (k : γ → β → Reading σ ν)
    (next : α → Place → Outcome Phrase), Builds b w held →
    (∀ a q s', o = .read a q → s'.At e q →
      (w.andThen fun g => (make a).andThen fun x => (k g x).work s' us) = b.buildOutcome (next a q)) →
    (w.andThen fun g => pre.andThen fun y => (r y >>= k g).work s us) = b.buildOutcome (o.andThen held next)

namespace InStep

variable {b : Builder σ ν} {e : Ending} {us : List Span} {s : Session} {p q : Place}
  {pre : Work σ δ} {o : Outcome α} {phrase : Phrase}

/-- Nothing else is read: the work done makes up the value. -/
theorem built {make : α → Work σ β} {r : δ → Reading σ β} {c : δ → Work σ β} {a : α} (hs : s.At e q)
    (hr : ∀ (y : δ) (k : β → Reading σ ν), (r y >>= k).work s us = (c y).andThen fun x => (k x).work s us)
    (hc : make a = pre.andThen c) : InStep b e us s pre make r (.read a q) := by
  intro γ w held k next _ hk
  rw [Outcome.andThen_read, ← hk a q s rfl hs, hc]
  simp only [hr, Work.andThen_assoc]

theorem fault {make : α → Work σ β} {r : δ → Reading σ β} {done : List Phrase} {f : Fault}
    (hp : Builds b pre done)
    (hr : ∀ (y : δ) (k : β → Reading σ ν), (r y >>= k).work s us = Work.fail f) :
    InStep b e us s pre make r (.broken done f) := by
  intro γ w held k next hw _
  have both := hw.append hp (Work.fail f)
  simp only [Work.andThen_assoc, Work.done_andThen] at both
  simp only [hr, Outcome.andThen_broken]
  exact both

/-- **Sequencing.**  What was built before and what the first piece builds are both at hand behind it. -/
theorem andThen {make₁ : γ → Work σ η} {r₁ : Reading σ η} {o₁ : Outcome γ} {make : α → Work σ β}
    {r : δ → η → Reading σ β} {next₁ : γ → Place → Outcome α} {done : List Phrase}
    (hp : Builds b pre done) (h₁ : InStep b e us s (Work.done ()) make₁ (fun _ => r₁) o₁)
    (h : ∀ c q s', o₁ = .read c q → s'.At e q → InStep b e us s'
      (pre.andThen fun y => (make₁ c).andThen fun x => Work.done (y, x)) make (fun yx => r yx.1 yx.2)
      (next₁ c q)) :
    InStep b e us s pre make (fun y => r₁ >>= r y) (o₁.andThen done next₁) := by
  intro θ w held k next hw hk
  rw [Outcome.andThen_andThen]
  have first := h₁ (θ × δ) (w.andThen fun g => pre.andThen fun y => Work.done (g, y)) (held ++ done)
    (fun gy x => r gy.2 x >>= k gy.1) (fun c q => (next₁ c q).andThen held next) (hw.append hp) ?_
  · simp only [Work.andThen_assoc, Work.done_andThen, Reading.bind_assoc] at first ⊢
    exact first
  · intro c q s' ho hs'
    have second := h c q s' ho hs' θ w held k next hw fun a q' s'' hr => hk a q' s'' (by rw [ho]; exact hr)
    simp only [Work.andThen_assoc, Work.done_andThen] at second ⊢
    exact second

theorem andThen_plain {r₁ : Reading σ γ} {o₁ : Outcome γ} {make : α → Work σ β} {r : δ → γ → Reading σ β}
    {next₁ : γ → Place → Outcome α} {done : List Phrase} (hp : Builds b pre done)
    (h₁ : InStep b e us s (Work.done ()) Work.done (fun _ => r₁) o₁)
    (h : ∀ c q s', o₁ = .read c q → s'.At e q → InStep b e us s' pre make (fun y => r y c) (next₁ c q)) :
    InStep b e us s pre make (fun y => r₁ >>= r y) (o₁.andThen done next₁) := by
  refine andThen hp h₁ fun c q s' ho hs' θ w held k next hw hk => ?_
  simp only [Work.andThen_assoc, Work.done_andThen]
  exact h c q s' ho hs' θ w held k next hw hk

theorem andThen_first {make₁ : γ → Work σ η} {r₁ : Reading σ η} {o₁ : Outcome γ} {make : α → Work σ β}
    {r : η → Reading σ β} {next₁ : γ → Place → Outcome α}
    (h₁ : InStep b e us s (Work.done ()) make₁ (fun _ => r₁) o₁)
    (h : ∀ c q s', o₁ = .read c q → s'.At e q → InStep b e us s' (make₁ c) make r (next₁ c q)) :
    InStep b e us s (Work.done ()) make (fun _ => r₁ >>= r) (o₁.andThen [] next₁) := by
  refine andThen (.nil ()) h₁ fun c q s' ho hs' θ w held k next hw hk => ?_
  simp only [Work.andThen_assoc, Work.done_andThen]
  exact h c q s' ho hs' θ w held k next hw hk

theorem here {make : α → Work σ β} {r : δ → Session → Reading σ β}
    (h : InStep b e us s pre make (fun y => r y s) o) :
    InStep b e us s pre make (fun y => Reading.here >>= r y) o := h

theorem within {make : α → Work σ β} {r : δ → Reading σ β} {window : Span}
    (h : InStep b e (window :: us) s pre make r o) :
    InStep b e us s pre make (fun y => Reading.within window (r y)) o := by
  intro θ w held k next hw hk
  simp only [Reading.within_bind]
  exact h θ w held (fun g x => Reading.leave >>= fun _ => k g x) next hw hk

/-! ## Asking -/

/-- A piece that asks for one construction, with a window to blame. -/
def Asks (b : Builder σ ν) (us : List Span) (s : Session) (blame : Span) (call : Call ν)
    (r : Reading σ ν) : Prop :=
  ∀ k : ν → Reading σ ν, (r >>= k).work s us = (b.ask blame call).andThen fun node => (k node).work s us

theorem asks_plain (hs : s.At e p) (call : Call ν) :
    Asks b us s (p.blame e us.head?) call (Reading.ask b call) := by
  intro k
  rw [Reading.ask_bind, hs.span]
  rfl

theorem asks_within (window : Span) (call : Call ν) :
    Asks b us s window call (Reading.within window (Reading.ask b call)) := by
  intro k
  rw [Reading.within_bind, Reading.ask_bind]
  rfl

variable {blame : Span}

/-- Asking for a phrase whose parts are at hand. -/
theorem ask {make : α → Work σ β} {r : ν → Reading σ β} {a : δ → Reading σ ν} {call : δ → Call ν}
    (ha : ∀ y, Asks b us s blame (call y) (a y))
    (hb : b.build phrase = pre.andThen fun y => b.ask blame (call y))
    (h : InStep b e us s (b.build phrase) make r o) :
    InStep b e us s pre make (fun y => a y >>= r) o := by
  intro θ w held k next hw hk
  rw [← h θ w held k next hw hk, hb]
  simp only [Reading.bind_assoc, Work.andThen_assoc]
  simp only [ha _ _]

theorem ask_beside {make : α → Work σ β} {r : δ → ν → Reading σ β} {a : Reading σ ν} {call : Call ν}
    (ha : Asks b us s blame call a) (hb : b.build phrase = b.ask blame call)
    (h : InStep b e us s (pre.andThen fun y => (b.build phrase).andThen fun x => Work.done (y, x)) make
      (fun yx => r yx.1 yx.2) o) :
    InStep b e us s pre make (fun y => a >>= r y) o := by
  intro θ w held k next hw hk
  rw [← h θ w held k next hw hk, hb]
  simp only [Reading.bind_assoc, Work.andThen_assoc, Work.done_andThen]
  simp only [ha _]

theorem asked {a : δ → Reading σ ν} {call : δ → Call ν} (hs : s.At e q)
    (ha : ∀ y, Asks b us s blame (call y) (a y))
    (hb : b.build phrase = pre.andThen fun y => b.ask blame (call y)) :
    InStep b e us s pre b.build a (.read phrase q) :=
  built hs (fun y k => ha y k) hb

theorem returned {make : α → Work σ β} {a : α} (f : δ → β) (hs : s.At e q)
    (hc : make a = pre.andThen fun y => Work.done (f y)) :
    InStep b e us s pre make (fun y => pure (f y)) (.read a q) :=
  built hs (fun _ _ => rfl) hc

/-! ## Moving -/

theorem expected {k : Kind} (h : p.expect e k = .read () q) : p.kind = k ∧ p = q := by
  unfold Place.expect at h
  by_cases hk : p.kind = k
  · rw [if_pos hk] at h
    cases h
    exact ⟨hk, rfl⟩
  · rw [if_neg hk] at h
    split at h <;> cases h

theorem advance (hs : s.At e p) (hk : p.kind ≠ .eof) :
    InStep b e us s (Work.done ()) Work.done (fun _ => Reading.advance) (p.advance e) := by
  rcases hs.advance hk with ⟨s', q, hadvance, hplace, hs'⟩ | ⟨s', f, hadvance, hplace⟩
  · rw [hplace]
    intro θ w held k next _ hnext
    rw [Outcome.andThen_read, ← hnext () q s' rfl hs']
    simp only [Work.done_andThen, Reading.advance, Reading.move_bind_ok hadvance]
  · rw [hplace]
    exact fault (.nil ()) fun _ k => Reading.move_bind_fault hadvance k

theorem check (hs : s.At e p) (k : Kind) :
    InStep b e us s (Work.done ()) Work.done (fun _ => Reading.check k) (p.expect e k) := by
  have fails : ∀ f, s.check k = some f → ∀ (_ : Unit) (next : Unit → Reading σ ν),
      (Reading.check k >>= next).work s us = Work.fail f := by
    intro f hf _ next
    exact Reading.move_bind_fault (by rw [hf]) next
  unfold Session.check at fails
  unfold Place.expect Place.fault
  rw [← hs.kind, ← hs.found, ← hs.span]
  by_cases hk : s.kind = k
  · rw [if_pos hk]
    refine built (c := Work.done) hs (fun _ next => ?_) rfl
    exact Reading.move_bind_ok (by rw [Session.check, if_pos hk]) next
  · rw [if_neg hk] at fails ⊢
    by_cases heof : k = .eof
    · rw [if_pos heof] at fails ⊢
      exact fault (.nil ()) (fails _ rfl)
    · rw [if_neg heof] at fails ⊢
      exact fault (.nil ()) (fails _ rfl)

/-- Passing a lexeme is checking it and moving on. -/
theorem pass_eq (k : Kind) : (Reading.pass k : Reading σ Unit) = Reading.check k >>= fun _ => Reading.advance := by
  funext d
  simp only [Reading.pass, Reading.check, Reading.advance, Reading.move, Session.pass, bind]
  cases d.session.check k <;> rfl

theorem pass (hs : s.At e p) {k : Kind} (hk : k ≠ .eof) :
    InStep b e us s (Work.done ()) Work.done (fun _ => Reading.pass k) (p.pass e k) := by
  rw [pass_eq, Place.pass]
  refine andThen_plain (.nil ()) (check hs k) fun _ q s' ho hs' => ?_
  obtain ⟨hp, rfl⟩ := expected ho
  exact advance hs' (by rw [hp]; exact hk)

/-- Checking a lexeme before passing it makes no difference. -/
theorem check_pass (k : Kind) (r : Reading σ α) :
    (Reading.check k >>= fun _ => Reading.pass k >>= fun _ => r) = Reading.pass k >>= fun _ => r := by
  funext d
  simp only [Reading.pass, Reading.check, Reading.move, Session.pass, bind]
  cases h : d.session.check k <;> simp only [h]

theorem unexpected {make : α → Work σ β} {done : List Phrase} (hp : Builds b pre done) (hs : s.At e p) :
    InStep b e us s pre make (fun _ => Reading.fail s.unexpected)
      (.broken done ⟨.unexpectedToken p.found, p.span e⟩) := by
  have hf : s.unexpected = ⟨.unexpectedToken p.found, p.span e⟩ := by
    rw [Session.unexpected, hs.found, hs.span]
  rw [hf]
  exact fault hp fun _ _ => rfl

end InStep

end StylesheetReversal.Path
