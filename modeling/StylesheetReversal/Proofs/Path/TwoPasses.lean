import StylesheetReversal.Proofs.Path.Interleaving
import StylesheetReversal.Proofs.Path.Tree
/-!
# Parsing in two passes

Parsing with a builder comes to the same as reading the whole text as a phrase and building the phrase
afterwards (`Builder.parse_eq`).  A fault in the text is met when all that is complete in front of it has
been built, and a refusal of the builder when nothing behind it has been looked at.
-/
namespace StylesheetReversal.Path

/-! ## The first pass -/

namespace Phrase

variable {m : Nat} {s : Scan}

/-- Reading a scan is reading an operand of any operators, up to the end. -/
theorem ofScan_eq (hs : Place.Stands s.ending ⟨m, s.lexemes⟩) :
    Phrase.ofScan m s = (Rule.operand s.ending (Rule.fuel s.lexemes.length) none 0 ⟨m, s.lexemes⟩).andThen []
      fun phrase p => (p.expect s.ending .eof).andThen [phrase] fun _ p => .read phrase p := by
  obtain ⟨ls, e⟩ := s
  cases ls with
  | cons l ls => rfl
  | nil =>
    obtain ⟨n, rfl⟩ := hs rfl
    rfl

theorem ofScan_faulty (hs : ¬ Place.Stands s.ending ⟨m, s.lexemes⟩) :
    ∃ f, s = ⟨[], .faulty f⟩ ∧ Phrase.ofScan m s = .broken [] f := by
  obtain ⟨ls, e⟩ := s
  cases ls with
  | cons l ls => exact absurd (Place.stands_cons e m l ls) hs
  | nil =>
    cases e with
    | atEnd n => exact absurd (fun _ => ⟨n, rfl⟩) hs
    | faulty f => exact ⟨f, rfl, rfl⟩

theorem fuel_suffices (n : Nat) : 12 * n + 6 ≤ Rule.fuel n := by
  unfold Rule.fuel
  omega

/-- What the rule for whole expressions does to a scan, and with any more fuel. -/
theorem operand_meets {k' : Nat} (hs : Place.Stands s.ending ⟨m, s.lexemes⟩)
    (hk : Rule.fuel s.lexemes.length ≤ k') :
    (Rule.operand s.ending (Rule.fuel s.lexemes.length) none 0 ⟨m, s.lexemes⟩).Meets s.ending
      ⟨m, s.lexemes⟩ (fun w t kind => Derives .expr w t.expr ∧ Closed 0 kind) False
      (fun e' p' => Rule.operand e' k' none 0 p') :=
  (ruleSpecs _).operand hk hs (Nat.zero_le 7) (fuel_suffices s.lexemes.length)

/-- What the text is read as from byte `start` on. -/
def ofText (text : String) (start : Nat) : Outcome Phrase :=
  ofScan (Session.fresh text start).stop (scan text start)

end Phrase

/-! ## The second pass -/

namespace InStep

open Builder (Work)

variable {σ ν : Type} {b : Builder σ ν}

/-- A piece that is all there is comes to its outcome. -/
theorem work_eq {e : Ending} {us : List Span} {s : Session} {r : Reading σ ν} {o : Outcome Phrase}
    (h : InStep b e us s (Work.done ()) b.build (fun _ => r) o) : r.work s us = b.buildOutcome o := by
  have all := h Unit (Work.done ()) [] (fun _ node => pure node) .read (.nil ()) fun phrase q s' _ _ => ?_
  · have pure : (r >>= fun node => pure node) = r := by
      funext d
      simp only [bind]
      cases r d with
      | mk result d' => cases result <;> rfl
    have same : o.andThen [] Outcome.read = o := by cases o <;> rfl
    rw [same] at all
    simp only [Work.done_andThen, pure] at all
    exact all
  · exact Work.andThen_done _

theorem expression (text : String) (start : Nat) :
    (Parser.expression b (Parser.fuel (Session.fresh text start).rest.length)).work
      (Session.fresh text start) [] = b.buildOutcome (Phrase.ofText text start) := by
  unfold Parser.expression Phrase.ofText scan
  generalize Session.fresh text start = s
  dsimp only
  have enough : Rule.fuel (s.scan (s.rest.length + 1)).lexemes.length ≤ Parser.fuel s.rest.length := by
    have := s.scan_length (s.rest.length + 1)
    unfold Rule.fuel Parser.fuel
    omega
  rcases s.scan_advance (Nat.lt_succ_self _) with ⟨s', hadvance, hs'⟩ | ⟨s', f, hadvance, hscan⟩
  · rw [Reading.advance, Reading.move_bind_ok hadvance]
    have stands : Place.Stands (s.scan (s.rest.length + 1)).ending ⟨s.stop, (s.scan (s.rest.length + 1)).lexemes⟩ := by
      rcases hs'.ahead with ⟨-, -, hend⟩ | ⟨-, i, -, hcons, -⟩
      · exact fun _ => ⟨_, hend⟩
      · intro h
        rw [hcons] at h
        cases h
    rw [Phrase.ofScan_eq stands, ← (Phrase.operand_meets stands enough).alt_eq]
    refine work_eq (e := (s.scan (s.rest.length + 1)).ending) ?_
    refine andThen_first ((inSteps b _).operand hs') fun phrase q s'' _ hs'' => ?_
    refine andThen_plain (.single phrase) (check hs'' .eof) fun _ q' s3 _ hs3 => ?_
    exact returned id hs3 (Work.andThen_done _).symm
  · rw [Reading.advance, Reading.move_bind_fault hadvance, hscan]
    rfl

end InStep

/-- **Parsing is reading a phrase and then building it.** -/
theorem Builder.parse_eq {σ ν : Type} (b : Builder σ ν) (text : String) (start : Nat) (s : σ) :
    b.parse text start s =
      match b.buildOutcome (Phrase.ofText text start) (b.start s) with
      | (.error fault, s) => (.error ⟨fault, text⟩, (b.finish none s).2)
      | (.ok node, s) =>
        match b.finish (some node) s with
        | (some result, s) => (.ok result, s)
        | (none, s) =>
          (.error ⟨⟨.rejected "the builder discarded the result", ⟨start, text.utf8ByteSize⟩⟩, text⟩, s) := by
  have work := congrFun (InStep.expression (b := b) text start) (b.start s)
  rw [← work]
  unfold Builder.parse Reading.work
  dsimp only
  cases Parser.expression b (Parser.fuel (Session.fresh text start).rest.length)
    ⟨Session.fresh text start, [], b.start s⟩ with
  | mk result d => cases result <;> rfl

/-- The tree of a text is that of the phrase it is read as. -/
theorem Expr.parseFrom_eq (text : String) (start : Nat) :
    Expr.parseFrom text start =
      match Phrase.ofText text start with
      | .read phrase _ => .ok phrase.expr
      | .broken _ fault => .error ⟨fault, text⟩ := by
  unfold Expr.parseFrom
  rw [Builder.parse_eq]
  cases Phrase.ofText text start with
  | read phrase q =>
    simp only [Builder.buildOutcome, Expr.build_builder]
    rfl
  | broken done f =>
    simp only [Builder.buildOutcome, Builder.Work.andThen, Expr.buildAll_builder]

end StylesheetReversal.Path
