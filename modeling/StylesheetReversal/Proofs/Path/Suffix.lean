import StylesheetReversal.Proofs.Path.InPlace
import StylesheetReversal.Proofs.Path.Moving
import StylesheetReversal.Proofs.Path.Traversal
/-!
# Parsing from an offset

A session that starts inside a text knows nothing of what stands in front of it.  It reads what a session at the start
of the rest would read, only further on (`Session.advance_moved`), and so the parse of a text from an offset is the
parse of the rest with all windows moved (`Builder.parse_suffix`).
-/
namespace StylesheetReversal

namespace Path

/-! ## Moved sessions -/

namespace Session

/-- The session at other offsets, with the same text ahead. -/
def moved (f : Nat → Nat) (s : Session) : Session := { s with before := f s.before, start := f s.start, stop := f s.stop }

@[simp] theorem rest_moved (f : Nat → Nat) (s : Session) : (s.moved f).rest = s.rest := rfl

variable (n : Nat) (s : Session)

/-- Where a session stands makes no difference to what it reads next. -/
theorem advance_moved : (s.moved (· + n)).advance = (s.advance.1.moved (· + n), s.advance.2.map (Fault.moved (· + n))) := by
  have start : s.stop + n + Text.width (s.rest.takeWhile Text.isSpace) =
      s.stop + Text.width (s.rest.takeWhile Text.isSpace) + n := by omega
  have stop : ∀ w, s.stop + Text.width (s.rest.takeWhile Text.isSpace) + n + w =
      s.stop + Text.width (s.rest.takeWhile Text.isSpace) + w + n := by omega
  simp only [advance, moved, span, start, stop, Option.map_map]
  rfl

theorem scan_moved : ∀ (fuel : Nat) (s : Session), (s.moved (· + n)).scan fuel = (s.scan fuel).moved (· + n)
  | 0, _ => rfl
  | fuel + 1, s => by
    rw [scan, scan, advance_moved]
    cases s.advance with
    | mk next fault =>
      cases fault with
      | some f => rfl
      | none =>
        simp only [Option.map_none]
        have kind : (next.moved (· + n)).kind = next.kind := rfl
        rw [kind, scan_moved fuel next]
        split <;> rfl

/-- A session inside a text is one at the start of the rest, moved behind what is skipped. -/
theorem fresh_moved (text : String) (start : Nat) :
    fresh text start = (fresh (String.ofList (Text.cut start text.toList).2) 0).moved
      (· + Text.width (Text.cut start text.toList).1) := by
  generalize hcut : Text.cut start text.toList = parts
  have rest : (Text.cut 0 (String.ofList parts.2).toList).2 = parts.2 :=
    (fresh_rest (String.ofList parts.2)).trans String.toList_ofList
  have stop : Text.width (Text.cut 0 (String.ofList parts.2).toList).1 = 0 := fresh_stop (String.ofList parts.2)
  simp only [fresh, moved, hcut, rest, stop, Nat.zero_add]

end Session

section

variable (text : String) (start : Nat)

/-- **The rest of a text is scanned as if it stood alone**, further on. -/
theorem scan_suffix : scan text start = (scan (String.ofList (Text.cut start text.toList).2) 0).moved
    (· + Text.width (Text.cut start text.toList).1) := by
  unfold scan
  rw [Session.fresh_moved text start]
  dsimp only
  rw [Session.scan_moved, Session.rest_moved]

theorem Phrase.ofText_suffix : Phrase.ofText text start =
    (Phrase.ofText (String.ofList (Text.cut start text.toList).2) 0).moved
      (· + Text.width (Text.cut start text.toList).1)
      (Phrase.moved (· + Text.width (Text.cut start text.toList).1)) := by
  have stop : (Session.fresh text start).stop =
      (Session.fresh (String.ofList (Text.cut start text.toList).2) 0).stop +
        Text.width (Text.cut start text.toList).1 := congrArg Session.stop (Session.fresh_moved text start)
  unfold Phrase.ofText
  rw [Phrase.ofScan_moved, ← scan_suffix, stop]

end

/-! ## Moved phrases -/

namespace Builder

variable {σ ν α β : Type} (f : Nat → Nat)

/-- The same work with the windows of refusals moved. -/
def Work.moved (w : Work σ α) : Work σ α := fun s => ((w s).1.mapError (Fault.moved f), (w s).2)

theorem Work.moved_andThen (w : Work σ α) (next : α → Work σ β) :
    (w.andThen next).moved f = (w.moved f).andThen fun a => (next a).moved f := by
  funext s
  unfold Work.moved Work.andThen
  dsimp only
  cases w s with
  | mk result s' => cases result <;> rfl

variable (b : Builder σ ν)

theorem ask_moved (blame : Span) (c : Call ν) : b.ask (blame.moved f) c = (b.ask blame c).moved f := by
  funext s
  unfold Work.moved ask
  cases b.construct c s with
  | mk result s' => cases result <;> rfl

mutual

/-- Phrases that differ in their windows are built alike. -/
theorem build_moved : ∀ p : Phrase, b.build (p.moved f) = (b.build p).moved f
  | .string .. | .number .. | .axis .. | .variable .. => ask_moved f b _ _
  | .binary _ _ left right | .join _ left right | .predicate _ left right _ => by
    simp only [Phrase.moved, build, Work.moved_andThen, build_moved left, build_moved right, ask_moved]
  | .negation _ inner => by
    simp only [Phrase.moved, build, Work.moved_andThen, build_moved inner, ask_moved]
  | .function _ _ _ args => by
    simp only [Phrase.moved, build, Work.moved_andThen, buildAll_moved args, ask_moved]

theorem buildAll_moved : ∀ ps : List Phrase, b.buildAll (Phrase.movedAll f ps) = (b.buildAll ps).moved f
  | [] => rfl
  | p :: ps => by
    simp only [Phrase.movedAll, buildAll, Work.moved_andThen, build_moved p, buildAll_moved ps]
    rfl

end

theorem buildOutcome_moved (o : Outcome Phrase) :
    b.buildOutcome (o.moved f (Phrase.moved f)) = (b.buildOutcome o).moved f := by
  cases o with
  | read phrase q => exact build_moved f b phrase
  | broken complete fault =>
    simp only [Outcome.moved, buildOutcome, Work.moved_andThen, buildAll_moved]
    rfl

variable {b}

theorem finish_traced (keeps : ∀ node s, (b.finish (some node) s).1 = some node) (node : ν) (d : σ × List (Event ν)) :
    (b.traced.finish (some node) d).1 = some node := keeps node d.1

/-- A parse from an offset does what the parse of the rest does, if the builder does not give up a result. -/
theorem parse_cut (keeps : ∀ node s, (b.finish (some node) s).1 = some node) (text : String) (start : Nat) (s : σ) :
    b.parse text start s =
      ((b.parse (String.ofList (Text.cut start text.toList).2) 0 s).1.mapError fun e =>
        ⟨e.toFault.moved (· + Text.width (Text.cut start text.toList).1), text⟩,
      (b.parse (String.ofList (Text.cut start text.toList).2) 0 s).2) := by
  rw [parse_eq, parse_eq, Phrase.ofText_suffix text start, buildOutcome_moved]
  unfold Work.moved
  cases b.buildOutcome (Phrase.ofText (String.ofList (Text.cut start text.toList).2) 0) (b.start s) with
  | mk answer s' =>
    cases answer with
    | error fault => rfl
    | ok node =>
      have answered (g : Fault → Fault) : (Except.ok node).mapError g = .ok node := rfl
      have kept : b.finish (some node) s' = (some node, (b.finish (some node) s').2) := Prod.ext (keeps node s') rfl
      simp only [answered]
      rw [kept]
      rfl

/-- **Parsing at an offset is parsing the rest.**  The offset counts as the last character boundary that is not behind
it.  The builder is told the same, in the same order and with the same nodes, and the result is the same node or the
same fault, with its window moved behind what was skipped. -/
theorem parse_suffix (b : Builder σ ν) (keeps : ∀ node s, (b.finish (some node) s).1 = some node) (text : String)
    (start : Nat) (s : σ) (log : List (Event ν)) :
    let offset := Text.width (Text.cut start text.toList).1
    let suffix := String.ofList (Text.cut start text.toList).2
    let moved : ParseError → ParseError := fun e => ⟨⟨e.cause, ⟨e.span.start + offset, e.span.stop + offset⟩⟩, text⟩
    IsGreatest {k | String.Pos.Raw.IsValid text ⟨k⟩ ∧ k ≤ min start text.utf8ByteSize} offset ∧
      (∃ skipped : String, text = skipped ++ suffix ∧ skipped.utf8ByteSize = offset) ∧
      b.parse text start s = ((b.parse suffix 0 s).1.mapError moved, (b.parse suffix 0 s).2) ∧
      b.traced.parse text start (s, log) =
        ((b.traced.parse suffix 0 (s, log)).1.mapError moved, (b.traced.parse suffix 0 (s, log)).2) := by
  refine ⟨Text.isGreatest_width_cut text start, ⟨String.ofList (Text.cut start text.toList).1, ?_, ?_⟩,
    parse_cut keeps text start s, parse_cut (finish_traced keeps) text start (s, log)⟩
  · rw [← String.ofList_append, Text.cut_append, String.ofList_toList]
  · exact (Text.width_ofList _).symm

theorem parse_suffix_inside : (∀ (node : Expr) (s : Unit), (Expr.builder.finish (some node) s).1 = some node) ∧
    (Expr.builder.parse "1 + é)" 5 ()).1 = .error ⟨⟨.endExpected ")", ⟨6, 7⟩⟩, "1 + é)"⟩ := by
  have keeps : ∀ (node : Expr) (s : Unit), (Expr.builder.finish (some node) s).1 = some node := fun _ _ => rfl
  obtain ⟨-, -, hparse, -⟩ := parse_suffix Expr.builder keeps "1 + é)" 5 () []
  have rest : (Expr.builder.parse "é)" 0 ()).1 = .error ⟨⟨.endExpected ")", ⟨2, 3⟩⟩, "é)"⟩ := by
    rw [parse_eq]
    rfl
  refine ⟨keeps, ?_⟩
  have cut : Text.cut 5 "1 + é)".toList = ("1 + ".toList, "é)".toList) := by decide
  rw [hparse, cut, String.ofList_toList, rest]
  rfl

end Builder

end Path

end StylesheetReversal
