import StylesheetReversal.Proofs.Path.InPlace
import StylesheetReversal.Proofs.Path.LongestMatch
/-!
# What a lexeme announces

A name is an axis only where colons follow, and it may be called only where a parenthesis does.  Both are looked for in the
characters ahead, before it is known what lexeme they make.  They make the lexeme that is meant, and no faulty one: what is
announced is what is read next (`axis_promises`, `isCallable_promises`).
-/
namespace StylesheetReversal.Path

namespace Munch

theorem wordKind_axis {prev : Kind} {word rest : List Char} (h : wordKind prev word rest = .axis) :
    beforeColons rest = true ∧ (Axis.ofName? (String.ofList word)).isSome = true := by
  have keywordKinds : ∀ k ∈ keywords, k ≠ .axis := by decide
  unfold wordKind at h
  split at h
  · next k hk =>
    by_cases hprev : prev.endsOperand = true
    · rw [if_pos hprev] at h
      exact absurd h (keywordKinds k ((keyword?_eq_some_iff word k).1 hk).1)
    · rw [if_neg hprev] at h
      cases h
  · by_cases hnamed : beforeColons rest = true ∧ (Axis.ofName? (String.ofList word)).isSome = true
    · exact hnamed
    · rw [if_neg hnamed] at h
      cases h

end Munch

/-- A lexeme is an axis only if it names one and colons follow. -/
theorem munch_axis {prev : Kind} {text : List Char} (h : (munch prev text).kind = .axis) :
    Munch.beforeColons (munch prev text).rest = true ∧
      (Axis.ofName? (String.ofList (munch prev text).taken)).isSome = true := by
  have taken := munch_eq_word h
  rw [taken] at h ⊢
  rcases Munch.word_cases prev text with hw | ⟨hname, -⟩
  · rw [hw] at h ⊢
    exact Munch.wordKind_axis h
  · rw [hname] at h
    cases h

namespace Session

variable {s : Session}

/-- The next lexeme can be read, and is of this kind. -/
def Announces (s : Session) (k : Kind) : Prop := ∃ next, s.advance = (next, none) ∧ next.kind = k

theorem announces_of_munch {k : Kind} (h : (munch s.kind (s.rest.dropWhile Text.isSpace)).kind = k)
    (hk : k ∉ wordKinds ∧ k ∉ [.number, .string, .unknown, .eof, .multiply]) : s.Announces k := by
  obtain ⟨-, -, -, hdefect⟩ := munch_fixed h hk
  have sound : s.advance.2 = none := Option.map_eq_none_iff.2 hdefect
  exact ⟨s.advance.1, by rw [← sound], h⟩

/-- **An axis promises its colons**, and it is one of the axes. -/
theorem axis_promises (h : s.advance.1.kind = .axis) :
    s.advance.1.axis.isSome = true ∧ s.advance.1.Announces .colonColon := by
  obtain ⟨hcolons, hnamed⟩ := munch_axis h
  have held : s.advance.1.axis = Axis.ofName? (String.ofList s.advance.1.text) := by
    change axisAfter (munch s.kind (s.rest.dropWhile Text.isSpace)) s.axis = _
    rw [axisAfter, show (munch s.kind (s.rest.dropWhile Text.isSpace)).kind = .axis from h]
    rfl
  refine ⟨by rw [held]; exact hnamed, announces_of_munch ?_ (by decide)⟩
  exact (beforeColons_iff s.advance.1.kind s.advance.1.rest).1 hcolons

/-- **A name that may be called promises its parenthesis.** -/
theorem isCallable_promises (h : s.isCallable = true) : s.Announces .lparen := by
  simp only [isCallable, Bool.and_eq_true] at h
  exact announces_of_munch ((beforeParen_iff s.kind s.rest).1 h.2) (by decide)

end Session

end StylesheetReversal.Path
