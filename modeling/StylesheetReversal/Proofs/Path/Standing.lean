import StylesheetReversal.Path.Parser
import StylesheetReversal.Proofs.Path.Rules
import StylesheetReversal.Proofs.Path.Windows
/-!
# Sessions and places

The parser stands in a session of the text, which reads lexemes when they are wanted; the rules for
phrases stand at a place between lexemes that have all been scanned before.  `Session.At` says that the
two stand at the same lexeme.  They then look the same to every rule, although a session keeps what it
said of axes and strings apart and searches the text for the parenthesis behind a name.
-/
namespace StylesheetReversal.Path

/-- The kind of the first lexeme of a scan, as far as it is that of a parenthesis. -/
theorem Session.scan_kind (s : Session) {fuel : Nat} (hf : s.rest.length < fuel) :
    (munch s.kind (s.rest.dropWhile Text.isSpace)).kind = .lparen ↔
      Place.kindAfter ⟨s.before, s.lexeme :: (s.scan fuel).lexemes⟩ = .lparen := by
  obtain ⟨i, rfl⟩ : ∃ i, fuel = i + 1 := ⟨fuel - 1, by omega⟩
  have hkind : s.advance.1.kind = (munch s.kind (s.rest.dropWhile Text.isSpace)).kind := rfl
  have hdefect : s.advance.2 = (munch s.kind (s.rest.dropWhile Text.isSpace)).defect.map
      fun cause => ⟨cause, s.advance.1.span⟩ := rfl
  rw [← hkind]
  cases hadvance : s.advance with
  | mk next fault =>
    rw [hadvance] at hkind hdefect
    simp only [Session.scan, hadvance]
    cases fault with
    | some f =>
      constructor
      · intro h
        obtain ⟨-, -, -, hnone⟩ := munch_fixed (hkind.symm.trans h) (by decide)
        rw [hnone] at hdefect
        cases hdefect
      · intro h
        cases h
    | none =>
      dsimp only
      by_cases hk : next.kind = .eof
      · rw [if_pos hk, hk]
        constructor <;> intro h <;> cases h
      · rw [if_neg hk]
        exact Iff.rfl

/-- The session stands at the place: it has got there by reading a lexeme that is not faulty, and the
lexemes ahead are those that it still has to scan. -/
structure Session.At (s : Session) (e : Ending) (p : Place) : Prop where
  reached : ∃ before : Session, before.advance = (s, none)
  last : p.last = s.before
  ahead : (s.kind = .eof ∧ p.ahead = [] ∧ e = .atEnd s.start) ∨
    (s.kind ≠ .eof ∧ ∃ fuel, s.rest.length < fuel ∧ p.ahead = s.lexeme :: (s.scan fuel).lexemes ∧
      e = (s.scan fuel).ending)

/-- Reading one lexeme gets in front of all that are scanned, or finds that there is none. -/
theorem Session.scan_advance (s : Session) {fuel : Nat} (hf : s.rest.length < fuel) :
    (∃ s', s.advance = (s', none) ∧ s'.At (s.scan fuel).ending ⟨s.stop, (s.scan fuel).lexemes⟩) ∨
      ∃ s' f, s.advance = (s', some f) ∧ s.scan fuel = ⟨[], .faulty f⟩ := by
  obtain ⟨i, rfl⟩ : ∃ i, fuel = i + 1 := ⟨fuel - 1, by omega⟩
  cases hadvance : s.advance with
  | mk s' fault =>
    have hs' : s' = s.advance.1 := by rw [hadvance]
    simp only [Session.scan, hadvance]
    cases fault with
    | some f => exact .inr ⟨s', f, rfl, rfl⟩
    | none =>
      refine .inl ⟨s', rfl, ⟨s, hadvance⟩, by rw [hs']; rfl, ?_⟩
      dsimp only
      by_cases hk : s'.kind = .eof
      · rw [if_pos hk]
        exact .inl ⟨hk, rfl, rfl⟩
      · rw [if_neg hk]
        have := s.advance_length (by rw [← hs']; exact hk)
        rw [← hs'] at this
        exact .inr ⟨hk, i, by omega, rfl, rfl⟩

namespace Session.At

variable {s : Session} {e : Ending} {p : Place}

theorem munched (h : s.At e p) : ∃ prev text, (munch prev text).defect = none ∧
    s.kind = (munch prev text).kind ∧ s.text = (munch prev text).taken ∧
    s.stop = s.start + Text.width (munch prev text).taken ∧
    (∃ held, s.axis = Session.axisAfter (munch prev text) held) ∧
    ∃ held, s.content = Session.contentAfter (munch prev text) held := by
  obtain ⟨before, hb⟩ := h.reached
  have hs : s = before.advance.1 := by rw [hb]
  have hd : before.advance.2 = none := by rw [hb]
  refine ⟨before.kind, before.rest.dropWhile Text.isSpace, Option.map_eq_none_iff.1 hd, ?_⟩
  subst hs
  exact ⟨rfl, rfl, rfl, ⟨_, rfl⟩, ⟨_, rfl⟩⟩

theorem kind (h : s.At e p) : s.kind = p.kind := by
  obtain ⟨n, ls⟩ := p
  rcases h.ahead with ⟨hk, hp, -⟩ | ⟨-, fuel, -, hp, -⟩
  · subst hp
    exact hk
  · subst hp
    rfl

theorem text (h : s.At e p) : s.text = p.text := by
  obtain ⟨n, ls⟩ := p
  rcases h.ahead with ⟨hk, hp, -⟩ | ⟨-, fuel, -, hp, -⟩
  · subst hp
    obtain ⟨prev, text, -, hkind, htext, -⟩ := h.munched
    cases text with
    | nil => exact htext
    | cons c cs => exact absurd (hkind.symm.trans hk) (munch_kind_ne_eof (List.cons_ne_nil c cs))
  · subst hp
    rfl

theorem name (h : s.At e p) : s.name = p.name := congrArg WrittenName.ofChars h.text

theorem span (h : s.At e p) : s.span = p.span e := by
  obtain ⟨n, ls⟩ := p
  rcases h.ahead with ⟨hk, hp, rfl⟩ | ⟨-, fuel, -, hp, -⟩
  · have hstop : s.stop = s.start := by
      obtain ⟨prev, text, -, -, htext, hwidth, -⟩ := h.munched
      have hnil : s.text = [] := by
        rw [h.text]
        subst hp
        rfl
      rw [hwidth, ← htext, hnil]
      rfl
    subst hp
    show (⟨s.start, s.stop⟩ : Span) = ⟨s.start, s.start⟩
    rw [hstop]
  · subst hp
    rfl

theorem found (h : s.At e p) : s.found = p.found := by
  unfold Session.found
  rw [h.text]
  obtain ⟨n, ls⟩ := p
  rcases h.ahead with ⟨hk, hp, -⟩ | ⟨hk, fuel, -, hp, -⟩
  · subst hp
    rw [if_pos hk]
    rfl
  · subst hp
    rw [if_neg hk]
    rfl

theorem namesNodeType (h : s.At e p) : s.namesNodeType = p.namesNodeType := by
  rw [Session.namesNodeType, h.name]
  rfl

theorem startsStep (h : s.At e p) : s.startsStep = p.startsStep := by
  rw [Session.startsStep, h.kind]
  rfl

theorem content (h : s.At e p) (hk : p.kind = .string) : String.ofList s.content = p.content := by
  obtain ⟨prev, text, hd, hkind, htext, -, -, held, hc⟩ := h.munched
  have hm : (munch prev text).kind = .string := by rw [← hkind, h.kind, hk]
  rw [hc, Session.contentAfter, if_pos ⟨hm, by rw [hd]; rfl⟩, ← htext, h.text]
  rfl

/-- The axis that a session keeps is that of the current lexeme, where that is an axis. -/
theorem axis (h : s.At e p) (hk : p.kind = .axis) : s.axis = Axis.ofName? p.name.base := by
  obtain ⟨prev, text, -, hkind, htext, -, ⟨held, ha⟩, -⟩ := h.munched
  have hm : (munch prev text).kind = .axis := by rw [← hkind, h.kind, hk]
  have hname : p.name.base = String.ofList (munch prev text).taken := by
    rw [← h.name]
    show (WrittenName.ofChars s.text).base = _
    rw [htext]
    exact munch_axis_base hm
  rw [ha, Session.axisAfter, hm, hname]

/-- **The parenthesis a session searches for is the lexeme after the one ahead.** -/
theorem isCallable (h : s.At e p) : s.isCallable = p.isCall := by
  unfold Session.isCallable Place.isCall
  rw [h.kind, h.name]
  by_cases hn : p.kind = .name
  · have after : Munch.beforeParen s.rest = decide (p.kindAfter = .lparen) := by
      obtain ⟨n, ls⟩ := p
      rcases h.ahead with ⟨hk, -, -⟩ | ⟨-, fuel, hf, hp, -⟩
      · rw [h.kind, hn] at hk
        cases hk
      · subst hp
        rw [Bool.eq_iff_iff, beforeParen_iff s.kind, decide_eq_true_eq]
        exact s.scan_kind hf
    rw [after]
  · simp [hn]

theorem startsPrimary (h : s.At e p) : s.startsPrimary = p.startsPrimary := by
  rw [Session.startsPrimary, h.kind, h.isCallable, h.namesNodeType]
  rfl

/-- **Moving on keeps the two together**, or finds the same fault. -/
theorem advance (h : s.At e p) (hk : p.kind ≠ .eof) :
    (∃ s' q, s.advance = (s', none) ∧ p.advance e = .read () q ∧ s'.At e q) ∨
      ∃ s' f, s.advance = (s', some f) ∧ p.advance e = .broken [] f := by
  obtain ⟨n, ls⟩ := p
  rcases h.ahead with ⟨hs, -, -⟩ | ⟨-, fuel, hf, rfl, rfl⟩
  · exact absurd (h.kind.symm.trans hs) hk
  rcases s.scan_advance hf with ⟨s', hadvance, hs'⟩ | ⟨s', f, hadvance, hscan⟩
  · refine .inl ⟨s', _, hadvance, ?_, hs'⟩
    -- where nothing is ahead, it is the text that ends
    rcases hs'.ahead with ⟨-, hnil, hend⟩ | ⟨-, i, -, hcons, -⟩
    · dsimp only at hnil
      rw [hnil, hend]
      rfl
    · dsimp only at hcons
      rw [hcons]
      rfl
  · rw [hscan]
    exact .inr ⟨s', f, hadvance, rfl⟩

end Session.At

end StylesheetReversal.Path
