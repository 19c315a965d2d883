import StylesheetReversal.Path.Lexer
/-!
# The kinds of the next lexeme

`munch` decides by the first characters what the next lexeme is (`munch_cases`).  What follows from that
about kinds, about faulty lexemes and about the characters that look-ahead searches for is collected here.
-/
namespace StylesheetReversal.Path

open Munch

/-- The ways in which a lexeme is taken. -/
theorem munch_cases (prev : Kind) (c : Char) (cs : List Char) :
    munch prev (c :: cs) = number (c :: cs) ∨ munch prev (c :: cs) = quoted c cs ∨
      (munch prev (c :: cs) = word prev (c :: cs) ∧ Text.isNameStart c = true) ∨
      (∃ spelling kind, (spelling, kind) ∈ fixed ∧ spelling.isPrefixOf (c :: cs) = true ∧
        munch prev (c :: cs) = ⟨if kind = .star ∧ prev.endsOperand = true then .multiply else kind, spelling,
          (c :: cs).drop spelling.length, none⟩) ∨
      munch prev (c :: cs) = ⟨.unknown, [c], cs, none⟩ := by
  by_cases hn : startsNumber (c :: cs) = true
  · exact .inl (by rw [munch, if_pos hn])
  by_cases hq : c = '"' ∨ c = '\''
  · exact .inr (.inl (by rw [munch, if_neg hn, if_pos hq]))
  by_cases hs : Text.isNameStart c = true
  · exact .inr (.inr (.inl ⟨by rw [munch, if_neg hn, if_neg hq, if_pos hs], hs⟩))
  cases hf : fixed? (c :: cs) with
  | none =>
    have unknown : munch prev (c :: cs) = ⟨.unknown, [c], cs, none⟩ := by
      rw [munch, if_neg hn, if_neg hq, hf]
      exact if_neg hs
    exact .inr (.inr (.inr (.inr unknown)))
  | some entry =>
    have mark : munch prev (c :: cs) = ⟨if entry.2 = .star ∧ prev.endsOperand = true then .multiply else entry.2,
        entry.1, (c :: cs).drop entry.1.length, none⟩ := by
      rw [munch, if_neg hn, if_neg hq, hf]
      exact if_neg hs
    have hprefix : entry.1.isPrefixOf (c :: cs) = true := by
      unfold fixed? at hf
      have := List.find?_some hf
      exact this
    exact .inr (.inr (.inr (.inl ⟨entry.1, entry.2, List.mem_of_find?_eq_some hf, hprefix, mark⟩)))

theorem number_kind (cs : List Char) : (number cs).kind = .number := by
  unfold number
  split
  · rfl
  · split <;> rfl

theorem quoted_kind (c : Char) (cs : List Char) : (quoted c cs).kind = .string := by
  unfold quoted
  split <;> rfl

/-- The kinds of lexeme that are spelled like names. -/
def wordKinds : List Kind := [.name, .axis, .or, .and, .divide, .modulo]

theorem wordKind_mem (prev : Kind) (cs rest : List Char) : wordKind prev cs rest ∈ wordKinds := by
  unfold wordKind keyword?
  split
  · next h =>
    split at h <;> cases h <;> split <;> decide
  · split <;> decide

theorem word_kind (prev : Kind) (cs : List Char) : (word prev cs).kind ∈ wordKinds := by
  have plain : Kind.name ∈ wordKinds := by decide
  simp only [word]
  split
  · split
    · exact plain
    · split
      · exact plain
      · exact wordKind_mem _ _ _
  · exact wordKind_mem _ _ _

/-- A lexeme of a kind that only a fixed spelling has is spelled that way. -/
theorem munch_fixed {prev k : Kind} {text : List Char} (h : (munch prev text).kind = k)
    (hk : k ∉ wordKinds ∧ k ∉ [.number, .string, .unknown, .eof, .multiply]) :
    ∃ spelling, (spelling, k) ∈ fixed ∧ spelling.isPrefixOf text = true ∧ (munch prev text).defect = none := by
  cases text with
  | nil =>
    have : k = .eof := h.symm
    subst this
    exact absurd hk.2 (by decide)
  | cons c cs =>
    rcases munch_cases prev c cs with hm | hm | ⟨hm, -⟩ | ⟨spelling, kind, hmem, hprefix, hm⟩ | hm
    · rw [hm, number_kind] at h
      subst h
      exact absurd hk.2 (by decide)
    · rw [hm, quoted_kind] at h
      subst h
      exact absurd hk.2 (by decide)
    · rw [hm] at h
      exact absurd (h ▸ word_kind prev (c :: cs)) hk.1
    · rw [hm] at h ⊢
      dsimp only at h
      split at h
      · subst h
        exact absurd hk.2 (by decide)
      · exact ⟨spelling, h ▸ hmem, hprefix, rfl⟩
    · have : k = .unknown := by rw [← h, hm]
      subst this
      exact absurd hk.2 (by decide)

/-! ## The end of the text -/

theorem munch_kind_ne_eof {prev : Kind} {text : List Char} (h : text ≠ []) : (munch prev text).kind ≠ .eof := by
  have fixedKinds : ∀ entry ∈ fixed, entry.2 ≠ .eof := by decide
  cases text with
  | nil => exact absurd rfl h
  | cons c cs =>
    rcases munch_cases prev c cs with hm | hm | ⟨hm, -⟩ | ⟨spelling, kind, hmem, -, hm⟩ | hm <;> rw [hm]
    · rw [number_kind]
      exact nofun
    · rw [quoted_kind]
      exact nofun
    · intro hk
      have := word_kind prev (c :: cs)
      rw [hk] at this
      exact absurd this (by decide)
    · dsimp only
      split
      · exact nofun
      · exact fixedKinds _ hmem
    · exact nofun

theorem munch_nil_of_kind {prev : Kind} {text : List Char} (h : (munch prev text).kind ≠ .eof) :
    text ≠ [] := by
  rintro rfl
  exact h rfl

/-! ## Faulty lexemes -/

theorem number_defect {cs : List Char} {cause : Cause} (h : (number cs).defect = some cause) :
    cause = .scientificNotation := by
  unfold number at h
  split at h
  · cases h
  · split at h
    · cases h
      rfl
    · cases h

theorem quoted_defect {c : Char} {cs : List Char} {cause : Cause} (h : (quoted c cs).defect = some cause) :
    cause = .unclosedString := by
  unfold quoted at h
  split at h
  · cases h
    rfl
  · cases h

theorem word_defect (prev : Kind) (cs : List Char) : (word prev cs).defect = none := by
  simp only [word]
  split
  · split
    · rfl
    · split <;> rfl
  · rfl

/-- Only numbers and strings can be faulty lexemes. -/
theorem munch_defect {prev : Kind} {text : List Char} {cause : Cause}
    (h : (munch prev text).defect = some cause) : cause = .scientificNotation ∨ cause = .unclosedString := by
  cases text with
  | nil => cases h
  | cons c cs =>
    rcases munch_cases prev c cs with hm | hm | ⟨hm, -⟩ | ⟨_, _, _, _, hm⟩ | hm <;> rw [hm] at h
    · exact .inl (number_defect h)
    · exact .inr (quoted_defect h)
    · rw [word_defect] at h
      cases h
    · cases h
    · cases h

/-! ## Look-ahead -/

/-- Searching the text for a mark that is spelled in one way, and starts no longer one, tells whether the next lexeme
is this mark. -/
theorem isPrefixOf_iff_munch {prev k : Kind} {spelling : List Char}
    (hm : ∀ cs, (munch prev (spelling ++ cs)).kind = k) (hs : ∀ entry ∈ fixed, entry.2 = k → entry.1 = spelling)
    (hk : k ∉ wordKinds ∧ k ∉ [.number, .string, .unknown, .eof, .multiply]) (text : List Char) :
    spelling.isPrefixOf text = true ↔ (munch prev text).kind = k := by
  constructor
  · intro h
    obtain ⟨cs, rfl⟩ := List.isPrefixOf_iff_prefix.1 h
    exact hm cs
  · intro h
    obtain ⟨found, hmem, hprefix, -⟩ := munch_fixed h hk
    rw [← hs _ hmem rfl]
    exact hprefix

/-- Searching the text for a parenthesis tells whether the next lexeme is one. -/
theorem beforeParen_iff (prev : Kind) (rest : List Char) :
    beforeParen rest = true ↔ (munch prev (rest.dropWhile Text.isSpace)).kind = .lparen :=
  isPrefixOf_iff_munch (fun _ => rfl) (by decide) (by decide) _

/-- Searching the text for colons tells whether the next lexeme is made of them. -/
theorem beforeColons_iff (prev : Kind) (rest : List Char) :
    beforeColons rest = true ↔ (munch prev (rest.dropWhile Text.isSpace)).kind = .colonColon :=
  isPrefixOf_iff_munch (fun _ => rfl) (by decide) (by decide) _

/-! ## Axes -/

theorem splitColon?_takeWhile (cs : List Char) : Text.splitColon? (cs.takeWhile Text.isNameChar) = none := by
  have nothing : (cs.takeWhile Text.isNameChar).dropWhile (· != ':') = [] := by
    induction cs with
    | nil => rfl
    | cons c cs ih =>
      by_cases hc : Text.isNameChar c = true
      · have : c ≠ ':' := by
          rintro rfl
          exact absurd hc (by decide)
        simp [hc, this, ih]
      · simp [hc]
  rw [Text.splitColon?, nothing]

/-- What is an axis was taken as a name. -/
theorem munch_eq_word {prev : Kind} {text : List Char} (h : (munch prev text).kind = .axis) :
    munch prev text = word prev text := by
  have fixedKinds : ∀ entry ∈ fixed, entry.2 ≠ .axis := by decide
  cases text with
  | nil => cases h
  | cons c cs =>
    rcases munch_cases prev c cs with hm | hm | ⟨hm, -⟩ | ⟨spelling, kind, hmem, -, hm⟩ | hm
    · rw [hm, number_kind] at h
      cases h
    · rw [hm, quoted_kind] at h
      cases h
    · exact hm
    · rw [hm] at h
      dsimp only at h
      split at h
      · cases h
      · exact absurd h (fixedKinds _ hmem)
    · rw [hm] at h
      cases h

/-- An axis is a name without a colon, so it is its own base. -/
theorem munch_axis_base {prev : Kind} {text : List Char} (h : (munch prev text).kind = .axis) :
    (WrittenName.ofChars (munch prev text).taken).base = String.ofList (munch prev text).taken := by
  have plain : ∀ cs : List Char, (WrittenName.ofChars (cs.takeWhile Text.isNameChar)).base =
      String.ofList (cs.takeWhile Text.isNameChar) := by
    intro cs
    rw [WrittenName.ofChars, splitColon?_takeWhile]
  have taken := munch_eq_word h
  rw [taken] at h ⊢
  revert h
  simp only [word]
  split
  · split
    · intro h
      cases h
    · split
      · intro h
        cases h
      · exact fun _ => plain text
  · exact fun _ => plain text

end StylesheetReversal.Path
