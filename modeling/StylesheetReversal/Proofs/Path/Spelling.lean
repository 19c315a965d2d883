import StylesheetReversal.Proofs.Path.Munch
import StylesheetReversal.Proofs.Xml.Names
import StylesheetReversal.Path.Session
/-!
# How names are spelled

A lexeme of kind `name` is a name without a colon, or two such names around one, the second of which may be a
star (`scan_spells`).
-/
namespace StylesheetReversal.Path

/-- The spellings of lexemes of kind `name`. -/
inductive Spells : List Char → Prop
  | plain {base : List Char} : Text.isName base = true → Spells base
  | qualified {qualifier base : List Char} :
      Text.isName qualifier = true → Text.isName base = true → Spells (qualifier ++ ':' :: base)
  | wildcard {qualifier : List Char} : Text.isName qualifier = true → Spells (qualifier ++ [':', '*'])

/-! ## The parts of a name -/

namespace WrittenName

theorem ofChars_of_isName {base : List Char} (h : Text.isName base = true) : ofChars base = ⟨"", String.ofList base⟩ := by
  rw [ofChars, Text.splitColon?_of_isName h]

theorem ofChars_append {qualifier : List Char} (h : Text.isName qualifier = true) (base : List Char) :
    ofChars (qualifier ++ ':' :: base) = ⟨String.ofList qualifier, String.ofList base⟩ := by
  rw [ofChars, Text.splitColon?_append h]

/-- A star is no name. -/
theorem ne_star_of_isName {base : String} (h : Text.isName base.toList = true) : base ≠ "*" := by
  rintro rfl
  revert h
  decide

theorem base?_of_isName {base : List Char} (h : Text.isName base = true) (qualifier : String) :
    base? ⟨qualifier, String.ofList base⟩ = some (String.ofList base) := by
  refine if_neg ?_
  rw [isWildcard, decide_eq_true_eq]
  exact ne_star_of_isName (by rw [String.toList_ofList]; exact h)

theorem qualifier?_of_isName {qualifier : List Char} (h : Text.isName qualifier = true) (base : String) :
    qualifier? ⟨String.ofList qualifier, base⟩ = some (String.ofList qualifier) := by
  refine if_neg fun hempty => ?_
  have : qualifier = [] := String.ofList_injective hempty
  exact Text.ne_nil_of_isName h this

end WrittenName

/-! ## The names in a text -/

namespace Munch

/-- The longest run of characters of a name is a name if it starts like one. -/
theorem isName_takeWhile {c : Char} {cs : List Char} (h : Text.isNameStart c = true) :
    Text.isName ((c :: cs).takeWhile Text.isNameChar) = true := by
  rw [List.takeWhile_cons_of_pos (Text.isNameChar_of_isNameStart h), Text.isName, h, Bool.true_and, List.all_eq_true]
  intro d hd
  exact List.all_eq_true.1 List.all_takeWhile d hd

theorem word_spells (prev : Kind) {c : Char} {cs : List Char} (h : Text.isNameStart c = true) :
    Spells (word prev (c :: cs)).taken := by
  have first : Text.isName ((c :: cs).takeWhile Text.isNameChar) = true := isName_takeWhile h
  simp only [word]
  split
  · next d tail _ =>
    split
    · exact .wildcard first
    · split
      · next hd =>
        have second : Text.isName ((d :: tail).takeWhile Text.isNameChar) = true := isName_takeWhile hd
        rw [List.takeWhile_cons_of_pos (Text.isNameChar_of_isNameStart hd)] at second
        exact .qualified first second
      · exact .plain first
  · exact .plain first

end Munch

theorem munch_spells {prev : Kind} {text : List Char} (h : (munch prev text).kind = .name) :
    Spells (munch prev text).taken := by
  have fixedKinds : ∀ entry ∈ Munch.fixed, entry.2 ≠ .name := by decide
  cases text with
  | nil => cases h
  | cons c cs =>
    rcases munch_cases prev c cs with hm | hm | ⟨hm, hc⟩ | ⟨spelling, kind, hmem, -, hm⟩ | hm <;> rw [hm] at h ⊢
    · rw [number_kind] at h
      cases h
    · rw [quoted_kind] at h
      cases h
    · exact Munch.word_spells prev hc
    · dsimp only at h
      split at h
      · cases h
      · exact absurd h (fixedKinds _ hmem)
    · cases h

theorem Session.scan_munched : ∀ (fuel : Nat) (s : Session), ∀ l ∈ (s.scan fuel).lexemes,
    ∃ prev front behind, munch prev front = ⟨l.kind, l.text, behind, none⟩
  | 0, _, _, hl => by cases hl
  | fuel + 1, s, l, hl => by
    rw [Session.scan] at hl
    split at hl
    · cases hl
    · next next hadvance =>
      split at hl
      · cases hl
      · rcases List.mem_cons.1 hl with rfl | hl
        · have here : next = s.advance.1 := by rw [hadvance]
          have faultless : (munch s.kind (s.rest.dropWhile Text.isSpace)).defect = none :=
            Option.map_eq_none_iff.1 (congrArg Prod.snd hadvance)
          subst here
          exact ⟨s.kind, s.rest.dropWhile Text.isSpace, s.advance.1.rest, by rw [← faultless]; rfl⟩
        · exact scan_munched fuel next l hl

/-- The lexemes of a text are taken off it, and none of them is faulty. -/
theorem scan_munched {text : String} {start : Nat} {l : Lexeme} (hl : l ∈ (scan text start).lexemes) :
    ∃ prev front behind, munch prev front = ⟨l.kind, l.text, behind, none⟩ :=
  Session.scan_munched _ _ l hl

/-- **Names in a text are spelled like names.** -/
theorem scan_spells {text : String} {start : Nat} {l : Lexeme} (hl : l ∈ (scan text start).lexemes) (hk : l.kind = .name) :
    Spells l.text := by
  obtain ⟨prev, front, behind, hm⟩ := scan_munched hl
  have spells : Spells (munch prev front).taken := munch_spells (by rw [hm]; exact hk)
  rwa [hm] at spells

end StylesheetReversal.Path
