import StylesheetReversal.Proofs.Xml.Escaping
import StylesheetReversal.Xml.Piece
/-!
# Names in tags

A name that is written in a tag is cut off the front of what follows, and keeps its two parts
(`TagName.next?_chars`).
-/
namespace StylesheetReversal

namespace Text

variable {q b cs : List Char}

theorem isNameChar_of_isName (h : isName cs = true) : ∀ c ∈ cs, isNameChar c = true := by
  cases cs with
  | nil => cases h
  | cons d ds =>
    rw [isName, Bool.and_eq_true, List.all_eq_true] at h
    intro c hc
    rcases List.mem_cons.1 hc with rfl | hc
    · exact isNameChar_of_isNameStart h.1
    · exact h.2 c hc

theorem ne_colon_of_isName (h : isName cs = true) : ∀ c ∈ cs, (c != ':') = true := by
  intro c hc
  have := isNameChar_of_isName h c hc
  rw [bne_iff_ne]
  rintro rfl
  revert this
  decide

theorem ne_nil_of_isName (h : isName cs = true) : cs ≠ [] := by
  rintro rfl
  cases h

theorem splitColon?_append (hq : isName q = true) : splitColon? (q ++ ':' :: b) = some (q, b) := by
  have before := ne_colon_of_isName hq
  unfold splitColon?
  rw [List.dropWhile_append_of_pos before, List.takeWhile_append_of_pos before]
  simp

theorem splitColon?_of_isName (h : isName cs = true) : splitColon? cs = none := by
  have nothing : (cs ++ []).dropWhile (· != ':') = List.dropWhile (· != ':') [] :=
    List.dropWhile_append_of_pos (ne_colon_of_isName h)
  rw [List.append_nil, List.dropWhile_nil] at nothing
  rw [splitColon?, nothing]

end Text

namespace Xml

namespace TagName

/-- The name as it is written. -/
def chars (n : TagName) : List Char :=
  if n.qualifier = [] then n.base else n.qualifier ++ ':' :: n.base

/-- Both parts are names, or there is only one. -/
structure Fit (n : TagName) : Prop where
  base : Text.isName n.base = true
  qualifier : n.qualifier = [] ∨ Text.isName n.qualifier = true

variable {n : TagName}

theorem chars_cases (h : n.Fit) : (n.qualifier = [] ∧ n.chars = n.base) ∨
    (Text.isName n.qualifier = true ∧ n.chars = n.qualifier ++ ':' :: n.base) := by
  rcases h.qualifier with hq | hq
  · exact .inl ⟨hq, if_pos hq⟩
  · exact .inr ⟨hq, if_neg (Text.ne_nil_of_isName hq)⟩

theorem chars_cons (h : n.Fit) : ∃ c cs, n.chars = c :: cs ∧ Text.isNameStart c = true := by
  have starts : ∀ {cs : List Char}, Text.isName cs = true → ∃ c ds, cs = c :: ds ∧ Text.isNameStart c = true := by
    intro cs hcs
    cases cs with
    | nil => cases hcs
    | cons c ds =>
      rw [Text.isName, Bool.and_eq_true] at hcs
      exact ⟨c, ds, rfl, hcs.1⟩
  rcases chars_cases h with ⟨-, hchars⟩ | ⟨hq, hchars⟩
  · rw [hchars]
    exact starts h.base
  · obtain ⟨c, ds, hcons, hc⟩ := starts hq
    rw [hchars, hcons]
    exact ⟨c, ds ++ ':' :: n.base, rfl, hc⟩

theorem isNameOrColon_of_mem (h : n.Fit) : ∀ c ∈ n.chars, isNameOrColon c = true := by
  have named : ∀ {cs : List Char}, Text.isName cs = true → ∀ c ∈ cs, isNameOrColon c = true := by
    intro cs hcs c hc
    rw [isNameOrColon, Text.isNameChar_of_isName hcs c hc]
    rfl
  rcases chars_cases h with ⟨-, hchars⟩ | ⟨hq, hchars⟩
  · rw [hchars]
    exact named h.base
  · rw [hchars]
    intro c hc
    rcases List.mem_append.1 hc with hc | hc
    · exact named hq c hc
    · rcases List.mem_cons.1 hc with rfl | hc
      · decide
      · exact named h.base c hc

theorem ofChars?_chars (h : n.Fit) : ofChars? n.chars = some n := by
  obtain ⟨q, b⟩ := n
  rcases chars_cases h with ⟨hq, hchars⟩ | ⟨hq, hchars⟩
  · dsimp only at hq hchars
    subst hq
    rw [hchars, ofChars?, Text.splitColon?_of_isName h.base]
    exact if_pos (by rw [h.base]; rfl)
  · rw [hchars, ofChars?, Text.splitColon?_append hq]
    refine if_pos ?_
    dsimp only at hq ⊢
    rw [h.base, hq, Bool.or_true]
    rfl

/-- **A name is read up to where its characters end.** -/
theorem next?_chars (h : n.Fit) {c : Char} {rest : List Char} (hc : isNameOrColon c = false) :
    next? (n.chars ++ c :: rest) = some (n, c :: rest) := by
  have all := isNameOrColon_of_mem h
  have stop : ¬ isNameOrColon c = true := by rw [hc]; decide
  rw [next?, List.takeWhile_append_of_pos all, List.dropWhile_append_of_pos all, List.takeWhile_cons_of_neg stop,
    List.dropWhile_cons_of_neg stop, List.append_nil, ofChars?_chars h]
  rfl

theorem proper_chars (h : n.Fit) : Proper n.chars := by
  intro c hc
  have := isNameOrColon_of_mem h c hc
  rw [isNameOrColon, Bool.or_eq_true, beq_iff_eq] at this
  rcases this with this | rfl
  · exact isChar_of_isNameChar this
  · decide

end TagName

/-- Names do not start like anything else that can follow `<`, nor with a blank. -/
theorem not_markup_of_isNameStart {c : Char} (h : Text.isNameStart c = true) :
    c ≠ '!' ∧ c ≠ '?' ∧ c ≠ '/' ∧ c ≠ '>' ∧ Text.isSpace c = false := by
  refine ⟨?_, ?_, ?_, ?_, ?_⟩
  · rintro rfl; revert h; decide
  · rintro rfl; revert h; decide
  · rintro rfl; revert h; decide
  · rintro rfl; revert h; decide
  · rw [Bool.eq_false_iff]
    intro hs
    simp only [Text.isSpace, Bool.or_eq_true, beq_iff_eq] at hs
    rcases hs with ((rfl | rfl) | rfl) | rfl <;> revert h <;> decide

end Xml

end StylesheetReversal
