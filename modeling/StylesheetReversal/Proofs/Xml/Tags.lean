import StylesheetReversal.Proofs.Xml.Names
/-!
# Cutting what was written

Tags and the blanks between them are cut off the front of a text as they were written, whatever follows.
-/
namespace StylesheetReversal.Xml

/-- An attribute in a tag, from its name and its value. -/
def attributeChars (a : TagName × List Char) : List Char :=
  ' ' :: (a.1.chars ++ '=' :: '"' :: (a.2.flatMap Element.escapeChar ++ ['"']))

/-- The same as it is cut. -/
def rawAttribute (a : TagName × List Char) : RawAttribute := ⟨a.1, a.2.flatMap Element.escapeChar⟩

/-- The end of a start tag. -/
def tagEnd (closed : Bool) : List Char := if closed then ['/', '>'] else ['>']

/-- A start tag, or a tag that is its own end tag. -/
def tagChars (n : TagName) (as : List (TagName × List Char)) (closed : Bool) : List Char :=
  '<' :: (n.chars ++ (as.flatMap attributeChars ++ tagEnd closed))

def endTagChars (n : TagName) : List Char := '<' :: '/' :: (n.chars ++ ['>'])

theorem skipSpace_of_ne {c : Char} {cs : List Char} (h : Text.isSpace c = false) : skipSpace (c :: cs) = c :: cs := by
  rw [skipSpace, List.dropWhile_cons_of_neg (by rw [h]; decide)]

namespace RawAttribute

theorem value?_written (value rest : List Char) :
    value? ('"' :: (value.flatMap Element.escapeChar ++ '"' :: rest)) =
      some (value.flatMap Element.escapeChar, rest) := by
  have inside : ∀ c ∈ value.flatMap Element.escapeChar, (c != '"' && c != '<') = true := by
    intro c hc
    obtain ⟨d, -, hd⟩ := List.mem_flatMap.1 hc
    obtain ⟨hquote, hless⟩ := Element.escapeChar_inside hd
    rw [Bool.and_eq_true, bne_iff_ne, bne_iff_ne]
    exact ⟨hquote, hless⟩
  rw [value?, if_pos (.inl rfl)]
  extract_lets
  rw [List.dropWhile_append_of_pos inside, List.takeWhile_append_of_pos inside]
  simp

theorem next?_written {a : TagName × List Char} (h : a.1.Fit) (rest : List Char) :
    next? (a.1.chars ++ '=' :: '"' :: (a.2.flatMap Element.escapeChar ++ '"' :: rest)) =
      some (rawAttribute a, rest) := by
  have equals : Text.isSpace '=' = false := by decide
  have quote : Text.isSpace '"' = false := by decide
  rw [next?, TagName.next?_chars h (by decide), Option.bind_some]
  simp only [skipSpace_of_ne equals, skipSpace_of_ne quote, value?_written]
  rfl

end RawAttribute

namespace Piece

theorem attributes?_end (fuel : Nat) (closed : Bool) (rest : List Char) :
    attributes? (fuel + 1) (tagEnd closed ++ rest) = some ([], closed, rest) := by
  cases closed <;> rfl

/-- **The attributes of a tag are read one after another**, up to the end of the tag. -/
theorem attributes?_written (closed : Bool) (rest : List Char) :
    ∀ (as : List (TagName × List Char)) (fuel : Nat), (∀ a ∈ as, a.1.Fit) → as.length < fuel →
      attributes? fuel (as.flatMap attributeChars ++ (tagEnd closed ++ rest)) =
        some (as.map rawAttribute, closed, rest)
  | _, 0, _, hf => absurd hf (Nat.not_lt_zero _)
  | [], fuel + 1, _, _ => attributes?_end fuel closed rest
  | a :: as, fuel + 1, h, hf => by
    have ha : a.1.Fit := h a List.mem_cons_self
    have more := attributes?_written closed rest as fuel (fun b hb => h b (List.mem_cons_of_mem a hb))
      (Nat.lt_of_succ_lt_succ hf)
    obtain ⟨c, cs, hchars, hc⟩ := TagName.chars_cons ha
    obtain ⟨-, -, hslash, hend, hspace⟩ := not_markup_of_isNameStart hc
    have next := RawAttribute.next?_written ha (as.flatMap attributeChars ++ (tagEnd closed ++ rest))
    have text : (a :: as).flatMap attributeChars ++ (tagEnd closed ++ rest) = ' ' :: (a.1.chars ++ '=' :: '"' ::
        (a.2.flatMap Element.escapeChar ++ '"' :: (as.flatMap attributeChars ++ (tagEnd closed ++ rest)))) := by
      simp [attributeChars]
    rw [text, attributes?, skipSpace, List.dropWhile_cons_of_pos (by decide), ← skipSpace]
    rw [hchars] at next ⊢
    rw [List.cons_append] at next ⊢
    rw [skipSpace_of_ne hspace]
    split
    · next heq => exact absurd (List.cons.inj heq).1 hend
    · next heq => exact absurd (List.cons.inj heq).1 hslash
    · rw [List.head?_cons, if_pos (by decide : (some ' ').any Text.isSpace = true), next, Option.bind_some]
      dsimp only
      rw [more]
      rfl

theorem next?_opening {n : TagName} {as : List (TagName × List Char)} (hn : n.Fit) (h : ∀ a ∈ as, a.1.Fit)
    (closed : Bool) (rest : List Char) :
    next? (tagChars n as closed ++ rest) = some (.opening n (as.map rawAttribute) closed, rest) := by
  obtain ⟨c, cs, hchars, hc⟩ := TagName.chars_cons hn
  obtain ⟨hbang, hquestion, hslash, -, -⟩ := not_markup_of_isNameStart hc
  have dispatch : next? ('<' :: (n.chars ++ (as.flatMap attributeChars ++ (tagEnd closed ++ rest)))) =
      opening? (n.chars ++ (as.flatMap attributeChars ++ (tagEnd closed ++ rest))) := by
    rw [hchars, List.cons_append]
    unfold next?
    split
    · next heq => exact absurd (List.cons.inj (List.cons.inj heq).2).1 hbang
    · next heq => exact absurd (List.cons.inj (List.cons.inj heq).2).1 hbang
    · next heq => exact absurd (List.cons.inj (List.cons.inj heq).2).1 hquestion
    · next heq => exact absurd (List.cons.inj (List.cons.inj heq).2).1 hslash
    · next heq => rw [(List.cons.inj heq).2]
    · next hno => exact absurd rfl (hno _)
  obtain ⟨d, ds, hbehind, hd⟩ : ∃ d ds, as.flatMap attributeChars ++ (tagEnd closed ++ rest) = d :: ds ∧
      isNameOrColon d = false := by
    cases as with
    | nil => cases closed <;> exact ⟨_, _, rfl, by decide⟩
    | cons a as => exact ⟨' ', _, rfl, by decide⟩
  have enough : as.length < (d :: ds).length + 1 := by
    rw [← hbehind, List.length_append]
    have : as.length ≤ (as.flatMap attributeChars).length := by
      rw [List.length_flatMap]
      clear dispatch h hbehind
      induction as with
      | nil => exact Nat.zero_le _
      | cons a as ih =>
        have : 0 < (attributeChars a).length := Nat.succ_pos _
        simp only [List.map_cons, List.sum_cons, List.length_cons]
        omega
    omega
  have text : tagChars n as closed ++ rest =
      '<' :: (n.chars ++ (as.flatMap attributeChars ++ (tagEnd closed ++ rest))) := by
    simp [tagChars]
  rw [text, dispatch, opening?, hbehind, TagName.next?_chars hn hd, Option.bind_some]
  dsimp only
  rw [← hbehind] at enough ⊢
  rw [attributes?_written closed rest as _ h enough]
  rfl

theorem next?_closing {n : TagName} (hn : n.Fit) (rest : List Char) :
    next? (endTagChars n ++ rest) = some (.closing n, rest) := by
  have text : endTagChars n ++ rest = '<' :: '/' :: (n.chars ++ '>' :: rest) := by
    simp [endTagChars]
  have dispatch : next? ('<' :: '/' :: (n.chars ++ '>' :: rest)) = closing? (n.chars ++ '>' :: rest) := rfl
  rw [text, dispatch, closing?, TagName.next?_chars hn (by decide), Option.bind_some]
  rfl

theorem splitAt?_eq_none {m : Char} {ms : List Char} : ∀ {cs : List Char}, (∀ c ∈ cs, c ≠ m) →
    splitAt? (m :: ms) cs = none
  | [], _ => rfl
  | c :: cs, h => by
    have hc : ¬ (m :: ms).isPrefixOf (c :: cs) = true := by
      rw [List.isPrefixOf, Bool.and_eq_true, beq_iff_eq]
      rintro ⟨rfl, -⟩
      exact h m List.mem_cons_self rfl
    rw [splitAt?, if_neg hc, splitAt?_eq_none fun d hd => h d (List.mem_cons_of_mem c hd)]
    rfl

theorem next?_blanks {blanks : List Char} (hne : blanks ≠ []) (h : ∀ c ∈ blanks, Text.isSpace c = true)
    (rest : List Char) : next? (blanks ++ '<' :: rest) = some (.text blanks, '<' :: rest) := by
  have other : ∀ c ∈ blanks, c ≠ '<' ∧ c ≠ ']' := by
    intro c hc
    have := h c hc
    constructor <;> rintro rfl <;> revert this <;> decide
  have dispatch : next? (blanks ++ '<' :: rest) = text? (blanks ++ '<' :: rest) := by
    obtain ⟨c, cs, rfl⟩ := List.exists_cons_of_ne_nil hne
    have hc := (other c List.mem_cons_self).1
    unfold next?
    split
    · next heq => exact absurd (List.cons.inj heq).1 hc
    · next heq => exact absurd (List.cons.inj heq).1 hc
    · next heq => exact absurd (List.cons.inj heq).1 hc
    · next heq => exact absurd (List.cons.inj heq).1 hc
    · next heq => exact absurd (List.cons.inj heq).1 hc
    · rfl
  have text : ∀ c ∈ blanks, (c != '<') = true := fun c hc => bne_iff_ne.2 (other c hc).1
  have raw : (blanks ++ '<' :: rest).takeWhile (· != '<') = blanks := by
    rw [List.takeWhile_append_of_pos text, List.takeWhile_cons_of_neg (by decide), List.append_nil]
  have behind : (blanks ++ '<' :: rest).dropWhile (· != '<') = '<' :: rest := by
    rw [List.dropWhile_append_of_pos text, List.dropWhile_cons_of_neg (by decide)]
  have noEnd : splitAt? [']', ']', '>'] blanks = none := splitAt?_eq_none fun c hc => (other c hc).2
  rw [dispatch, text?, raw, behind, noEnd]
  rfl

end Piece

end StylesheetReversal.Xml
