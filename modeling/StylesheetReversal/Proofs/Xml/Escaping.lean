import StylesheetReversal.Text.Blank
import StylesheetReversal.Text.Name
import StylesheetReversal.Xml.Character
import StylesheetReversal.Xml.Element
/-!
# Escaped values

The value of an attribute is written with references in place of five characters, and reading puts the
characters back (`attributeValue_escape`).  Only the blanks that stand in the value itself come back as
spaces.

What is read from proper characters is proper characters again.
-/
namespace StylesheetReversal.Xml

/-- The characters may all stand in a document. -/
def Proper (cs : List Char) : Prop := ∀ c ∈ cs, isChar c = true

instance (cs : List Char) : Decidable (Proper cs) := List.decidableBAll (isChar · = true) cs

namespace Proper

variable {cs ds : List Char} {c : Char}

theorem nil : Proper [] := nofun

theorem cons (hc : isChar c = true) (h : Proper cs) : Proper (c :: cs) := by
  intro d hd
  rcases List.mem_cons.1 hd with rfl | hd
  · exact hc
  · exact h d hd

theorem append (h : Proper cs) (h' : Proper ds) : Proper (cs ++ ds) := by
  intro c hc
  rcases List.mem_append.1 hc with hc | hc
  · exact h c hc
  · exact h' c hc

theorem head (h : Proper (c :: cs)) : isChar c = true := h c List.mem_cons_self

theorem tail (h : Proper (c :: cs)) : Proper cs := fun d hd => h d (List.mem_cons_of_mem c hd)

theorem subset (h : Proper cs) (hs : ds ⊆ cs) : Proper ds := fun d hd => h d (hs hd)

end Proper

theorem isChar_of_isNameChar {c : Char} (h : Text.isNameChar c = true) : isChar c = true := by
  simp only [Text.isNameChar, Text.isNameStart, Text.inRanges, Text.nameStartRanges, Text.nameExtraRanges,
    List.any_cons, List.any_nil, Bool.or_eq_true, Bool.and_eq_true, Bool.false_eq_true, or_false,
    decide_eq_true_eq] at h
  simp only [isChar, Bool.or_eq_true, Bool.and_eq_true, decide_eq_true_eq, beq_iff_eq]
  omega

theorem isChar_of_isSpace {c : Char} (h : Text.isSpace c = true) : isChar c = true := by
  simp only [Text.isSpace, Bool.or_eq_true, beq_iff_eq] at h
  rcases h with ((rfl | rfl) | rfl) | rfl <;> decide

/-! ## Writing a value -/

/-- How a character of a written value is read: five of them are written as references. -/
def mark (c : Char) : Written :=
  if c ∈ ['<', '>', '&', '\'', '"'] then .referred c else .plain c

/-- What a value is read back as. -/
def normalized (value : List Char) : List Char := spaced (value.map .plain)

namespace Element

theorem escapeChar_cases (c : Char) :
    (c ∈ ['<', '>', '&', '\'', '"'] ∧ ∃ name, escapeChar c = '&' :: name ++ [';'] ∧ referent? name = some c ∧
      ∀ d ∈ name, Text.isNameChar d = true ∧ d ≠ ';') ∨
    (c ∉ ['<', '>', '&', '\'', '"'] ∧ escapeChar c = [c]) := by
  have named : ∀ {name : List Char}, name.all (fun d => Text.isNameChar d && d != ';') = true →
      ∀ d ∈ name, Text.isNameChar d = true ∧ d ≠ ';' := by
    intro name h d hd
    have := List.all_eq_true.1 h d hd
    rw [Bool.and_eq_true, bne_iff_ne] at this
    exact this
  unfold escapeChar
  split
  · exact .inl ⟨by decide, ['l', 't'], rfl, rfl, named rfl⟩
  · exact .inl ⟨by decide, ['g', 't'], rfl, rfl, named rfl⟩
  · exact .inl ⟨by decide, ['a', 'm', 'p'], rfl, rfl, named rfl⟩
  · exact .inl ⟨by decide, ['a', 'p', 'o', 's'], rfl, rfl, named rfl⟩
  · exact .inl ⟨by decide, ['q', 'u', 'o', 't'], rfl, rfl, named rfl⟩
  · next h₁ h₂ h₃ h₄ h₅ => exact .inr ⟨by simpa only [List.mem_cons, List.not_mem_nil, or_false, not_or] using ⟨h₁, h₂, h₃, h₄, h₅⟩, rfl⟩

/-- An escaped character ends no value and starts no tag. -/
theorem escapeChar_inside {c d : Char} (h : d ∈ escapeChar c) : d ≠ '"' ∧ d ≠ '<' := by
  rcases escapeChar_cases c with ⟨-, name, he, -, hname⟩ | ⟨hc, he⟩
  · rw [he] at h
    rcases List.mem_append.1 h with h | h
    · rcases List.mem_cons.1 h with rfl | h
      · decide
      · have := (hname d h).1
        constructor <;> rintro rfl <;> revert this <;> decide
    · obtain rfl := List.mem_singleton.1 h
      decide
  · rw [he, List.mem_singleton] at h
    subst h
    constructor <;> rintro rfl <;> exact hc (by decide)

theorem proper_escape {value : List Char} (h : Proper value) : Proper (value.flatMap escapeChar) := by
  intro d hd
  obtain ⟨c, hc, hd⟩ := List.mem_flatMap.1 hd
  rcases escapeChar_cases c with ⟨-, name, he, -, hname⟩ | ⟨-, he⟩
  · rw [he] at hd
    rcases List.mem_append.1 hd with hd | hd
    · rcases List.mem_cons.1 hd with rfl | hd
      · decide
      · exact isChar_of_isNameChar (hname d hd).1
    · obtain rfl := List.mem_singleton.1 hd
      decide
  · rw [he, List.mem_singleton] at hd
    subst hd
    exact h d hc

end Element

theorem writtenFrom?_reference {name rest : List Char} {c : Char} (hname : ∀ d ∈ name, d ≠ ';') :
    ∀ {read : List Char}, referent? (read.reverse ++ name) = some c →
      writtenFrom? (some read) (name ++ ';' :: rest) = (writtenFrom? none rest).map (.referred c :: ·) := by
  induction name with
  | nil =>
    intro read h
    rw [List.append_nil] at h
    simp only [List.nil_append, writtenFrom?, if_true, h, Option.bind_some]
  | cons d name ih =>
    intro read h
    have hd : d ≠ ';' := hname d List.mem_cons_self
    rw [List.cons_append, writtenFrom?, if_neg hd]
    refine ih (fun e he => hname e (List.mem_cons_of_mem d he)) ?_
    rw [List.reverse_cons, List.append_assoc]
    exact h

theorem written?_escapeChar (c : Char) (rest : List Char) :
    written? (Element.escapeChar c ++ rest) = (written? rest).map (mark c :: ·) := by
  unfold written? mark
  rcases Element.escapeChar_cases c with ⟨hc, name, he, href, hname⟩ | ⟨hc, he⟩
  · rw [if_pos hc, he, List.append_assoc, List.cons_append, writtenFrom?, if_pos rfl]
    exact writtenFrom?_reference (fun d hd => (hname d hd).2) href
  · have amp : c ≠ '&' := by
      rintro rfl
      exact hc (by decide)
    rw [if_neg hc, he, List.singleton_append, writtenFrom?, if_neg amp]

theorem written?_escape : ∀ value : List Char,
    written? (value.flatMap Element.escapeChar) = some (value.map mark)
  | [] => rfl
  | c :: value => by
    rw [List.flatMap_cons, written?_escapeChar, written?_escape value]
    rfl

/-- A character that stands there itself, and is not the first of a pair that ends a line. -/
theorem spaced_plain {c : Char} {ws : List Written} (h : ¬ (c = '\r' ∧ ws.head? = some (.plain '\n'))) :
    spaced (.plain c :: ws) = (if c = '\t' ∨ c = '\n' ∨ c = '\r' then ' ' else c) :: spaced ws := by
  rw [spaced]
  rintro cs rfl rfl
  exact h ⟨rfl, rfl⟩

/-- References make no difference to blanks, as no blank is written as one. -/
theorem spaced_mark : ∀ value : List Char, spaced (value.map mark) = normalized value
  | [] => rfl
  | c :: value => by
    have ih := spaced_mark value
    unfold normalized at ih ⊢
    have head : (value.map mark).head? = some (.plain '\n') ↔ (value.map Written.plain).head? = some (.plain '\n') := by
      cases value with
      | nil => rfl
      | cons d value =>
        simp only [List.map_cons, List.head?_cons, mark]
        split
        · next hd =>
          refine ⟨nofun, fun h => ?_⟩
          cases h
          revert hd
          decide
        · rfl
    rw [List.map_cons, List.map_cons]
    by_cases hm : c ∈ ['<', '>', '&', '\'', '"']
    · have notBlank : ¬ (c = '\t' ∨ c = '\n' ∨ c = '\r') := by
        rintro (rfl | rfl | rfl) <;> revert hm <;> decide
      rw [mark, if_pos hm, spaced, spaced_plain (fun h => notBlank (.inr (.inr h.1))), if_neg notBlank, ih]
    rw [mark, if_neg hm]
    by_cases hpair : c = '\r' ∧ (value.map Written.plain).head? = some (.plain '\n')
    · obtain ⟨rfl, hn⟩ := hpair
      cases value with
      | nil => cases hn
      | cons d value =>
        cases hn
        have := spaced_mark value
        exact congrArg (' ' :: ·) this
    · rw [spaced_plain hpair, spaced_plain (fun h => hpair ⟨h.1, head.1 h.2⟩), ih]

/-- **What is written as a value is read back.** -/
theorem attributeValue_escape (value : List Char) :
    attributeValue (value.flatMap Element.escapeChar) = some (normalized value) := by
  rw [attributeValue, written?_escape, Option.map_some, spaced_mark]

end StylesheetReversal.Xml
