import StylesheetReversal.Path.Axis
import StylesheetReversal.Path.Fault
import StylesheetReversal.Text.Blank
import StylesheetReversal.Text.Name
/-!
# The next lexeme

`munch` takes the longest lexeme off the front of a text that starts with no white space.
What a lexeme is depends on its characters and, for `*` and the names `or`, `and`, `div` and
`mod`, on the lexeme before it: they are operators exactly where an operand has just ended.

A number with an exponent and a string without its closing quote are lexemes too, but faulty
ones; they are taken whole and carry the cause.

Nothing is lost on the way (`munch_append`), and a lexeme is never empty
(`munch_taken_ne_nil`).
-/
namespace StylesheetReversal.Path

/-- A lexeme taken off the front of a text, and what follows it. -/
structure Munch where
  kind : Kind
  taken : List Char
  rest : List Char
  defect : Option Cause
  deriving DecidableEq, Repr

namespace Munch

/-- The lexemes with a fixed spelling; of two with a common beginning the longer comes
first. -/
def fixed : List (List Char × Kind) :=
  [(['.', '.'], .dotDot), (['.'], .dot), ([':', ':'], .colonColon), (['/', '/'], .slashSlash),
   (['/'], .slash), (['!', '='], .ne), (['<', '='], .le), (['<'], .lt), (['>', '='], .ge),
   (['>'], .gt), (['='], .eq), (['|'], .union), (['+'], .plus), (['-'], .minus), (['*'], .star),
   (['('], .lparen), ([')'], .rparen), (['['], .lbracket), ([']'], .rbracket), (['@'], .at),
   ([','], .comma), (['$'], .dollar)]

/-- The lexeme of a fixed spelling that the text starts with. -/
def fixed? (text : List Char) : Option (List Char × Kind) :=
  fixed.find? fun entry => entry.1.isPrefixOf text

/-- The operators that are spelled like names. -/
def keyword? : List Char → Option Kind
  | ['o', 'r'] => some .or
  | ['a', 'n', 'd'] => some .and
  | ['d', 'i', 'v'] => some .divide
  | ['m', 'o', 'd'] => some .modulo
  | _ => none

/-- Whether a number starts here: a digit, or a point and a digit. -/
def startsNumber : List Char → Bool
  | '.' :: c :: _ => c.isDigit
  | c :: _ => c.isDigit
  | [] => false

/-- Digits, then at most one point with digits after it. -/
def decimal (text : List Char) : List Char × List Char :=
  let whole := text.takeWhile Char.isDigit
  match text.dropWhile Char.isDigit with
  | '.' :: rest => (whole ++ '.' :: rest.takeWhile Char.isDigit, rest.dropWhile Char.isDigit)
  | rest => (whole, rest)

/-- A sign, if there is one, and digits. -/
def signedDigits : List Char → List Char × List Char
  | [] => ([], [])
  | c :: rest =>
    if c = '+' ∨ c = '-' then (c :: rest.takeWhile Char.isDigit, rest.dropWhile Char.isDigit)
    else ((c :: rest).takeWhile Char.isDigit, (c :: rest).dropWhile Char.isDigit)

def number (text : List Char) : Munch :=
  match decimal text with
  | (digits, []) => ⟨.number, digits, [], none⟩
  | (digits, c :: rest) =>
    if c = 'e' ∨ c = 'E' then
      let (exponent, rest) := signedDigits rest
      ⟨.number, digits ++ c :: exponent, rest, some .scientificNotation⟩
    else ⟨.number, digits, c :: rest, none⟩

/-- A string up to the next `quote`; `rest` follows the opening one. -/
def quoted (quote : Char) (rest : List Char) : Munch :=
  match rest.dropWhile (· != quote) with
  | [] => ⟨.string, quote :: rest, [], some .unclosedString⟩
  | _ :: after => ⟨.string, quote :: rest.takeWhile (· != quote) ++ [quote], after, none⟩

/-- Whether `::` follows, possibly after white space. -/
def beforeColons (rest : List Char) : Bool :=
  [':', ':'].isPrefixOf (rest.dropWhile Text.isSpace)

/-- Whether `(` follows, possibly after white space. -/
def beforeParen (rest : List Char) : Bool :=
  ['('].isPrefixOf (rest.dropWhile Text.isSpace)

/-- What a name without a colon is: an operator where an operand has ended, an axis before
`::`, and a plain name otherwise. -/
def wordKind (prev : Kind) (word rest : List Char) : Kind :=
  match keyword? word with
  | some k => if prev.endsOperand then k else .name
  | none =>
    if beforeColons rest ∧ (Axis.ofName? (String.ofList word)).isSome then .axis else .name

/-- The longest name: `base`, `qualifier:base` or `qualifier:*`, without white space around
the colon. -/
def word (prev : Kind) (text : List Char) : Munch :=
  let first := text.takeWhile Text.isNameChar
  let rest := text.dropWhile Text.isNameChar
  match rest with
  | ':' :: c :: tail =>
    if c = '*' then ⟨.name, first ++ [':', '*'], tail, none⟩
    else if Text.isNameStart c then
      ⟨.name, first ++ ':' :: c :: tail.takeWhile Text.isNameChar,
        tail.dropWhile Text.isNameChar, none⟩
    else ⟨wordKind prev first rest, first, rest, none⟩
  | _ => ⟨wordKind prev first rest, first, rest, none⟩

end Munch

/-- Takes the next lexeme off a text without white space in front; `prev` is the kind of the
lexeme before it, `unknown` at the start. -/
def munch (prev : Kind) : List Char → Munch
  | [] => ⟨.eof, [], [], none⟩
  | c :: cs =>
    if Munch.startsNumber (c :: cs) then Munch.number (c :: cs)
    else if c = '"' ∨ c = '\'' then Munch.quoted c cs
    else if Text.isNameStart c then Munch.word prev (c :: cs)
    else
      match Munch.fixed? (c :: cs) with
      | some (spelling, kind) =>
        let kind := if kind = .star ∧ prev.endsOperand then .multiply else kind
        ⟨kind, spelling, (c :: cs).drop spelling.length, none⟩
      | none => ⟨.unknown, [c], cs, none⟩

namespace Munch

theorem decimal_append (text : List Char) : (decimal text).1 ++ (decimal text).2 = text := by
  have split := List.takeWhile_append_dropWhile (p := Char.isDigit) (l := text)
  unfold decimal
  split
  · next rest h =>
    rw [h] at split
    simpa [List.append_assoc] using split
  · exact split

theorem signedDigits_append (text : List Char) :
    (signedDigits text).1 ++ (signedDigits text).2 = text := by
  unfold signedDigits
  split
  · rfl
  · split <;> simp

theorem number_append (text : List Char) :
    (number text).taken ++ (number text).rest = text := by
  have whole := decimal_append text
  unfold number
  split
  · next digits h => simpa [h] using whole
  · next digits c rest h =>
    have exponent := signedDigits_append rest
    rw [h] at whole
    split <;> simp_all

theorem quoted_append (quote : Char) (rest : List Char) :
    (quoted quote rest).taken ++ (quoted quote rest).rest = quote :: rest := by
  have split := List.takeWhile_append_dropWhile (p := (· != quote)) (l := rest)
  have head := List.head?_dropWhile_not (· != quote) rest
  unfold quoted
  split
  · simp
  · next c after h =>
    rw [h] at split head
    have : c = quote := by simpa using head
    subst this
    simpa using split

theorem word_append (prev : Kind) (text : List Char) :
    (word prev text).taken ++ (word prev text).rest = text := by
  have split := List.takeWhile_append_dropWhile (p := Text.isNameChar) (l := text)
  simp only [word]
  split
  · next c tail h =>
    rw [h] at split ⊢
    split
    · next hc => subst hc; simpa using split
    · split
      · simpa using split
      · exact split
  · exact split

theorem fixed?_append {text spelling : List Char} {k : Kind}
    (h : fixed? text = some (spelling, k)) : spelling ++ text.drop spelling.length = text := by
  have isPrefix := List.find?_some h
  exact List.prefix_iff_eq_append.1 (List.isPrefixOf_iff_prefix.1 isPrefix)

end Munch

theorem munch_append (prev : Kind) (text : List Char) :
    (munch prev text).taken ++ (munch prev text).rest = text := by
  unfold munch
  split
  · rfl
  · next c cs =>
    split
    · exact Munch.number_append _
    · split
      · exact Munch.quoted_append c cs
      · split
        · exact Munch.word_append prev _
        · split
          · next h => exact Munch.fixed?_append h
          · rfl

namespace Munch

theorem number_taken_ne_nil {text : List Char} (h : startsNumber text = true) :
    (number text).taken ≠ [] := by
  have digits : (decimal text).1 ≠ [] := by
    unfold decimal
    split
    · simp
    · next hrest =>
      match text with
      | [] => simp [startsNumber] at h
      | c :: cs =>
        by_cases hc : c.isDigit = true
        · simp [hc]
        · rw [List.dropWhile_cons_of_neg hc] at hrest
          match cs with
          | [] =>
            unfold startsNumber at h
            split at h <;> simp_all
          | d :: ds =>
            unfold startsNumber at h
            split at h <;> simp_all
  unfold number
  split
  · next h => simpa [h] using digits
  · next h =>
    split
    · simp
    · simpa [h] using digits

theorem quoted_taken_ne_nil (quote : Char) (rest : List Char) :
    (quoted quote rest).taken ≠ [] := by
  unfold quoted
  split <;> simp

theorem word_taken_ne_nil (prev : Kind) {c : Char} {cs : List Char}
    (h : Text.isNameStart c = true) : (word prev (c :: cs)).taken ≠ [] := by
  have hc := Text.isNameChar_of_isNameStart h
  simp only [word]
  split
  · split
    · simp
    · split <;> simp [hc]
  · simp [hc]

theorem fixed?_ne_nil {text spelling : List Char} {k : Kind}
    (h : fixed? text = some (spelling, k)) : spelling ≠ [] := by
  have spellings : ∀ entry ∈ fixed, entry.1 ≠ [] := by decide
  exact spellings _ (List.mem_of_find?_eq_some h)

end Munch

theorem munch_taken_ne_nil (prev : Kind) {text : List Char} (h : text ≠ []) :
    (munch prev text).taken ≠ [] := by
  unfold munch
  split
  · exact absurd rfl h
  · next c cs =>
    split
    · next hn => exact Munch.number_taken_ne_nil hn
    · split
      · exact Munch.quoted_taken_ne_nil c cs
      · split
        · next hs => exact Munch.word_taken_ne_nil prev hs
        · split
          · next hf => exact Munch.fixed?_ne_nil hf
          · simp

end StylesheetReversal.Path
