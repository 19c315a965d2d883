/-!
# White space

Two sets of white space are in use.  Between lexemes, between the attributes of a tag and
around values only the four characters of `isSpace` separate.  Whether a piece of text says
anything at all is asked of the larger set `isBlank`, the characters with the Unicode
property `White_Space`.
-/
namespace StylesheetReversal.Text

/-- Space, tab, carriage return and line feed. -/
def isSpace (c : Char) : Bool :=
  c == ' ' || c == '\t' || c == '\r' || c == '\n'

/-- No white space belongs to a class of characters that has none of the four. -/
theorem isSpace_eq_false {p : Char → Bool} (hp : [' ', '\t', '\r', '\n'].any p = false) {c : Char} (hc : p c = true) :
    isSpace c = false := by
  rw [← Bool.not_eq_true]
  intro hs
  have space : c ∈ [' ', '\t', '\r', '\n'] := by simpa [isSpace, or_assoc] using hs
  exact absurd hc (List.any_eq_false.1 hp c space)

/-- The characters with the Unicode property `White_Space`. -/
def isBlank (c : Char) : Bool :=
  let n := c.toNat
  (0x09 ≤ n && n ≤ 0x0D) || n == 0x20 || n == 0x85 || n == 0xA0 || n == 0x1680 ||
  (0x2000 ≤ n && n ≤ 0x200A) || n == 0x2028 || n == 0x2029 || n == 0x202F || n == 0x205F ||
  n == 0x3000

/-- The text without the blanks at its two ends. -/
def trim (cs : List Char) : List Char :=
  ((cs.dropWhile isBlank).reverse.dropWhile isBlank).reverse

end StylesheetReversal.Text
