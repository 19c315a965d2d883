import StylesheetReversal.Json.Text
/-!
# Ways to write a string

A string can be written in many ways between its quotes: most characters may stand as they are, some have a mark of their
own behind a backslash, and all may be written as one or two UTF-16 code units (`Spells`).  Whatever way is taken, the
string is read back (`Spells.read`).  The way in which strings are written here is one of them (`spells_encode`).
-/
namespace StylesheetReversal.Json

/-- The characters that may be written as another one behind a backslash. -/
def escapes : List (Char × Char) :=
  [('"', '"'), ('\\', '\\'), ('/', '/'), ('b', '\x08'), ('f', '\x0c'), ('n', '\n'), ('r', '\r'), ('t', '\t')]

/-- The digit has the value; its letter may be of either case. -/
def IsHexDigit (value : Nat) (digit : Char) : Prop :=
  value < 16 ∧ (digit = hexDigit value ∨ digit = (hexDigit value).toUpper)

/-- A code unit as four hexadecimal digits. -/
inductive CodeUnit : Nat → List Char → Prop
  | digits {a b c d : Nat} {p q r s : Char} : IsHexDigit a p → IsHexDigit b q → IsHexDigit c r → IsHexDigit d s →
    CodeUnit (((a * 16 + b) * 16 + c) * 16 + d) [p, q, r, s]

/-- The string and a way to write it between quotes. -/
inductive Spells : List Char → List Char → Prop
  | nil : Spells [] []
  | plain {c : Char} {s w : List Char} : 0x20 ≤ c.toNat → c ≠ '"' → c ≠ '\\' → Spells s w → Spells (c :: s) (c :: w)
  | escaped {e c : Char} {s w : List Char} : (e, c) ∈ escapes → Spells s w → Spells (c :: s) ('\\' :: e :: w)
  | unit {c : Char} {digits s w : List Char} : CodeUnit c.toNat digits → Spells s w →
    Spells (c :: s) ('\\' :: 'u' :: (digits ++ w))
  | pair {c : Char} {high low : Nat} {highDigits lowDigits s w : List Char} : CodeUnit high highDigits →
    CodeUnit low lowDigits → 0xD800 ≤ high → high < 0xDC00 → 0xDC00 ≤ low → low < 0xE000 →
    c.toNat = 0x10000 + (high - 0xD800) * 0x400 + (low - 0xDC00) → Spells s w →
    Spells (c :: s) ('\\' :: 'u' :: (highDigits ++ '\\' :: 'u' :: (lowDigits ++ w)))

/-! ## Reading -/

theorem digit?_of_isHexDigit {value : Nat} {digit : Char} (h : IsHexDigit value digit) :
    Text.digit? 16 digit = some value := by
  have all : ∀ v < 16, Text.digit? 16 (hexDigit v) = some v ∧ Text.digit? 16 (hexDigit v).toUpper = some v := by decide
  obtain ⟨hlt, rfl | rfl⟩ := h
  · exact (all value hlt).1
  · exact (all value hlt).2

theorem marks?_unit {n : Nat} {digits : List Char} (h : CodeUnit n digits) (cs : List Char) :
    marks? ('\\' :: 'u' :: (digits ++ cs)) = (marks? cs).map fun (marks, rest) => (.unit n :: marks, rest) := by
  cases h with
  | @digits a b c d p q r s ha hb hc hd =>
    have number : Text.number? 16 [p, q, r, s] = some (((a * 16 + b) * 16 + c) * 16 + d) := by
      simp [Text.number?, digit?_of_isHexDigit ha, digit?_of_isHexDigit hb, digit?_of_isHexDigit hc, digit?_of_isHexDigit hd]
    simp only [List.cons_append, List.nil_append, marks?, number, Option.bind_some]

theorem marks?_escaped {e c : Char} (h : (e, c) ∈ escapes) (cs : List Char) :
    marks? ('\\' :: e :: cs) = (marks? cs).map fun (marks, rest) => (.char c :: marks, rest) := by
  simp only [escapes, List.mem_cons, Prod.mk.injEq, List.not_mem_nil, or_false] at h
  rcases h with ⟨rfl, rfl⟩ | ⟨rfl, rfl⟩ | ⟨rfl, rfl⟩ | ⟨rfl, rfl⟩ | ⟨rfl, rfl⟩ | ⟨rfl, rfl⟩ | ⟨rfl, rfl⟩ | ⟨rfl, rfl⟩ <;>
    simp [marks?, escaped?]

theorem marks?_plain {c : Char} (hc : 0x20 ≤ c.toNat) (hquote : c ≠ '"') (hslash : c ≠ '\\') (cs : List Char) :
    marks? (c :: cs) = (marks? cs).map fun (marks, rest) => (.char c :: marks, rest) := by
  have printable : ¬ (c = '\\' ∨ c.toNat < 0x20) := by
    rintro (h | h)
    · exact hslash h
    · exact absurd h (Nat.not_lt_of_le hc)
  rw [marks?.eq_def]
  split
  · next h => cases h
  · next h => cases h; exact absurd rfl hquote
  · next h => cases h; exact absurd rfl hslash
  · next h => cases h; exact absurd rfl hslash
  · next h => cases h; exact if_neg printable

theorem decode?_unit {n : Nat} (h : isHighSurrogate n = false) (h' : isLowSurrogate n = false) (marks : List Mark) :
    decode? (.unit n :: marks) = (decode? marks).map (Char.ofNat n :: ·) := by
  match marks with
  | [] => simp [decode?, h, h']
  | .char c :: marks => simp [decode?, h, h']
  | .unit m :: marks => simp [decode?, h, h']

/-- No character is a surrogate. -/
theorem isSurrogate_toNat (c : Char) : isHighSurrogate c.toNat = false ∧ isLowSurrogate c.toNat = false := by
  have valid : c.toNat < 0xD800 ∨ 0xDFFF < c.toNat ∧ c.toNat < 0x110000 := c.valid
  simp only [isHighSurrogate, isLowSurrogate, Bool.and_eq_false_iff, decide_eq_false_iff_not]
  omega

/-- **A string is read back** in whatever way it is written. -/
theorem Spells.read {s w : List Char} (h : Spells s w) (rest : List Char) :
    ∃ marks, marks? (w ++ '"' :: rest) = some (marks, rest) ∧ decode? marks = some s := by
  induction h with
  | nil => exact ⟨[], by simp [marks?], rfl⟩
  | plain hc hquote hslash _ ih =>
    obtain ⟨marks, hmarks, hdecode⟩ := ih
    exact ⟨_, by rw [List.cons_append, marks?_plain hc hquote hslash, hmarks]; rfl, by simp [decode?, hdecode]⟩
  | escaped he _ ih =>
    obtain ⟨marks, hmarks, hdecode⟩ := ih
    exact ⟨_, by rw [List.cons_append, List.cons_append, marks?_escaped he, hmarks]; rfl, by simp [decode?, hdecode]⟩
  | @unit c digits s w hunit _ ih =>
    obtain ⟨marks, hmarks, hdecode⟩ := ih
    obtain ⟨hhigh, hlow⟩ := isSurrogate_toNat c
    refine ⟨.unit c.toNat :: marks, ?_, ?_⟩
    · rw [List.cons_append, List.cons_append, List.append_assoc, marks?_unit hunit, hmarks]
      rfl
    · rw [decode?_unit hhigh hlow, hdecode, Option.map_some, Char.ofNat_toNat]
  | @pair c high low highDigits lowDigits s w hhigh hlow hge hlt hge' hlt' hc _ ih =>
    obtain ⟨marks, hmarks, hdecode⟩ := ih
    have first : isHighSurrogate high = true := by simp [isHighSurrogate, hge, hlt]
    have second : isLowSurrogate low = true := by simp [isLowSurrogate, hge', hlt']
    have both : paired high low = c := by rw [paired, ← hc, Char.ofNat_toNat]
    refine ⟨.unit high :: .unit low :: marks, ?_, by simp [decode?, first, second, hdecode, both]⟩
    simp only [List.cons_append, List.append_assoc]
    rw [marks?_unit hhigh, marks?_unit hlow, hmarks]
    rfl

/-! ## Writing -/

/-- The character may stand as it is. -/
def isPlain (c : Char) : Bool := 0x20 ≤ c.toNat && c != '"' && c != '\\'

theorem spells_plain {s : List Char} (h : s.all isPlain = true) : Spells s s := by
  induction s with
  | nil => exact .nil
  | cons c s ih =>
    simp only [List.all_cons, Bool.and_eq_true, isPlain, decide_eq_true_eq, bne_iff_ne] at h
    obtain ⟨⟨⟨hc, hquote⟩, hslash⟩, hs⟩ := h
    exact .plain hc hquote hslash (ih hs)

/-- A control character fits into the last two digits of a code unit. -/
theorem codeUnit_control {n : Nat} (h : n < 0x20) :
    CodeUnit n ['0', '0', hexDigit (n / 16), hexDigit (n % 16)] := by
  have unit : CodeUnit (((0 * 16 + 0) * 16 + n / 16) * 16 + n % 16) ['0', '0', hexDigit (n / 16), hexDigit (n % 16)] :=
    .digits ⟨by decide, .inl rfl⟩ ⟨by decide, .inl rfl⟩ ⟨by omega, .inl rfl⟩ ⟨by omega, .inl rfl⟩
  have value : ((0 * 16 + 0) * 16 + n / 16) * 16 + n % 16 = n := by omega
  rwa [value] at unit

theorem spells_encodeChar (c : Char) {s w : List Char} (h : Spells s w) : Spells (c :: s) (encodeChar c ++ w) := by
  unfold encodeChar
  by_cases hquote : c = '"'
  · rw [if_pos hquote, hquote]
    exact .escaped (by decide) h
  by_cases hslash : c = '\\'
  · rw [if_neg hquote, if_pos hslash, hslash]
    exact .escaped (by decide) h
  rw [if_neg hquote, if_neg hslash]
  split
  · next hc => subst hc; exact .escaped (by decide) h
  split
  · next hc => subst hc; exact .escaped (by decide) h
  split
  · next hc => subst hc; exact .escaped (by decide) h
  split
  · next hc => subst hc; exact .escaped (by decide) h
  split
  · next hc => subst hc; exact .escaped (by decide) h
  by_cases hcontrol : c.toNat < 0x20
  · rw [if_pos hcontrol]
    exact .unit (codeUnit_control hcontrol) h
  · rw [if_neg hcontrol]
    exact .plain (Nat.le_of_not_lt hcontrol) hquote hslash h

/-- **What is written is a way to write the string.** -/
theorem spells_encode (s : List Char) : Spells s (s.flatMap encodeChar) := by
  induction s with
  | nil => exact .nil
  | cons c s ih => exact spells_encodeChar c ih

end StylesheetReversal.Json
