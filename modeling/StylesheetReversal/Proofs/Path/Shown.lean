import StylesheetReversal.Proofs.Path.InPlace
import StylesheetReversal.Proofs.Path.Layout
import StylesheetReversal.Proofs.Path.LongestMatch
/-!
# What a window shows

A scan takes a text apart (`scan_shown`): in front of the offset there is what is skipped, then come the lexemes, each in
its window and with nothing but white space between them, and then a lexeme that cannot be read, if there is one.  So the
window of a lexeme shows its characters (`scan_shows`), and the window from one lexeme to another shows what stands from
the first character of the one to the last of the other (`scan_across`).  No such window starts or ends with white space.
-/
namespace StylesheetReversal

/-- Neither the first of the characters nor the last is white space. -/
structure Text.Trimmed (cs : List Char) : Prop where
  ne_nil : cs ≠ []
  head : ∀ c ∈ cs.head?, isSpace c = false
  last : ∀ c ∈ cs.getLast?, isSpace c = false

theorem Text.Trimmed.append {front back : List Char} (hf : Trimmed front) (gap : List Char) (hb : Trimmed back) :
    Trimmed (front ++ (gap ++ back)) where
  ne_nil := List.append_ne_nil_of_left_ne_nil hf.ne_nil _
  head := by
    rw [List.head?_append_of_ne_nil _ hf.ne_nil]
    exact hf.head
  last := by
    rw [← List.append_assoc, List.getLast?_append_of_ne_nil _ hb.ne_nil]
    exact hb.last

namespace Path

/-- The window shows these characters of the text. -/
def Span.Shows (text : String) (u : Span) (cs : List Char) : Prop :=
  ∃ front back, text.toList = front ++ (cs ++ back) ∧ u = ⟨Text.width front, Text.width front + Text.width cs⟩

/-- The window shows something that has no white space at its two ends. -/
def Span.Tight (text : String) (u : Span) : Prop := ∃ cs, u.Shows text cs ∧ Text.Trimmed cs

/-! ## Lexemes -/

theorem Numeral.isSpace {w : List Char} (h : Numeral w) : ∀ c ∈ w, Text.isSpace c = false := by
  have point : Text.isSpace '.' = false := by decide
  have digits : ∀ {ds : List Char}, (∀ c ∈ ds, c.isDigit = true) → ∀ c ∈ ds, Text.isSpace c = false :=
    fun hall c hc => Text.isSpace_eq_false (p := Char.isDigit) (by decide) (hall c hc)
  cases h with
  | whole _ hall => exact digits hall
  | pointed _ hall hmore =>
    exact List.forall_mem_append.2 ⟨digits hall, List.forall_mem_cons.2 ⟨point, digits hmore⟩⟩
  | fraction _ hall => exact List.forall_mem_cons.2 ⟨point, digits hall⟩

theorem Spells.isSpace {w : List Char} (h : Spells w) : ∀ c ∈ w, Text.isSpace c = false := by
  have colon : Text.isSpace ':' = false := by decide
  have star : Text.isSpace '*' = false := by decide
  have name : ∀ {cs : List Char}, Text.isName cs = true → ∀ c ∈ cs, Text.isSpace c = false :=
    fun hname c hc => Text.isSpace_eq_false (p := Text.isNameChar) (by decide) (Text.isNameChar_of_isName hname c hc)
  cases h with
  | plain hbase => exact name hbase
  | qualified hqualifier hbase =>
    exact List.forall_mem_append.2 ⟨name hqualifier, List.forall_mem_cons.2 ⟨colon, name hbase⟩⟩
  | wildcard hqualifier =>
    refine List.forall_mem_append.2 ⟨name hqualifier, List.forall_mem_cons.2 ⟨colon, ?_⟩⟩
    exact List.forall_mem_singleton.2 star

/-- No lexeme ends with white space. -/
theorem Form.last {w : List Char} (h : Form w) : ∀ c ∈ w.getLast?, Text.isSpace c = false := by
  have spellings : ∀ k ∈ Kind.star :: marks, k.spelling.toList.any Text.isSpace = false := by decide
  rcases h.cases with h | h | h | ⟨k, hk, rfl⟩
  · exact fun c hc => h.isSpace c (List.mem_of_getLast? hc)
  · cases h with
    | mk hquote _ =>
      rw [← List.cons_append, List.getLast?_concat]
      rintro _ ⟨⟩
      rcases hquote with rfl | rfl <;> decide
  · exact fun c hc => h.isSpace c (List.mem_of_getLast? hc)
  · exact fun c hc => Bool.eq_false_iff.2 (List.any_eq_false.1 (spellings k hk) c (List.mem_of_getLast? hc))

/-- What is known of every lexeme of a scan: it was taken where no white space stands. -/
structure Lexeme.Genuine (l : Lexeme) : Prop where
  taken : ∃ prev rest, Taken prev l.text rest l.kind
  ne_nil : l.text ≠ []
  head : ∀ c ∈ l.text.head?, Text.isSpace c = false

theorem Lexeme.Genuine.trimmed {l : Lexeme} (h : l.Genuine) : Text.Trimmed l.text := by
  refine ⟨h.ne_nil, h.head, ?_⟩
  obtain ⟨prev, rest, ⟨longest, -⟩ | ⟨⟨c, hc⟩, -⟩⟩ := h.taken
  · exact longest.form.last
  · have first := h.head
    rw [hc] at first ⊢
    exact first

/-- A mark is spelled like its kind. -/
theorem Lexeme.Genuine.text_of_mark {l : Lexeme} (h : l.Genuine) (hk : l.kind ∈ marks) :
    l.text = l.kind.spelling.toList := by
  have others : ∀ k ∈ [Kind.unknown, .star, .multiply, .number, .string, .name, .axis] ++ keywords, k ∉ marks := by decide
  obtain ⟨prev, rest, ⟨-, hclass⟩ | ⟨-, hunknown, -⟩⟩ := h.taken
  · generalize l.kind = k at hk hclass
    cases hclass with
    | mark _ hword => exact hword
    | star _ hmultiply hstar =>
      by_cases after : AfterOperand prev
      · exact absurd (hmultiply.2 after ▸ hk) (by decide)
      · exact absurd (hstar.2 after ▸ hk) (by decide)
    | number | string => exact absurd hk (by decide)
    | keyword hkeyword _ hoperator hname =>
      by_cases after : AfterOperand prev
      · exact absurd (hoperator.2 after ▸ hk) (others _ (List.mem_append_right _ hkeyword))
      · exact absurd (hname.2 after ▸ hk) (by decide)
    | word _ _ haxis hname =>
      by_cases names : NamesAxis l.text rest
      · exact absurd (haxis.2 names ▸ hk) (by decide)
      · exact absurd (hname.2 names ▸ hk) (by decide)
  · exact absurd (hunknown ▸ hk) (by decide)

/-- No lexeme reads like the end of the text is quoted. -/
theorem Lexeme.Genuine.ne_eof {l : Lexeme} (h : l.Genuine) : String.ofList l.text ≠ Kind.eof.spelling := by
  intro heq
  have text : l.text = Kind.eof.spelling.toList := by rw [← heq, String.toList_ofList]
  obtain ⟨prev, rest, ⟨longest, -⟩ | ⟨⟨c, hc⟩, -⟩⟩ := h.taken
  · have form := longest.form
    rw [text] at form
    have marksDiffer : ∀ k ∈ Kind.star :: marks, Kind.eof.spelling.toList ≠ k.spelling.toList := by decide
    rcases form.cases with h | h | h | ⟨k, hk, hspelling⟩
    · exact absurd (h.starts (List.prefix_refl _)) (by decide)
    · exact absurd (h.starts (List.prefix_refl _)) (by decide)
    · exact absurd (h.starts (List.prefix_refl _)) (by decide)
    · exact marksDiffer k hk hspelling
  · rw [text] at hc
    cases hc

theorem Session.scan_genuine : ∀ (fuel : Nat) (s : Session), ∀ l ∈ (s.scan fuel).lexemes, l.Genuine
  | 0, _, _, hl => by cases hl
  | fuel + 1, s, l, hl => by
    rw [Session.scan] at hl
    split at hl
    · cases hl
    · next next hadvance =>
      split at hl
      · cases hl
      · next hk =>
        rcases List.mem_cons.1 hl with rfl | hl
        · have known : (some s.kind).getD .unknown = s.kind := rfl
          obtain ⟨wellRead, hne, hrest⟩ := advance_wellRead known hadvance hk
          refine ⟨⟨_, _, wellRead.taken⟩, hne, fun c hc => ?_⟩
          have head := List.head?_dropWhile_not Text.isSpace s.rest
          have first : next.text.head? = some c := hc
          rw [← hrest, List.head?_append_of_ne_nil _ hne, first] at head
          exact head
        · exact scan_genuine fuel next l hl

/-! ## Lexemes that cannot be read -/

/-- The two ways in which a lexeme cannot be read: a number with an exponent, and a string that is not closed. -/
inductive Unreadable : Cause → List Char → List Char → Prop
  | exponent {digits sign power after : List Char} {e : Char} : Numeral digits → e = 'e' ∨ e = 'E' →
    sign ∈ [[], ['+'], ['-']] → (∀ c ∈ power, c.isDigit = true) → (∀ c ∈ after.head?, c.isDigit = false) →
    Unreadable .scientificNotation (digits ++ e :: (sign ++ power)) after
  | unclosed {quote : Char} {body : List Char} : quote = '"' ∨ quote = '\'' → quote ∉ body →
    Unreadable .unclosedString (quote :: body) []

namespace Munch

theorem signedDigits_spec (text : List Char) : ∃ sign power, (signedDigits text).1 = sign ++ power ∧
    sign ∈ [[], ['+'], ['-']] ∧ (∀ c ∈ power, c.isDigit = true) ∧ ∀ c ∈ (signedDigits text).2.head?, c.isDigit = false := by
  have digits : ∀ cs : List Char, ∀ c ∈ cs.takeWhile Char.isDigit, c.isDigit = true :=
    fun cs => List.all_eq_true.1 List.all_takeWhile
  have behind : ∀ cs : List Char, ∀ c ∈ (cs.dropWhile Char.isDigit).head?, c.isDigit = false := by
    intro cs c hc
    have head := List.head?_dropWhile_not Char.isDigit cs
    rw [(hc : _ = some c)] at head
    simpa using head
  cases text with
  | nil => exact ⟨[], [], rfl, by decide, nofun, nofun⟩
  | cons c cs =>
    by_cases hc : c = '+' ∨ c = '-'
    · rw [signedDigits, if_pos hc]
      refine ⟨[c], cs.takeWhile Char.isDigit, rfl, ?_, digits cs, behind cs⟩
      rcases hc with rfl | rfl <;> decide
    · rw [signedDigits, if_neg hc]
      exact ⟨[], (c :: cs).takeWhile Char.isDigit, rfl, by decide, digits _, behind _⟩

theorem number_unreadable {text : List Char} {cause : Cause} (hn : startsNumber text = true)
    (h : (number text).defect = some cause) : Unreadable cause (number text).taken (number text).rest := by
  have numeral := numeral_decimal hn
  unfold number at h ⊢
  split at h
  · cases h
  · next digits c rest hd =>
    rw [hd] at numeral
    dsimp only at numeral h ⊢
    split at h
    · next hc =>
      obtain ⟨sign, power, htaken, hsign, hpower, hrest⟩ := signedDigits_spec rest
      cases h
      rw [if_pos hc]
      dsimp only
      rw [htaken]
      exact .exponent numeral hc hsign hpower hrest
    · cases h

theorem quoted_unreadable {quote : Char} {text : List Char} {cause : Cause} (hq : quote = '"' ∨ quote = '\'')
    (h : (quoted quote text).defect = some cause) :
    Unreadable cause (quoted quote text).taken (quoted quote text).rest := by
  unfold quoted at h ⊢
  split at h
  · next heq =>
    cases h
    refine .unclosed hq fun hmem => ?_
    have inside : ∀ c ∈ text.takeWhile (· != quote), (c != quote) = true := List.all_eq_true.1 List.all_takeWhile
    have split := List.takeWhile_append_dropWhile (p := (· != quote)) (l := text)
    rw [heq, List.append_nil] at split
    rw [split] at inside
    simpa using inside quote hmem
  · cases h

end Munch

theorem munch_unreadable {prev : Kind} {text : List Char} {cause : Cause} (h : (munch prev text).defect = some cause) :
    Unreadable cause (munch prev text).taken (munch prev text).rest := by
  cases text with
  | nil => cases h
  | cons c cs =>
    by_cases hn : Munch.startsNumber (c :: cs) = true
    · rw [munch_number prev hn] at h ⊢
      exact Munch.number_unreadable hn h
    by_cases hq : c = '"' ∨ c = '\''
    · rw [munch_quoted prev hq] at h ⊢
      exact Munch.quoted_unreadable hq h
    by_cases hs : Text.isNameStart c = true
    · rw [munch_word prev hs, word_defect] at h
      cases h
    cases hf : Munch.fixed? (c :: cs) with
    | none =>
      rw [munch_unknown prev hn hq hs hf] at h
      cases h
    | some entry =>
      rw [munch_mark prev hn hq hs hf] at h
      cases h

/-! ## The whole text -/

/-- **A scan takes the text apart**: what is skipped, the lexemes, and what cannot be read. -/
theorem scan_shown (text : String) (start : Nat) : ∃ skipped read left, text.toList = skipped ++ (read ++ left) ∧
    MadeUp (Text.width skipped) read (scan text start).lexemes ∧
    (scan text start).ending.At (Text.width (skipped ++ read)) left := by
  obtain ⟨read, left, hrest, hmade, hending⟩ := Session.scan_parts (s := Session.fresh text start) (Nat.lt_succ_self _)
  obtain ⟨skipped, htext, hstop⟩ := Session.behind_fresh text start
  refine ⟨skipped, read, left, by rw [htext, hrest], ?_, ?_⟩
  · rw [← hstop]
    exact hmade
  · rw [Text.width_append, ← hstop]
    exact hending

/-! ## Windows in a text -/

namespace MadeUp

variable {n : Nat} {text : List Char} {ls v w : List Lexeme}

theorem split : ∀ {n : Nat} {text : List Char} {v : List Lexeme}, MadeUp n text (v ++ w) → ∃ front back,
    text = front ++ back ∧ MadeUp n front v ∧ MadeUp (n + Text.width front) back w
  | n, text, [], h => ⟨[], text, rfl, .nothing nofun, h⟩
  | _, _, _ :: _, @lexeme _ gap _ l _ hgap hstart hstop more => by
    obtain ⟨front, back, rfl, hfront, hback⟩ := more.split
    refine ⟨gap ++ (l.text ++ front), back, by simp only [List.append_assoc], .lexeme hgap hstart hstop hfront, ?_⟩
    rw [hstop, hstart] at hback
    rw [Text.width_append, Text.width_append, ← Nat.add_assoc, ← Nat.add_assoc]
    exact hback

/-- The window of some lexemes shows all that they are made up of but the white space at the two ends. -/
theorem across : ∀ {n : Nat} {text : List Char} {ls : List Lexeme}, MadeUp n text ls → ls ≠ [] →
    (∀ l ∈ ls, Text.Trimmed l.text) → ∃ gap shown back, text = gap ++ (shown ++ back) ∧ Text.Trimmed shown ∧
      Span.across ls = ⟨n + Text.width gap, n + Text.width gap + Text.width shown⟩
  | _, _, [], _, hne, _ => absurd rfl hne
  | _, _, [l], @lexeme _ gap rest _ _ _ hstart hstop _, _, trimmed => by
    refine ⟨gap, l.text, rest, rfl, trimmed l List.mem_cons_self, ?_⟩
    rw [Span.across_singleton, ← hstart, ← hstop]
  | _, _, l :: x :: ls, @lexeme _ gap _ _ _ _ hstart hstop more, _, trimmed => by
    obtain ⟨htrimmed, others⟩ := List.forall_mem_cons.1 trimmed
    obtain ⟨inner, shown, back, rfl, hshown, hacross⟩ := more.across (List.cons_ne_nil x ls) others
    refine ⟨gap, l.text ++ (inner ++ shown), back, by simp only [List.append_assoc], htrimmed.append inner hshown, ?_⟩
    have whole : Span.across (l :: x :: ls) = ⟨l.span.start, (Span.across (x :: ls)).stop⟩ := rfl
    rw [whole, hacross, hstop, hstart, Text.width_append, Text.width_append]
    simp only [Nat.add_assoc]

end MadeUp

theorem Windows.weaken {e : Ending} {m n : Nat} (hle : m ≤ n) : ∀ {ls : List Lexeme}, Windows e n ls → Windows e m ls
  | [], h => Nat.le_trans hle h
  | _ :: _, h => ⟨Nat.le_trans hle h.1, h.2⟩

section

variable {text : String} {start : Nat} {front w back : List Lexeme}

/-- The lexemes stand one behind the other, wherever the scan starts. -/
theorem scan_inOrder (text : String) (start : Nat) : Windows (scan text start).ending 0 (scan text start).lexemes :=
  Windows.weaken (Nat.zero_le _) (Session.scan_windows _ (Session.fresh text start))

theorem scan_genuine {l : Lexeme} (h : l ∈ (scan text start).lexemes) : l.Genuine := Session.scan_genuine _ _ l h

/-- **The window of some lexemes**, one behind the other, shows what stands from the first to the last. -/
theorem scan_across (h : (scan text start).lexemes = front ++ (w ++ back)) (hw : w ≠ []) : (Span.across w).Tight text := by
  obtain ⟨skipped, read, left, htext, hmade, -⟩ := scan_shown text start
  have trimmed : ∀ l ∈ w, Text.Trimmed l.text := by
    intro l hl
    have mem : l ∈ (scan text start).lexemes := by simp [h, hl]
    exact (scan_genuine mem).trimmed
  rw [h] at hmade
  obtain ⟨before, rest, rfl, -, hrest⟩ := hmade.split
  obtain ⟨middle, behind, rfl, hmiddle, -⟩ := hrest.split
  obtain ⟨gap, cs, after, rfl, hcs, hacross⟩ := hmiddle.across hw trimmed
  refine ⟨cs, ⟨skipped ++ (before ++ gap), after ++ (behind ++ left), ?_, ?_⟩, hcs⟩
  · rw [htext]
    simp only [List.append_assoc]
  · rw [hacross, Text.width_append, Text.width_append]
    simp only [Nat.add_assoc]

/-- The window of a lexeme shows its characters. -/
theorem scan_shows {l : Lexeme} (h : l ∈ (scan text start).lexemes) : l.span.Shows text l.text := by
  obtain ⟨skipped, read, left, htext, hmade, -⟩ := scan_shown text start
  obtain ⟨front, back, hl⟩ := List.append_of_mem h
  rw [hl] at hmade
  obtain ⟨before, rest, rfl, -, hrest⟩ := hmade.split
  cases hrest with
  | @lexeme _ gap rest _ _ _ hstart hstop _ =>
    refine ⟨skipped ++ (before ++ gap), rest ++ left, ?_, ?_⟩
    · rw [htext]
      simp only [List.append_assoc]
    · rw [Text.width_append, Text.width_append, ← Nat.add_assoc, ← hstart, ← hstop]

end

end Path

end StylesheetReversal
