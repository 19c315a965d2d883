import StylesheetReversal.Proofs.Path.Rejections
/-!
# What an error says of its window

A text that is no expression is refused with an error, and all that the error says is true of its window
(`Expr.parseFrom_error_says`): a lexeme that is quoted stands there, the end of the text is at the end, and what cannot be
read is a whole lexeme of that kind.
-/
namespace StylesheetReversal.Path

/-- The fault says what its window shows.  The text that is quoted is that of the window, or the end of the text is meant,
and then the window is empty and stands there; an expression is not expected to end there, so that fault quotes a lexeme. -/
def Fault.Says (text : String) (start : Nat) (f : Fault) : Prop :=
  match f.cause with
  | .unexpectedToken found | .nodeTestExpected found | .tokenExpected _ found =>
    f.span.Shows text found.toList ∨
      found = Kind.eof.spelling ∧ f.span = ⟨text.utf8ByteSize, text.utf8ByteSize⟩
  | .endExpected found => f.span.Shows text found.toList ∧ found ≠ Kind.eof.spelling
  | .predicateAfterDottedStep step => f.span.Shows text ['['] ∧ ∃ front l x back,
      (scan text start).lexemes = front ++ l :: x :: back ∧ x.span = f.span ∧ l.span.Shows text step.spelling.toList
  | .scientificNotation => (scan text start).ending = .faulty f ∧ ∃ front digits e sign power after,
      text.toList = front ++ (digits ++ e :: (sign ++ power)) ++ after ∧
      f.span = ⟨Text.width front, Text.width (front ++ (digits ++ e :: (sign ++ power)))⟩ ∧
      Numeral digits ∧ (e = 'e' ∨ e = 'E') ∧ sign ∈ [[], ['+'], ['-']] ∧ (∀ c ∈ power, c.isDigit = true) ∧
      ∀ c ∈ after.head?, c.isDigit = false
  | .unclosedString => (scan text start).ending = .faulty f ∧ ∃ quote body,
      f.span.Shows text (quote :: body) ∧ f.span.stop = text.utf8ByteSize ∧ (quote = '"' ∨ quote = '\'') ∧ quote ∉ body
  | .rejected _ => False

section

variable {text : String} {start : Nat} {f : Fault}

/-- The end of a scan is the end of the text. -/
theorem scan_ending {n : Nat} (h : (scan text start).ending = .atEnd n) : n = text.utf8ByteSize := by
  obtain ⟨skipped, read, left, htext, -, hending⟩ := scan_shown text start
  rw [h] at hending
  obtain ⟨rfl, rfl⟩ := hending
  rw [← Text.width_toList, htext, List.append_nil]

theorem Fault.says_of_faulty (h : (scan text start).ending = .faulty f) : f.Says text start := by
  obtain ⟨skipped, read, left, htext, -, hending⟩ := scan_shown text start
  rw [h] at hending
  obtain ⟨prev, hdefect, hspan⟩ := hending
  have unreadable := munch_unreadable hdefect
  rw [← munch_append prev left] at htext
  generalize (munch prev left).taken = bad, (munch prev left).rest = after at *
  obtain ⟨cause, span⟩ := f
  dsimp only at hspan unreadable
  subst hspan
  cases unreadable with
  | exponent hdigits he hsign hpower hafter =>
    refine ⟨h, skipped ++ read, _, _, _, _, after, ?_, ?_, hdigits, he, hsign, hpower, hafter⟩
    · rw [htext]
      simp only [List.append_assoc]
    · rw [Text.width_append _ (_ ++ _ :: _)]
  | @unclosed quote body hquote hbody =>
    refine ⟨h, quote, body, ⟨skipped ++ read, [], ?_, rfl⟩, ?_, hquote, hbody⟩
    · rw [htext]
      simp only [List.append_assoc]
    · rw [← Text.width_toList, htext]
      simp only [Text.width_append, Text.width_nil, Nat.add_assoc, Nat.add_zero]

/-- A bracket behind a step, as the fault of a predicate there has it. -/
theorem Fault.FollowsStep.shows {step : DottedStep} (h : f.FollowsStep (scan text start).lexemes)
    (hc : f.cause = .predicateAfterDottedStep step) : f.span.Shows text ['['] ∧ ∃ front l x back,
      (scan text start).lexemes = front ++ l :: x :: back ∧ x.span = f.span ∧ l.span.Shows text step.spelling.toList := by
  obtain ⟨front, l, x, back, hls, hl, hx, hspan⟩ := h step hc
  have step_mem : l ∈ (scan text start).lexemes := by simp [hls]
  have bracket_mem : x ∈ (scan text start).lexemes := by simp [hls]
  have step_shows := scan_shows step_mem
  have bracket_shows := scan_shows bracket_mem
  rw [(scan_genuine step_mem).text_of_mark (by rw [hl]; cases step <;> decide), hl] at step_shows
  rw [(scan_genuine bracket_mem).text_of_mark (by rw [hx]; decide), hx, ← hspan] at bracket_shows
  refine ⟨bracket_shows, front, l, x, back, hls, hspan.symm, ?_⟩
  cases step <;> exact step_shows

theorem Stuck.says {w r : List Lexeme} (h : Stuck (scan text start) w r f)
    (hf : (scan text start).ending = .faulty f ∨ f.FollowsStep (scan text start).lexemes) : f.Says text start := by
  have blames := h.blames
  obtain ⟨cause, span⟩ := f
  rcases hf with hfaulty | follows
  · exact Fault.says_of_faulty hfaulty
  cases r with
  | nil =>
    cases he : (scan text start).ending with
    | faulty g =>
      rw [he] at blames
      cases blames
      exact Fault.says_of_faulty he
    | atEnd n =>
      obtain rfl := scan_ending he
      rw [he] at blames
      obtain ⟨hspan, fits⟩ := blames
      cases cause with
      | unexpectedToken | nodeTestExpected | tokenExpected => exact .inr ⟨fits, hspan⟩
      | endExpected => exact absurd rfl fits.2
      | predicateAfterDottedStep => cases fits
      | _ => exact fits.elim
  | cons l ls =>
    have hl : l ∈ (scan text start).lexemes := by simp [h.passed]
    have quotes : l.span.Shows text (String.ofList l.text).toList := by
      rw [String.toList_ofList]
      exact scan_shows hl
    obtain ⟨hspan, fits⟩ := blames
    have here : span = l.span := hspan
    subst here
    cases cause with
    | unexpectedToken found | nodeTestExpected found | tokenExpected _ found =>
      have quoted : found = String.ofList l.text := fits
      subst quoted
      exact .inl quotes
    | endExpected found =>
      have quoted : found = String.ofList l.text := fits.1
      subst quoted
      exact ⟨quotes, (scan_genuine hl).ne_eof⟩
    | predicateAfterDottedStep step => exact follows.shows rfl
    | _ => exact fits.elim

end

/-- **All that an error says is true of its window**, wherever in the text the expression starts. -/
theorem Expr.parseFrom_error_says {text : String} {start : Nat} {err : ParseError} (h : parseFrom text start = .error err) :
    err.expression = text ∧ err.toFault.Says text start := by
  rw [parseFrom_eq] at h
  obtain ⟨t, rest, laidOut⟩ := Phrase.ofScan_laidOut (Session.fresh text start).stop (scan text start)
  cases ho : Phrase.ofText text start with
  | read phrase q =>
    rw [ho] at h
    cases h
  | broken done f =>
    rw [ho] at h
    cases h
    obtain ⟨w, r, stuck⟩ := Phrase.stuck_of_ofText ho
    exact ⟨rfl, stuck.says (laidOut.fault done f ho)⟩

theorem Expr.parseFrom_error_says_step : parseFrom "a + ..[1]" 3 =
      .error ⟨⟨.predicateAfterDottedStep .dotDot, ⟨6, 7⟩⟩, "a + ..[1]"⟩ ∧
    "a + ..[1]" = "a + ..[1]" ∧ Fault.Says "a + ..[1]" 3 ⟨.predicateAfterDottedStep .dotDot, ⟨6, 7⟩⟩ := by
  have refused : parseFrom "a + ..[1]" 3 = .error ⟨⟨.predicateAfterDottedStep .dotDot, ⟨6, 7⟩⟩, "a + ..[1]"⟩ := by
    rw [parseFrom_eq]
    rfl
  exact ⟨refused, parseFrom_error_says refused⟩

end StylesheetReversal.Path
