import StylesheetReversal.Proofs.Path.CompleteSteps
import StylesheetReversal.Proofs.Path.TwoPasses
/-!
# Parsing is deriving

A text parses to a tree exactly when its lexemes derive the tree from `Expr`
(`Expr.parse_eq_ok_iff`).  A text that does not parse is refused at its first offending lexeme: what was
read before can be completed to an expression, and with that lexeme it cannot
(`Expr.parse_error_offends`).
-/
namespace StylesheetReversal.Path

/-- Some tokens that an expression can start with. -/
def Viable (w : List Token) : Prop := ∃ more t, Derives .expr (w ++ more) t

theorem viable_nil : Viable [] := ⟨[Token.anyName], _, derives_anyName_level (by decide)⟩

/-- A token as a lexeme, in a window that does not matter. -/
def Token.lexeme (x : Token) : Lexeme := ⟨x.kind, ⟨0, 0⟩, x.text⟩

theorem Token.map_lexeme (w : List Token) : (w.map Token.lexeme).map Lexeme.token = w := by
  rw [List.map_map]
  exact List.map_id w

/-- The lexemes of a scan that stand before a window. -/
def Scan.before (s : Scan) (window : Span) : List Lexeme :=
  s.lexemes.takeWhile fun l => l.span.stop ≤ window.start

theorem operand_of_derives {ls : List Lexeme} {t : Expr} (h : Derives .expr (ls.map Lexeme.token) t)
    (n k m : Nat) (hk : 12 * ls.length + 6 ≤ k) :
    (Rule.operand (.atEnd n) k none 0 ⟨m, ls⟩).Reads t [] := by
  refine h.complete.operand n k none (by rw [List.append_nil]; rfl) (by decide) ?_
  rw [Place.tokens, List.length_map]
  exact hk

namespace Phrase

variable {m : Nat} {s : Scan} {phrase : Phrase} {q : Place} {done : List Phrase} {f : Fault}

/-- What is read from a scan is the tree that all its lexemes derive. -/
theorem derives_of_ofScan (hw : Windows s.ending 0 s.lexemes) (h : Phrase.ofScan m s = .read phrase q) :
    (∃ n, s.ending = .atEnd n) ∧ Derives .expr (s.lexemes.map Lexeme.token) phrase.expr := by
  by_cases hs : Place.Stands s.ending ⟨m, s.lexemes⟩
  · rw [ofScan_eq hs, Outcome.andThen_eq_read_iff] at h
    obtain ⟨phrase', p, hread, hexpect⟩ := h
    have meets := operand_meets hs (Nat.le_refl _)
    rw [hread] at meets
    obtain ⟨w, hwp, hstands, -, hL, -⟩ := meets
    by_cases heof : p.kind = .eof
    · rw [Place.expect, if_pos heof, Outcome.andThen_read] at hexpect
      cases hexpect
      -- no lexeme is of the kind that stands for the end
      have done : q.ahead = [] := by
        cases hp : q.ahead with
        | nil => rfl
        | cons l ls =>
          have hl : l ∈ s.lexemes := by
            have : s.lexemes = w ++ l :: ls := by rw [← hp]; exact hwp
            rw [this]
            exact List.mem_append_right _ List.mem_cons_self
          refine absurd ?_ (hw.kind_ne_eof l hl)
          rw [← heof, Place.kind, hp]
      have hall : s.lexemes = w := by
        have : s.lexemes = w ++ q.ahead := hwp
        rw [this, done, List.append_nil]
      rw [hall]
      exact ⟨hstands done, hL.1⟩
    · rw [Place.expect, if_neg heof, if_pos rfl] at hexpect
      cases hexpect
  · obtain ⟨f, rfl, hbroken⟩ := ofScan_faulty hs
    rw [hbroken] at h
    cases h

theorem ofScan_of_derives {n : Nat} {t : Expr} (he : s.ending = .atEnd n)
    (h : Derives .expr (s.lexemes.map Lexeme.token) t) :
    ∃ phrase q, Phrase.ofScan m s = .read phrase q ∧ phrase.expr = t := by
  obtain ⟨phrase, q, hread, htree, hq⟩ := operand_of_derives h n (Rule.fuel s.lexemes.length) m
    (fuel_suffices s.lexemes.length)
  have heof : q.kind = .eof := by
    rw [Place.kind_eq_kindAhead, hq]
    rfl
  refine ⟨phrase, q, ?_, htree⟩
  rw [ofScan_eq fun _ => ⟨n, he⟩, he, hread, Outcome.andThen_read, Place.expect, if_pos heof,
    Outcome.andThen_read]

end Phrase

theorem scan_windows (text : String) :
    Windows (scan text 0).ending 0 (scan text 0).lexemes := by
  have start : (Session.fresh text 0).stop = 0 := by
    have := Text.width_cut_le 0 text.toList
    exact Nat.le_zero.1 this
  have := Session.scan_windows ((Session.fresh text 0).rest.length + 1) (Session.fresh text 0)
  rw [start] at this
  exact this

/-- The lexemes of a text that was read derive its tree. -/
theorem Expr.derives_of_parse {text : String} {t : Expr} (h : parse text = .ok t) :
    tokenize text = .ok (scan text 0).lexemes ∧ Derives .expr ((scan text 0).lexemes.map Lexeme.token) t := by
  rw [parse, parseFrom_eq, Phrase.ofText] at h
  cases hscan : Phrase.ofScan (Session.fresh text 0).stop (scan text 0) with
  | broken done f => rw [hscan] at h; cases h
  | read phrase q =>
    rw [hscan] at h
    cases h
    obtain ⟨⟨n, hn⟩, derives⟩ := Phrase.derives_of_ofScan (scan_windows text) hscan
    exact ⟨by simp only [tokenize, hn], derives⟩

/-- **A text parses to a tree exactly when its lexemes derive the tree.** -/
theorem Expr.parse_eq_ok_iff (text : String) (t : Expr) :
    Expr.parse text = .ok t ↔
      ∃ ls, tokenize text = .ok ls ∧ Derives .expr (ls.map Lexeme.token) t := by
  rw [Expr.parse, Expr.parseFrom_eq, Phrase.ofText]
  constructor
  · intro h
    cases hscan : Phrase.ofScan (Session.fresh text 0).stop (scan text 0) with
    | broken done f => rw [hscan] at h; cases h
    | read phrase q =>
      rw [hscan] at h
      cases h
      obtain ⟨⟨n, hn⟩, hd⟩ := Phrase.derives_of_ofScan (scan_windows text) hscan
      exact ⟨(scan text 0).lexemes, by simp only [tokenize, hn], hd⟩
  · rintro ⟨ls, htokens, hd⟩
    cases hending : (scan text 0).ending with
    | faulty f => simp only [tokenize, hending] at htokens; cases htokens
    | atEnd n =>
      simp only [tokenize, hending, Except.ok.injEq] at htokens
      subst htokens
      obtain ⟨phrase, q, hread, htree⟩ := Phrase.ofScan_of_derives (m := (Session.fresh text 0).stop) hending hd
      rw [hread, ← htree]

/-! ## The first offending lexeme -/

/-- What is to blame for a fault of a text: the lexemes before its window can be completed, and then
comes either something that is no lexeme, or a lexeme with which they cannot, or the end of the text, at
which they are not complete. -/
def Offends (text : String) (f : Fault) : Prop :=
  let s := scan text 0
  let read := s.before f.span
  Viable (read.map Lexeme.token) ∧
  match f.cause with
  | .scientificNotation | .unclosedString => s.lexemes = read ∧ s.ending = .faulty f
  | .rejected _ => False
  | _ =>
    (∃ y rest, s.lexemes = read ++ y :: rest ∧ y.span = f.span ∧
      ¬ Viable ((read ++ [y]).map Lexeme.token)) ∨
    (s.lexemes = read ∧ s.ending = .atEnd text.utf8ByteSize ∧
      f.span = ⟨text.utf8ByteSize, text.utf8ByteSize⟩ ∧ ∀ t, ¬ Derives .expr (read.map Lexeme.token) t)

/-- A fault behind some lexemes of a scan: they can be completed, but not by lexemes that look the same
as those ahead. -/
structure Stuck (s : Scan) (w r : List Lexeme) (f : Fault) : Prop where
  passed : s.lexemes = w ++ r
  blames : Blames s.ending ⟨0, r⟩ f
  viable : Viable (w.map Lexeme.token)
  doomed : ∀ n ls, Alike s.ending r (.atEnd n) ls → ∀ t, ¬ Derives .expr ((w ++ ls).map Lexeme.token) t

theorem Blames.span {e : Ending} {p : Place} {f : Fault} (h : Blames e p f) : f.span = p.span e := by
  obtain ⟨n, ls⟩ := p
  cases ls with
  | cons l ls => exact h.1
  | nil =>
    cases e with
    | atEnd m => exact h.1
    | faulty g =>
      have : f = g := h
      rw [this]
      rfl

variable {m : Nat} {s : Scan} {f : Fault} {w r : List Lexeme}

theorem Windows.before_eq (hw : Windows s.ending 0 s.lexemes) (hp : s.lexemes = w ++ r)
    (hf : Blames s.ending ⟨m, r⟩ f) : s.before f.span = w := by
  rw [hp] at hw
  rw [Scan.before, hf.span, hp]
  exact hw.takeWhile_before

/-- An operand that breaks is stuck: with more fuel it breaks at all lexemes that look the same, where
a derivation would make it read. -/
theorem stuck_of_operand {done : List Phrase} (hw : Windows s.ending 0 s.lexemes)
    (hs : Place.Stands s.ending ⟨m, s.lexemes⟩)
    (h : Rule.operand s.ending (Rule.fuel s.lexemes.length) none 0 ⟨m, s.lexemes⟩ = .broken done f) :
    ∃ w r, Stuck s w r f := by
  have meets : ∀ k', Rule.fuel s.lexemes.length ≤ k' → ∃ r, s.lexemes = s.before f.span ++ r ∧
      Blames s.ending ⟨m, r⟩ f ∧ Viable ((s.before f.span).map Lexeme.token) ∧
      ∀ e' ls, Alike s.ending r e' ls →
        Rule.operand e' k' none 0 ⟨m, s.before f.span ++ ls⟩ = .broken done f := by
    intro k' hk'
    have := Phrase.operand_meets hs hk'
    rw [h] at this
    obtain ⟨w, r, hp, hf, -, ⟨z, phrase, _, hL, -⟩, halt⟩ := this
    rw [hw.before_eq hp hf]
    exact ⟨r, hp, hf, ⟨z, phrase.expr, hL⟩, halt⟩
  obtain ⟨r, hp, hf, hv, -⟩ := meets _ (Nat.le_refl _)
  refine ⟨s.before f.span, r, hp, Blames.last hf, hv, fun n ls hls t hd => ?_⟩
  let more := 12 * (s.before f.span ++ ls).length + 6
  obtain ⟨r', hp', -, -, halt⟩ := meets (Rule.fuel s.lexemes.length + more) (Nat.le_add_right _ _)
  have same : r' = r := List.append_cancel_left (hp'.symm.trans hp)
  rw [same] at halt
  obtain ⟨_, _, hread, -, -⟩ := operand_of_derives hd n (Rule.fuel s.lexemes.length + more) m
    (Nat.le_add_left _ _)
  rw [halt _ ls hls] at hread
  cases hread

/-- An operand that stops before the end is stuck: it stops at all lexemes that look the same. -/
theorem stuck_of_rest {phrase : Phrase} {q : Place} (hs : Place.Stands s.ending ⟨m, s.lexemes⟩)
    (h : Rule.operand s.ending (Rule.fuel s.lexemes.length) none 0 ⟨m, s.lexemes⟩ = .read phrase q)
    (hq : q.kind ≠ .eof) : ∃ w r, Stuck s w r ⟨.endExpected q.found, q.span s.ending⟩ := by
  have meets : ∀ k', Rule.fuel s.lexemes.length ≤ k' → ∃ w, s.lexemes = w ++ q.ahead ∧
      q.Stands s.ending ∧ Derives .expr (w.map Lexeme.token) phrase.expr ∧
      ∀ e' ls, Alike s.ending q.ahead e' ls →
        Rule.operand e' k' none 0 ⟨m, w ++ ls⟩ = .read phrase ⟨q.last, ls⟩ := by
    intro k' hk'
    have := Phrase.operand_meets hs hk'
    rw [h] at this
    obtain ⟨w, hp, hst, -, hL, halt⟩ := this
    exact ⟨w, hp, hst, hL.1, halt⟩
  obtain ⟨w, hp, hst, hd, -⟩ := meets _ (Nat.le_refl _)
  obtain ⟨y, ys, hys, -⟩ := Place.eq_cons_of_kind (p := q) rfl hq
  have fits : Cause.FitsAt q (.endExpected q.found) := ⟨rfl, by rw [hys]; exact List.cons_ne_nil _ _⟩
  have blames : Blames s.ending ⟨0, q.ahead⟩ ⟨.endExpected q.found, q.span s.ending⟩ :=
    Blames.last (n := q.last) (hst.blames fits)
  refine ⟨w, q.ahead, hp, blames, ⟨[], phrase.expr, by rw [List.append_nil]; exact hd⟩,
    fun n ls hls t hd' => ?_⟩
  let more := 12 * (w ++ ls).length + 6
  obtain ⟨w', hp', -, -, halt⟩ := meets (Rule.fuel s.lexemes.length + more) (Nat.le_add_right _ _)
  have same : w' = w := List.append_cancel_right (hp'.symm.trans hp)
  rw [same] at halt
  obtain ⟨_, q', hread, -, hq'⟩ := operand_of_derives hd' n (Rule.fuel s.lexemes.length + more) m
    (Nat.le_add_left _ _)
  rw [halt _ ls hls] at hread
  cases hread
  -- all lexemes were to be read, but at least one is left
  rw [hys] at hls
  cases ls with
  | nil => exact hls
  | cons => cases hq'

theorem stuck_at_once (f : Fault) : Stuck ⟨[], .faulty f⟩ [] [] f where
  passed := rfl
  blames := rfl
  viable := viable_nil
  doomed n ls h := by
    cases ls <;> cases h

theorem stuck_of_ofScan {done : List Phrase} (hw : Windows s.ending 0 s.lexemes)
    (h : Phrase.ofScan m s = .broken done f) : ∃ w r, Stuck s w r f := by
  by_cases hs : Place.Stands s.ending ⟨m, s.lexemes⟩
  · rw [Phrase.ofScan_eq hs] at h
    cases hread : Rule.operand s.ending (Rule.fuel s.lexemes.length) none 0 ⟨m, s.lexemes⟩ with
    | broken done' f' =>
      rw [hread] at h
      cases h
      exact stuck_of_operand hw hs hread
    | read phrase q =>
      rw [hread, Outcome.andThen_read] at h
      by_cases heof : q.kind = .eof
      · rw [Place.expect, if_pos heof] at h
        cases h
      · rw [Place.expect, if_neg heof, if_pos rfl] at h
        cases h
        exact stuck_of_rest hs hread heof
  · obtain ⟨g, rfl, hbroken⟩ := Phrase.ofScan_faulty hs
    rw [hbroken] at h
    cases h
    exact ⟨[], [], stuck_at_once f⟩

/-- Being stuck before a lexeme, no expression goes on with it. -/
theorem Stuck.not_viable {y : Lexeme} {rest : List Lexeme} (h : Stuck s w (y :: rest) f) :
    ¬ Viable ((w ++ [y]).map Lexeme.token) := by
  rintro ⟨more, t, hd⟩
  refine h.doomed 0 (y :: more.map Token.lexeme) rfl t ?_
  rw [List.map_append, List.map_cons, Token.map_lexeme]
  simpa using hd

/-- **A text is refused at its first offending lexeme.** -/
theorem Expr.parse_error_offends (text : String) (err : ParseError) (h : Expr.parse text = .error err) :
    Offends text err.toFault := by
  rw [Expr.parse, Expr.parseFrom_eq, Phrase.ofText] at h
  have windows := scan_windows text
  have atEnd : ∀ n, (scan text 0).ending = .atEnd n → n = text.utf8ByteSize := fun n => scan_atEnd
  have faulty : ∀ f, (scan text 0).ending = .faulty f →
      f.cause = .scientificNotation ∨ f.cause = .unclosedString := fun f => Session.scan_faulty
  unfold Offends
  generalize hs : scan text 0 = s at h windows atEnd faulty
  cases hscan : Phrase.ofScan (Session.fresh text 0).stop s with
  | read phrase q => rw [hscan] at h; cases h
  | broken done f =>
    rw [hscan] at h
    cases h
    obtain ⟨w, r, stuck⟩ := stuck_of_ofScan windows hscan
    dsimp only
    rw [windows.before_eq stuck.passed stuck.blames]
    refine ⟨stuck.viable, ?_⟩
    have blames := stuck.blames
    cases r with
    | nil =>
      have all : s.lexemes = w := by rw [stuck.passed, List.append_nil]
      cases he : s.ending with
      | faulty g =>
        rw [he] at blames
        have : f = g := blames
        subst this
        rcases faulty f he with hc | hc <;> rw [hc] <;> exact ⟨all, rfl⟩
      | atEnd n =>
        obtain rfl := atEnd n he
        rw [he] at blames
        have hd : ∀ t, ¬ Derives .expr (w.map Lexeme.token) t := by
          have := stuck.doomed text.utf8ByteSize [] (by rw [he]; rfl)
          rw [List.append_nil] at this
          exact this
        have fits := blames.2
        cases hc : f.cause <;> rw [hc] at fits <;>
          first | exact fits.elim | exact .inr ⟨all, rfl, blames.1, hd⟩
    | cons y rest =>
      have fits := blames.2
      cases hc : f.cause <;> rw [hc] at fits <;>
        first | exact fits.elim | exact .inl ⟨y, rest, stuck.passed, blames.1.symm, stuck.not_viable⟩

theorem Expr.parse_error_offends_paren :
    Expr.parse "1 + )" = .error ⟨⟨.unexpectedToken ")", ⟨4, 5⟩⟩, "1 + )"⟩ ∧
      Offends "1 + )" ⟨.unexpectedToken ")", ⟨4, 5⟩⟩ := by
  have refused : Expr.parse "1 + )" = .error ⟨⟨.unexpectedToken ")", ⟨4, 5⟩⟩, "1 + )"⟩ := by
    rw [Expr.parse, Expr.parseFrom_eq]
    rfl
  exact ⟨refused, Expr.parse_error_offends "1 + )" _ refused⟩

end StylesheetReversal.Path
