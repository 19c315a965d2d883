import StylesheetReversal.Proofs.Path.Munch
import StylesheetReversal.Proofs.Path.Phrase
import StylesheetReversal.Proofs.Text.Offset
/-!
# Windows of lexemes

The lexemes of a scan stand one behind the other, none of them empty (`Session.scan_windows`).  A window
therefore tells which lexemes were read before it, and the lexemes before the window of the lexeme
ahead are those that have been passed (`Windows.takeWhile_before`).
-/
namespace StylesheetReversal

namespace Path

/-- The lexemes and their ending stand behind the byte `n`, each behind the one before it. -/
def Windows (e : Ending) : Nat → List Lexeme → Prop
  | n, [] => n ≤ (Place.span e ⟨n, []⟩).start
  | n, l :: ls => n ≤ l.span.start ∧ l.span.start < l.span.stop ∧ l.kind ≠ .eof ∧ Windows e l.span.stop ls

namespace Windows

variable {e : Ending} {n m : Nat} {w r : List Lexeme}

theorem le_start : ∀ {n : Nat} {w : List Lexeme}, Windows e n (w ++ r) → n ≤ (Place.span e ⟨m, r⟩).start
  | n, [], h => by
    cases r with
    | nil => exact h
    | cons l ls => exact h.1
  | n, l :: w, h => by
    obtain ⟨hn, hl, -, hw⟩ := h
    have := le_start (w := w) hw
    omega

/-- **The lexemes passed are those before the window of the lexeme ahead.** -/
theorem takeWhile_before : ∀ {n : Nat} {w : List Lexeme}, Windows e n (w ++ r) →
    (w ++ r).takeWhile (fun l => l.span.stop ≤ (Place.span e ⟨m, r⟩).start) = w
  | n, [], h => by
    cases r with
    | nil => rfl
    | cons l ls =>
      obtain ⟨-, hl, -, -⟩ := h
      rw [List.nil_append, List.takeWhile_cons_of_neg]
      rw [decide_eq_true_eq]
      exact Nat.not_le_of_lt hl
  | n, l :: w, h => by
    obtain ⟨-, -, -, hw⟩ := h
    rw [List.cons_append, List.takeWhile_cons_of_pos (by simpa using le_start (w := w) hw),
      takeWhile_before hw]

theorem kind_ne_eof : ∀ {n : Nat} {ls : List Lexeme}, Windows e n ls → ∀ l ∈ ls, l.kind ≠ .eof
  | _, [], _, _, hl => by cases hl
  | _, _ :: _, ⟨_, _, hk, hw⟩, l, hl => by
    cases hl with
    | head => exact hk
    | tail _ hl => exact kind_ne_eof hw l hl

end Windows

/-- The scan of a session stands behind its current lexeme. -/
theorem Session.scan_windows : ∀ (fuel : Nat) (s : Session),
    Windows (s.scan fuel).ending s.stop (s.scan fuel).lexemes
  | 0, s => Nat.le_refl _
  | fuel + 1, s => by
    let start := s.stop + Text.width (s.rest.takeWhile Text.isSpace)
    let m := munch s.kind (s.rest.dropWhile Text.isSpace)
    have behind : s.stop ≤ start := Nat.le_add_right _ _
    rw [Session.scan]
    cases hd : m.defect with
    | some cause =>
      have advance : s.advance = (s.advance.1, some ⟨cause, ⟨start, start + Text.width m.taken⟩⟩) := by
        simp only [Session.advance, Session.span, start, m] at hd ⊢
        rw [hd]
        rfl
      rw [advance]
      exact behind
    | none =>
      have advance : s.advance = (s.advance.1, none) := by
        simp only [Session.advance, m] at hd ⊢
        rw [hd]
        rfl
      rw [advance]
      dsimp only
      by_cases hk : s.advance.1.kind = .eof
      · rw [if_pos hk]
        exact behind
      · rw [if_neg hk]
        have taken : m.taken ≠ [] := munch_taken_ne_nil _ (munch_nil_of_kind hk)
        have width := Text.width_pos taken
        exact ⟨behind, by show start < start + Text.width m.taken; omega, hk, scan_windows fuel s.advance.1⟩

theorem Session.advance_fault {s : Session} {f : Fault} (h : s.advance.2 = some f) :
    f.cause = .scientificNotation ∨ f.cause = .unclosedString := by
  have hmap : (munch s.kind (s.rest.dropWhile Text.isSpace)).defect.map
      (fun cause => (⟨cause, s.advance.1.span⟩ : Fault)) = some f := h
  obtain ⟨cause, hcause, rfl⟩ := Option.map_eq_some_iff.1 hmap
  exact munch_defect hcause

theorem Session.scan_faulty : ∀ {fuel : Nat} {s : Session} {f : Fault},
    (s.scan fuel).ending = .faulty f → f.cause = .scientificNotation ∨ f.cause = .unclosedString
  | 0, s, f, h => by cases h
  | fuel + 1, s, f, h => by
    rw [Session.scan] at h
    split at h
    · next hadvance =>
      cases h
      exact advance_fault (congrArg Prod.snd hadvance)
    · split at h
      · cases h
      · exact scan_faulty h

/-! ## The end of the text -/

namespace Session

variable (s : Session)

theorem advance_stop : s.advance.1.stop + Text.width s.advance.1.rest = s.stop + Text.width s.rest := by
  have split := List.takeWhile_append_dropWhile (p := Text.isSpace) (l := s.rest)
  have munched := congrArg Text.width (munch_append s.kind (s.rest.dropWhile Text.isSpace))
  have width := congrArg Text.width split
  rw [Text.width_append] at munched width
  show s.stop + Text.width (s.rest.takeWhile Text.isSpace) +
    Text.width (munch s.kind (s.rest.dropWhile Text.isSpace)).taken +
    Text.width (munch s.kind (s.rest.dropWhile Text.isSpace)).rest = _
  omega

theorem advance_length (hk : s.advance.1.kind ≠ .eof) : s.advance.1.rest.length < s.rest.length := by
  have split := congrArg List.length (List.takeWhile_append_dropWhile (p := Text.isSpace) (l := s.rest))
  have munched := congrArg List.length (munch_append s.kind (s.rest.dropWhile Text.isSpace))
  have taken := List.length_pos_iff.2 (munch_taken_ne_nil s.kind (munch_nil_of_kind hk))
  rw [List.length_append] at split munched
  show (munch s.kind (s.rest.dropWhile Text.isSpace)).rest.length < _
  omega

theorem scan_length : ∀ (fuel : Nat) (s : Session), (s.scan fuel).lexemes.length ≤ s.rest.length
  | 0, _ => Nat.zero_le _
  | fuel + 1, s => by
    have shorter := s.advance_length
    rw [scan]
    cases hadvance : s.advance with
    | mk next fault =>
      rw [hadvance] at shorter
      cases fault with
      | some f => exact Nat.zero_le _
      | none =>
        dsimp only at shorter ⊢
        by_cases hk : next.kind = .eof
        · rw [if_pos hk]
          exact Nat.zero_le _
        · rw [if_neg hk]
          have := scan_length fuel next
          have := shorter hk
          simp only [List.length_cons]
          omega

/-- The end is where only white space is left. -/
theorem dropWhile_eq_nil_of_eof (hk : s.advance.1.kind = .eof) : s.rest.dropWhile Text.isSpace = [] :=
  Classical.byContradiction fun hne => munch_kind_ne_eof hne hk

theorem advance_eof (hk : s.advance.1.kind = .eof) : s.advance.1.start = s.stop + Text.width s.rest := by
  have nothing := s.dropWhile_eq_nil_of_eof hk
  have split := List.takeWhile_append_dropWhile (p := Text.isSpace) (l := s.rest)
  rw [nothing, List.append_nil] at split
  show s.stop + Text.width (s.rest.takeWhile Text.isSpace) = _
  rw [split]

end Session

/-- A scan with enough fuel that ends without a fault has come to the end of the text. -/
theorem Session.scan_atEnd : ∀ {fuel : Nat} {s : Session} {n : Nat}, s.rest.length < fuel →
    (s.scan fuel).ending = .atEnd n → n = s.stop + Text.width s.rest
  | 0, _, _, hf, _ => absurd hf (Nat.not_lt_zero _)
  | fuel + 1, s, n, hf, h => by
    have stop := s.advance_stop
    have length := s.advance_length
    have eof := s.advance_eof
    rw [Session.scan] at h
    cases hd : s.advance with
    | mk next fault =>
      rw [hd] at h stop length eof
      cases fault with
      | some f => cases h
      | none =>
        dsimp only at h stop length eof
        by_cases hk : next.kind = .eof
        · rw [if_pos hk] at h
          cases h
          exact eof hk
        · rw [if_neg hk] at h
          rw [← stop]
          have := length hk
          exact scan_atEnd (by omega) h

/-- A session at the start of a text has all of it left. -/
theorem Session.fresh_rest (text : String) : (fresh text 0).rest = text.toList := by
  have cut := Text.cut_append 0 text.toList
  have nothing : (Text.cut 0 text.toList).1 = [] := by
    have width := Text.width_cut_le 0 text.toList
    exact Classical.byContradiction fun hne => absurd (Text.width_pos hne) (by omega)
  rw [nothing] at cut
  exact cut

theorem Session.fresh_stop (text : String) : (fresh text 0).stop = 0 := Nat.le_zero.1 (Text.width_cut_le 0 text.toList)

theorem scan_atEnd {text : String} {n : Nat} (h : (scan text 0).ending = .atEnd n) :
    n = text.utf8ByteSize := by
  rw [Session.scan_atEnd (Nat.lt_succ_self _) h, Session.fresh_stop, Session.fresh_rest, Text.width_toList, Nat.zero_add]

end Path

end StylesheetReversal
