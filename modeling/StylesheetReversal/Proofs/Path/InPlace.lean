import StylesheetReversal.Proofs.Path.Windows
/-!
# Where a session stands

Whatever a session is asked for, and whether it meets with faults or not, it stands in its text: white space, then the
current lexeme, both between whole characters (`Session.InPlace`).  Every move takes it to a later place, until there is
no lexeme left.  So the lexemes of a text can always be listed, and with the white space between them they are the text
(`session_stands`).
-/
namespace StylesheetReversal

namespace Text

/-- The characters from one byte of a text to another. -/
def between (start stop : Nat) (text : List Char) : List Char := (cut (stop - start) (cut start text).2).1

theorem between_append (front middle back : List Char) :
    between (width front) (width (front ++ middle)) (front ++ middle ++ back) = middle := by
  rw [between, List.append_assoc, cut_width, width_append, Nat.add_sub_cancel_left, cut_width]

end Text

namespace Path

/-- What a session can be asked for. -/
inductive Request
  | advance
  | pass (expected : Kind)
  | check (expected : Kind)
  deriving DecidableEq, Repr

namespace Session

/-- The session after a request, and the fault that it met with. -/
def answer (s : Session) : Request → Session × Option Fault
  | .advance => s.advance
  | .pass expected => s.pass expected
  | .check expected => (s, s.check expected)

/-- The session after some requests, be there faults or not. -/
def after (s : Session) : List Request → Session
  | [] => s
  | r :: requests => (s.answer r).1.after requests

/-- Whether a request makes the session move. -/
def moves (s : Session) : Request → Bool
  | .advance => true
  | .pass expected => s.kind = expected
  | .check _ => false

/-- The end of the lexeme at which the last move was made; `stop` if there was none. -/
def lastStop (s : Session) (stop : Nat) : List Request → Nat
  | [] => stop
  | r :: requests => (s.answer r).1.lastStop (if s.moves r then s.stop else stop) requests

/-- The session stands in the text at the lexeme between its two offsets, with nothing but white space before it. -/
structure InPlace (text : String) (s : Session) : Prop where
  before_le : s.before ≤ s.start
  start_le : s.start ≤ s.stop
  stop_le : s.stop ≤ text.utf8ByteSize
  isValid : ∀ n ∈ [s.before, s.start, s.stop], String.Pos.Raw.IsValid text ⟨n⟩
  blank : ∀ c ∈ Text.between s.before s.start text.toList, Text.isSpace c = true
  reads : Text.between s.start s.stop text.toList = s.text
  empty_iff : s.start = s.stop ↔ s.kind = .eof
  atEnd : s.kind = .eof → s.start = text.utf8ByteSize

/-- What a reader lists who takes one lexeme after the other, from the current one to the end or to the first fault. -/
inductive Lists : Session → Except Fault (List Lexeme) → Prop
  | done {s : Session} : s.kind = .eof → Lists s (.ok [])
  | faulty {s next : Session} {f : Fault} : s.kind ≠ .eof → s.advance = (next, some f) → Lists s (.error f)
  | more {s next : Session} {result : Except Fault (List Lexeme)} : s.kind ≠ .eof → s.advance = (next, none) →
      Lists next result → Lists s (result.map (s.lexeme :: ·))

end Session

/-- The text from byte `n` on is made up of the lexemes, each in its window, with nothing but white space before, between
and behind them. -/
inductive MadeUp : Nat → List Char → List Lexeme → Prop
  | nothing {n : Nat} {gap : List Char} : (∀ c ∈ gap, Text.isSpace c = true) → MadeUp n gap []
  | lexeme {n : Nat} {gap rest : List Char} {l : Lexeme} {ls : List Lexeme} : (∀ c ∈ gap, Text.isSpace c = true) →
      l.span.start = n + Text.width gap → l.span.stop = l.span.start + Text.width l.text →
      MadeUp l.span.stop rest ls → MadeUp n (gap ++ (l.text ++ rest)) (l :: ls)

/-- A scan ends at byte `n` with these characters left: with none, or where a lexeme is faulty. -/
def Ending.At (n : Nat) (left : List Char) : Ending → Prop
  | .atEnd m => left = [] ∧ m = n
  | .faulty f => ∃ prev, (munch prev left).defect = some f.cause ∧ f.span = ⟨n, n + Text.width (munch prev left).taken⟩

namespace Session

variable {text : String} {s : Session}

/-! ## One move -/

/-- The rest of the text is left behind the current lexeme. -/
def Behind (text : String) (s : Session) : Prop := ∃ front, text.toList = front ++ s.rest ∧ s.stop = Text.width front

theorem behind_fresh (text : String) (start : Nat) : Behind text (fresh text start) :=
  ⟨(Text.cut start text.toList).1, (Text.cut_append start text.toList).symm, rfl⟩

section Advance

variable (s)

theorem gap_advance : ∀ c ∈ s.rest.takeWhile Text.isSpace, Text.isSpace c = true := List.all_eq_true.1 List.all_takeWhile

/-- A move goes behind the white space and takes one lexeme from the rest. -/
theorem rest_eq_advance : s.rest = s.rest.takeWhile Text.isSpace ++ (s.advance.1.text ++ s.advance.1.rest) := by
  have munched : s.advance.1.text ++ s.advance.1.rest = s.rest.dropWhile Text.isSpace := munch_append s.kind _
  rw [munched, List.takeWhile_append_dropWhile]

theorem munched_of_eof (h : s.advance.1.kind = .eof) : munch s.kind (s.rest.dropWhile Text.isSpace) = ⟨.eof, [], [], none⟩ := by
  rw [s.dropWhile_eq_nil_of_eof h]
  rfl

theorem text_advance_eq_nil_iff : s.advance.1.text = [] ↔ s.advance.1.kind = .eof := by
  constructor
  · intro h
    have nothing : s.rest.dropWhile Text.isSpace = [] :=
      Classical.byContradiction fun hne => munch_taken_ne_nil s.kind hne h
    show (munch s.kind (s.rest.dropWhile Text.isSpace)).kind = .eof
    rw [nothing]
    rfl
  · exact fun h => congrArg Munch.taken (munched_of_eof s h)

theorem rest_advance_of_eof (h : s.advance.1.kind = .eof) : s.advance.1.rest = [] := congrArg Munch.rest (munched_of_eof s h)

/-- **A move comes to a later place or to the end**, also if it meets with a fault. -/
theorem advance_progress : s.stop < s.advance.1.stop ∨ s.advance.1.kind = .eof := by
  by_cases h : s.advance.1.kind = .eof
  · exact .inr h
  · have taken : 0 < Text.width s.advance.1.text := Text.width_pos fun hnil => h ((text_advance_eq_nil_iff s).1 hnil)
    refine .inl ?_
    show s.stop < s.stop + Text.width (s.rest.takeWhile Text.isSpace) + Text.width s.advance.1.text
    omega

end Advance

/-- A session that has moved. -/
def Moved (text : String) (s : Session) : Prop := ∃ t, Behind text t ∧ s = t.advance.1

theorem Moved.behind (h : Moved text s) : Behind text s := by
  obtain ⟨t, ⟨front, htext, hstop⟩, rfl⟩ := h
  refine ⟨front ++ t.rest.takeWhile Text.isSpace ++ t.advance.1.text, ?_, ?_⟩
  · rw [List.append_assoc, List.append_assoc, ← rest_eq_advance]
    exact htext
  · rw [Text.width_append, Text.width_append, ← hstop]
    rfl

theorem Behind.moved (h : Behind text s) : Moved text s.advance.1 := ⟨s, h, rfl⟩

/-- **A session that has moved is in its place.** -/
theorem Moved.inPlace (h : Moved text s) : s.InPlace text := by
  obtain ⟨t, ⟨front, htext, hstop⟩, rfl⟩ := h
  let gap := t.rest.takeWhile Text.isSpace
  let w := t.advance.1.text
  have parts : text.toList = front ++ gap ++ (w ++ t.advance.1.rest) := by
    rw [List.append_assoc, ← rest_eq_advance]
    exact htext
  have more : text.toList = front ++ gap ++ w ++ t.advance.1.rest := by rw [List.append_assoc, parts]
  have before : t.advance.1.before = Text.width front := hstop
  have start : t.advance.1.start = Text.width (front ++ gap) := by
    rw [Text.width_append, ← hstop]
    rfl
  have stop : t.advance.1.stop = Text.width (front ++ gap ++ w) := by
    rw [Text.width_append, ← start]
    rfl
  have size : text.utf8ByteSize = t.advance.1.stop + Text.width t.advance.1.rest := by
    rw [← Text.width_toList, more, Text.width_append, stop]
  refine ⟨Nat.le_add_right _ _, Nat.le_add_right _ _, ?_, ?_, ?_, ?_, ?_, fun hk => ?_⟩
  · rw [size]
    exact Nat.le_add_right _ _
  · rw [before, start, stop]
    simp only [List.forall_mem_cons]
    exact ⟨Text.isValid_width htext, Text.isValid_width parts, Text.isValid_width more, nofun⟩
  · rw [before, start, parts, Text.between_append]
    exact gap_advance t
  · rw [start, stop, more, Text.between_append]
  · rw [← text_advance_eq_nil_iff]
    show t.advance.1.start = t.advance.1.start + Text.width w ↔ w = []
    constructor
    · intro h
      exact Classical.byContradiction fun hne => absurd (Text.width_pos hne) (by omega)
    · intro h
      rw [h, Text.width_nil, Nat.add_zero]
  · have empty : w = [] := (text_advance_eq_nil_iff t).2 hk
    rw [size, rest_advance_of_eof t hk, stop, empty, start, List.append_nil, Text.width_nil, Nat.add_zero]

theorem Moved.eof (h : Moved text s) (hk : s.kind = .eof) : s.advance.1.kind = .eof := by
  obtain ⟨t, -, rfl⟩ := h
  show (munch t.advance.1.kind (t.advance.1.rest.dropWhile Text.isSpace)).kind = .eof
  rw [rest_advance_of_eof t hk]
  rfl

/-! ## Many requests -/

theorem answer_eq (s : Session) (r : Request) : (s.answer r).1 = if s.moves r then s.advance.1 else s := by
  cases r with
  | advance => rfl
  | check expected => rfl
  | pass expected =>
    unfold answer pass check moves
    by_cases hk : s.kind = expected
    · simp [hk]
    · by_cases he : expected = .eof
      · subst he
        simp [hk]
      · simp [hk, he]

/-- What holds of a session that has moved holds after every request. -/
theorem Moved.answer (h : Moved text s) (r : Request) : Moved text (s.answer r).1 := by
  rw [answer_eq]
  split
  · exact h.behind.moved
  · exact h

theorem Moved.after : ∀ {s : Session}, Moved text s → ∀ requests : List Request, Moved text (s.after requests)
  | _, h, [] => h
  | _, h, r :: requests => (h.answer r).after requests

theorem before_after : ∀ (s : Session) (requests : List Request), (s.after requests).before = s.lastStop s.before requests
  | _, [] => rfl
  | s, r :: requests => by
    have stop : (s.answer r).1.before = if s.moves r then s.stop else s.before := by
      rw [answer_eq]
      split <;> rfl
    rw [after, before_after, lastStop, stop]

end Session

/-! ## All lexemes -/

/-- All lexemes of a scan, or the fault that it ends with. -/
def Scan.outcome (scan : Scan) : Except Fault (List Lexeme) :=
  match scan.ending with
  | .atEnd _ => .ok scan.lexemes
  | .faulty fault => .error fault

theorem tokenize_eq (text : String) : tokenize text = (scan text 0).outcome.mapError fun fault => ⟨fault, text⟩ := by
  unfold tokenize Scan.outcome
  dsimp only
  cases (scan text 0).ending <;> rfl

namespace Session

/-- **A scan lists the lexemes up to the end or to the first fault**: there are not more of them than it has fuel. -/
theorem lists_scan : ∀ {fuel : Nat} {s : Session}, s.rest.length < fuel →
    match s.advance with
    | (_, some fault) => (s.scan fuel).outcome = .error fault
    | (next, none) => next.Lists (s.scan fuel).outcome
  | 0, _, hf => absurd hf (Nat.not_lt_zero _)
  | fuel + 1, s, hf => by
    have shorter := s.advance_length
    rw [scan]
    cases hadvance : s.advance with
    | mk next fault =>
      rw [hadvance] at shorter
      cases fault with
      | some f => rfl
      | none =>
        dsimp only at shorter ⊢
        by_cases hk : next.kind = .eof
        · rw [if_pos hk]
          exact .done hk
        · rw [if_neg hk]
          have further := lists_scan (s := next) (Nat.lt_of_lt_of_le (shorter hk) (Nat.le_of_lt_succ hf))
          have listed : Scan.outcome ⟨next.lexeme :: (next.scan fuel).lexemes, (next.scan fuel).ending⟩ =
              (next.scan fuel).outcome.map (next.lexeme :: ·) := by
            unfold Scan.outcome
            cases (next.scan fuel).ending <;> rfl
          rw [listed]
          cases hnext : next.advance with
          | mk second fault =>
            rw [hnext] at further
            cases fault with
            | some f =>
              dsimp only at further
              rw [further]
              exact .faulty hk hnext
            | none => exact .more hk hnext further

/-- **A scan takes apart what is left of the text**: the lexemes, and a faulty one if it ends with a fault. -/
theorem scan_parts : ∀ {fuel : Nat} {s : Session}, s.rest.length < fuel → ∃ read left, s.rest = read ++ left ∧
    MadeUp s.stop read (s.scan fuel).lexemes ∧ (s.scan fuel).ending.At (s.stop + Text.width read) left
  | 0, _, hf => absurd hf (Nat.not_lt_zero _)
  | fuel + 1, s, hf => by
    have shorter := s.advance_length
    have parts := s.rest_eq_advance
    have nothing := s.text_advance_eq_nil_iff
    have left := s.rest_advance_of_eof
    have start : s.advance.1.start = s.stop + Text.width (s.rest.takeWhile Text.isSpace) := rfl
    have stop : s.advance.1.stop = s.advance.1.start + Text.width s.advance.1.text := rfl
    rw [scan]
    cases hadvance : s.advance with
    | mk next fault =>
      cases fault with
      | some f =>
        have faulty : s.advance.2 = some f := by rw [hadvance]
        obtain ⟨cause, hcause, rfl⟩ := Option.map_eq_some_iff.1 faulty
        exact ⟨_, _, List.takeWhile_append_dropWhile.symm, .nothing s.gap_advance, s.kind, hcause, rfl⟩
      | none =>
        rw [hadvance] at shorter parts nothing left start stop
        dsimp only at shorter parts nothing left start stop ⊢
        by_cases hk : next.kind = .eof
        · rw [if_pos hk]
          rw [nothing.2 hk, left hk] at parts
          exact ⟨s.rest.takeWhile Text.isSpace, [], parts, .nothing s.gap_advance, rfl, start⟩
        · rw [if_neg hk]
          obtain ⟨read, rest, hrest, hmade, hending⟩ :=
            scan_parts (s := next) (Nat.lt_of_lt_of_le (shorter hk) (Nat.le_of_lt_succ hf))
          refine ⟨s.rest.takeWhile Text.isSpace ++ (next.text ++ read), rest, ?_, ?_, ?_⟩
          · rw [List.append_assoc, List.append_assoc, ← hrest]
            exact parts
          · exact .lexeme (l := next.lexeme) s.gap_advance start stop hmade
          · rw [stop, start] at hending
            rw [Text.width_append, Text.width_append, ← Nat.add_assoc, ← Nat.add_assoc]
            exact hending

/-- **A scan that comes to the end of the text loses nothing of it.** -/
theorem madeUp_scan {fuel n : Nat} {s : Session} (hf : s.rest.length < fuel) (h : (s.scan fuel).ending = .atEnd n) :
    MadeUp s.stop s.rest (s.scan fuel).lexemes := by
  obtain ⟨read, left, hrest, hmade, hending⟩ := scan_parts hf
  rw [h] at hending
  obtain ⟨rfl, -⟩ := hending
  rwa [hrest, List.append_nil]

end Session

/-- **Whatever a session is asked for, it stands in its text**, and every move takes it further, until it is at the end and
stays there.  So the lexemes of every text are listed, and if there is no fault they make up the text. -/
theorem session_stands (text : String) (start : Nat) (requests : List Request) :
    let first := (Session.fresh text start).advance.1
    let s := first.after requests
    s.InPlace text ∧ s.before = first.lastStop (Session.fresh text start).stop requests ∧
      (s.stop < s.advance.1.stop ∨ s.advance.1.kind = .eof) ∧ (s.kind = .eof → s.advance.1.kind = .eof) ∧
      (match (Session.fresh text 0).advance with
        | (_, some fault) => tokenize text = .error ⟨fault, text⟩
        | (first, none) => ∃ result, first.Lists result ∧ tokenize text = result.mapError fun fault => ⟨fault, text⟩) ∧
      ∀ ls, tokenize text = .ok ls → MadeUp 0 text.toList ls := by
  have moved := ((Session.behind_fresh text start).moved).after requests
  refine ⟨moved.inPlace, Session.before_after _ requests, Session.advance_progress _, moved.eof, ?_, fun ls hls => ?_⟩
  · have lists := Session.lists_scan (s := Session.fresh text 0) (Nat.lt_succ_self _)
    rw [tokenize_eq]
    split
    · next fault hadvance =>
      rw [hadvance] at lists
      have ended : (scan text 0).outcome = .error fault := lists
      rw [ended]
      rfl
    · next first hadvance =>
      rw [hadvance] at lists
      exact ⟨_, lists, rfl⟩
  · unfold tokenize at hls
    dsimp only at hls
    cases hending : (scan text 0).ending with
    | faulty f => rw [hending] at hls; cases hls
    | atEnd n =>
      rw [hending] at hls
      cases hls
      have all : MadeUp (Session.fresh text 0).stop (Session.fresh text 0).rest (scan text 0).lexemes :=
        Session.madeUp_scan (Nat.lt_succ_self _) hending
      rw [Session.fresh_stop, Session.fresh_rest] at all
      exact all

end Path

end StylesheetReversal
