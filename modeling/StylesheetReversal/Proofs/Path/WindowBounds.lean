import StylesheetReversal.Proofs.Path.Exposed
/-!
# Windows that can be cut out of the text

The window of a fault is that of some lexemes or of what the scan ends with (`Scan.Marks`), so it goes forward, lies in
the text behind what is skipped and starts and ends between two characters, whatever is wrong and whoever found it.

There is one exception (`Builder.error_window_valid_iff`).  When a builder gives up the finished expression, all of the
text from the offset on is blamed, and the offset is the one that was asked for, not the one that was read from: inside a
character it is no place to cut the text (`Builder.discarded_window`).
-/
namespace StylesheetReversal

namespace Path

open String.Pos

/-- The window goes forward, lies in the text, and starts and ends between two characters. -/
structure Span.Valid (text : String) (u : Span) : Prop where
  start_le : u.start ≤ u.stop
  stop_le : u.stop ≤ text.utf8ByteSize
  start_valid : Raw.IsValid text ⟨u.start⟩
  stop_valid : Raw.IsValid text ⟨u.stop⟩

theorem Span.Shows.valid {text : String} {u : Span} {cs : List Char} (h : u.Shows text cs) : u.Valid text := by
  obtain ⟨front, back, htext, rfl⟩ := h
  have further : text.toList = (front ++ cs) ++ back := by rw [htext, List.append_assoc]
  refine ⟨Nat.le_add_right _ _, ?_, Text.isValid_width htext, ?_⟩
  · rw [← Text.width_toList, further, Text.width_append, Text.width_append]
    exact Nat.le_add_right _ _
  · have stop := Text.isValid_width further
    rwa [Text.width_append] at stop

/-! ## Windows of a scan -/

/-- The window is that of some lexemes, one behind the other, or of what the scan ends with. -/
def Scan.Marks (s : Scan) (u : Span) : Prop :=
  (∃ front w back, s.lexemes = front ++ (w ++ back) ∧ w ≠ [] ∧ u = .across w) ∨ u = Place.span s.ending ⟨0, []⟩

namespace Scan.Marks

variable {s : Scan} {u : Span}

/-- What is ahead, behind some lexemes, has a window of the scan. -/
theorem ahead {v r : List Lexeme} (h : s.lexemes = v ++ r) : s.Marks (Place.span s.ending ⟨0, r⟩) := by
  cases r with
  | nil => exact .inr rfl
  | cons l r => exact .inl ⟨v, [l], r, h, List.cons_ne_nil l [], rfl⟩

theorem stuck {w r : List Lexeme} {f : Fault} (h : Stuck s w r f) : s.Marks f.span := by
  rw [h.blames.span]
  exact ahead h.passed

/-- A unit that is open is some of the lexemes. -/
theorem unit {site : Site} (h : site.Stands s.lexemes) (hu : site.unit = some u) : s.Marks u := by
  obtain ⟨outer, hmem, head, hne, ⟨more, rfl⟩, rfl⟩ := h.opened u hu
  obtain ⟨front, before, after, back, -, hall, -⟩ := h.nested _ hmem
  refine .inl ⟨front, head, more ++ back, ?_, hne, rfl⟩
  rw [hall]
  simp only [List.append_assoc]

/-- **The window to blame for a call is one of the scan**: that of the construct, of the unit around it, or of what has
been reached. -/
theorem site {site : Site} (h : site.Stands s.lexemes) : s.Marks (site.window s.ending) := by
  obtain ⟨front, hall⟩ := h.exists_front
  by_cases hs : site.hasWindow = true
  · rcases h.window_of_hasWindow hs s.ending with hu | ⟨before, w, hsource, hne, hwindow⟩
    · exact unit h hu
    · rw [hwindow]
      refine .inl ⟨front ++ before, w, site.behind, ?_, hne, rfl⟩
      rw [hall, hsource]
      simp only [List.append_assoc]
  · rw [Site.window_of_hasWindow_eq_false (Bool.not_eq_true _ ▸ hs)]
    cases hu : site.unit with
    | some u => exact unit h hu
    | none => exact ahead (v := front ++ site.source) (by rw [hall, List.append_assoc])

end Scan.Marks

/-- What a scan ends with shows what is left of the text, or as much of it as makes a faulty lexeme. -/
theorem scan_ending_shows (text : String) (start : Nat) :
    ∃ cs, (Place.span (scan text start).ending ⟨0, []⟩).Shows text cs := by
  obtain ⟨skipped, read, left, htext, -, hending⟩ := scan_shown text start
  rw [← List.append_assoc] at htext
  cases he : (scan text start).ending with
  | atEnd n =>
    rw [he] at hending
    obtain ⟨rfl, rfl⟩ := hending
    exact ⟨[], _, [], htext, rfl⟩
  | faulty f =>
    rw [he] at hending
    obtain ⟨prev, -, hspan⟩ := hending
    refine ⟨(munch prev left).taken, _, (munch prev left).rest, ?_, hspan⟩
    rw [munch_append]
    exact htext

/-- **Every window of a scan can be cut out of the text**, and none starts before the place where the scan began. -/
theorem Scan.Marks.bounded {text : String} {start : Nat} {u : Span} (h : (scan text start).Marks u) :
    u.Valid text ∧ Text.width (Text.cut start text.toList).1 ≤ u.start := by
  have windows : Windows (scan text start).ending (Text.width (Text.cut start text.toList).1) (scan text start).lexemes :=
    Session.scan_windows _ (Session.fresh text start)
  rcases h with ⟨front, w, back, hls, hw, rfl⟩ | rfl
  · obtain ⟨cs, hshows, -⟩ := scan_across hls hw
    refine ⟨hshows.valid, ?_⟩
    rw [hls] at windows
    obtain ⟨l, w, rfl⟩ := List.exists_cons_of_ne_nil hw
    exact windows.le_start (m := 0)
  · obtain ⟨cs, hshows⟩ := scan_ending_shows text start
    refine ⟨hshows.valid, ?_⟩
    rw [← List.append_nil (scan text start).lexemes] at windows
    exact windows.le_start

/-! ## Errors of a parse -/

/-- Where there is something to read, the offset is inside the text. -/
theorem Session.start_lt_of_rest {text : String} {start : Nat} (h : (fresh text start).rest ≠ []) :
    start < text.utf8ByteSize := by
  have parts := Text.cut_append start text.toList
  obtain ⟨c, cs, hrest⟩ := List.exists_cons_of_ne_nil h
  have rest : (Text.cut start text.toList).2 = c :: cs := hrest
  have first : c ∈ (Text.cut start text.toList).2.head? := by
    rw [rest]
    rfl
  have misfit := Text.lt_width_of_head?_cut c first
  rw [← Text.width_toList, ← parts, Text.width_append, rest, Text.width_cons]
  omega

theorem Phrase.rest_of_ofText {text : String} {start : Nat} {phrase : Phrase} {q : Place}
    (h : ofText text start = .read phrase q) : (Session.fresh text start).rest ≠ [] := by
  have derives := (derives_of_ofScan (scan_inOrder text start) h).2
  have lexemes := derives.length_pos
  have fewer := Session.scan_length ((Session.fresh text start).rest.length + 1) (Session.fresh text start)
  rw [List.length_map] at lexemes
  exact List.ne_nil_of_length_pos (Nat.lt_of_lt_of_le lexemes fewer)

namespace Builder

variable {σ ν : Type} (b : Builder σ ν) (text : String) (start : Nat) (s : σ)

/-- The expression is read and built to the end, and then the builder gives up the result. -/
def Discards : Prop :=
  let session := Session.fresh text start
  ∃ node d, Parser.expression b (Parser.fuel session.rest.length) ⟨session, [], b.start s⟩ = (.ok node, d) ∧
    (b.finish (some node) d.state).1 = none

variable {b text start s}

/-- What goes wrong while the expression is built is in a window of the scan. -/
theorem marks_of_buildOutcome {f : Fault} {s s' : σ} (h : b.buildOutcome (Phrase.ofText text start) s = (.error f, s')) :
    (scan text start).Marks f.span := by
  obtain ⟨events, htraced⟩ := traces_buildOutcome b (Phrase.ofText text start) s []
  obtain ⟨calls, -, hfault⟩ := buildOutcome_refused b (Phrase.ofText text start) s []
  rw [htraced, h] at hfault
  rcases hfault f rfl with refused | ⟨done, hbroken⟩
  · obtain ⟨t, rest, ht⟩ := Phrase.ofScan_laidOut (Session.fresh text start).stop (scan text start)
    obtain ⟨before, site, after, hsites, -, hspan⟩ := ht.refused refused
    rw [hspan]
    exact .site (ht.stands site (by rw [hsites]; exact List.mem_append_right _ List.mem_cons_self))
  · obtain ⟨w, r, stuck⟩ := Phrase.stuck_of_ofText hbroken
    exact .stuck stuck

/-- What breaks off is not built to the end. -/
theorem read_of_buildOutcome {o : Outcome Phrase} {node : ν} {s s' : σ} (h : b.buildOutcome o s = (.ok node, s')) :
    ∃ phrase q, o = .read phrase q := by
  cases o with
  | read phrase q => exact ⟨phrase, q, rfl⟩
  | broken done f =>
    simp only [buildOutcome] at h
    cases hdone : b.buildAll done s with
    | mk answer s'' =>
      cases answer with
      | ok nodes => rw [Work.andThen_ok hdone] at h; cases h
      | error g => rw [Work.andThen_error hdone] at h; cases h

/-- A parse that fails has met with a fault, or the result is discarded. -/
theorem parse_error {err : ParseError} (h : (b.parse text start s).1 = .error err) :
    (¬ b.Discards text start s ∧ (scan text start).Marks err.span) ∨
      b.Discards text start s ∧ err.span = ⟨start, text.utf8ByteSize⟩ ∧ start < text.utf8ByteSize := by
  have work := congrFun (InStep.expression (b := b) text start) (b.start s)
  unfold Reading.work at work
  unfold Builder.parse at h
  unfold Discards
  dsimp only at h ⊢
  cases hrun : Parser.expression b (Parser.fuel (Session.fresh text start).rest.length)
    ⟨Session.fresh text start, [], b.start s⟩ with
  | mk result d =>
    rw [hrun] at work h
    cases result with
    | error f =>
      cases h
      refine .inl ⟨?_, marks_of_buildOutcome work.symm⟩
      rintro ⟨node, d', hd, -⟩
      cases hd
    | ok node =>
      dsimp only at work h
      cases hfinish : b.finish (some node) d.state with
      | mk left s' =>
        rw [hfinish] at h
        cases left with
        | some result => cases h
        | none =>
          cases h
          refine .inr ⟨⟨node, d, rfl, by rw [hfinish]⟩, rfl, ?_⟩
          obtain ⟨phrase, q, hread⟩ := read_of_buildOutcome work.symm
          exact Session.start_lt_of_rest (Phrase.rest_of_ofText hread)

/-- **The window of an error is valid, unless a result is discarded that was read from inside a character.**  In every
case it goes forward, ends in the text between two characters and does not start before the place where reading began. -/
theorem error_window_valid_iff (b : Builder σ ν) (text : String) (start : Nat) (s : σ) (err : ParseError)
    (h : (b.parse text start s).1 = .error err) :
    (err.span.Valid text ↔ ¬ (b.Discards text start s ∧ ¬ Raw.IsValid text ⟨start⟩)) ∧
      err.span.start ≤ err.span.stop ∧ err.span.stop ≤ text.utf8ByteSize ∧ Raw.IsValid text ⟨err.span.stop⟩ ∧
      Text.width (Text.cut start text.toList).1 ≤ err.span.start := by
  rcases parse_error h with ⟨hfault, marks⟩ | ⟨hdiscards, hspan, hstart⟩
  · obtain ⟨valid, behind⟩ := marks.bounded
    exact ⟨⟨fun _ => fun h => hfault h.1, fun _ => valid⟩, valid.start_le, valid.stop_le, valid.stop_valid, behind⟩
  · have atEnd : Raw.IsValid text ⟨text.utf8ByteSize⟩ := Raw.isValid_rawEndPos
    rw [hspan]
    refine ⟨⟨fun valid h => h.2 valid.start_valid, fun h => ?_⟩, Nat.le_of_lt hstart, Nat.le_refl _, atEnd,
      Text.width_cut_le start text.toList⟩
    exact ⟨Nat.le_of_lt hstart, Nat.le_refl _, Classical.byContradiction fun hn => h ⟨hdiscards, hn⟩, atEnd⟩

theorem error_window_valid_iff_inside :
    ((numbering.refusing 0 "no").parse "é + 1" 1 (0, 0)).1 = .error ⟨⟨.rejected "no", ⟨0, 2⟩⟩, "é + 1"⟩ ∧
    ((Span.mk 0 2).Valid "é + 1" ↔
      ¬ ((numbering.refusing 0 "no").Discards "é + 1" 1 (0, 0) ∧ ¬ Raw.IsValid "é + 1" ⟨1⟩)) ∧
    0 ≤ 2 ∧ 2 ≤ "é + 1".utf8ByteSize ∧ Raw.IsValid "é + 1" ⟨2⟩ ∧ Text.width (Text.cut 1 "é + 1".toList).1 ≤ 0 := by
  have refused : ((numbering.refusing 0 "no").parse "é + 1" 1 (0, 0)).1 =
      .error ⟨⟨.rejected "no", ⟨0, 2⟩⟩, "é + 1"⟩ := by decide +kernel
  exact ⟨refused, error_window_valid_iff _ _ _ _ _ refused⟩

/-- The builder, which gives up every result. -/
def discarding (b : Builder σ ν) : Builder σ ν := { b with finish := fun result s => (none, (b.finish result s).2) }

/-- A name that is read from inside its first character and then discarded: the window starts inside the character. -/
theorem discarded_window :
    (numbering.discarding.parse "é" 1 0).1 =
      .error ⟨⟨.rejected "the builder discarded the result", ⟨1, 2⟩⟩, "é"⟩ ∧
    ¬ Raw.IsValid "é" ⟨1⟩ ∧
    ¬ ∀ (b : Builder Nat Nat) (text : String) (start s : Nat) (err : ParseError),
      (b.parse text start s).1 = .error err → err.span.Valid text := by
  have discarded : (numbering.discarding.parse "é" 1 0).1 =
      .error ⟨⟨.rejected "the builder discarded the result", ⟨1, 2⟩⟩, "é"⟩ := by decide +kernel
  have inside : ¬ Raw.IsValid "é" ⟨1⟩ := by decide +kernel
  exact ⟨discarded, inside, fun all => inside (all _ _ _ _ _ discarded).start_valid⟩

end Builder

end Path

end StylesheetReversal
