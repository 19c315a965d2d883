import StylesheetReversal.Path.Fault
import StylesheetReversal.Proofs.Text.Offset
/-!
# Marked expressions

An expression that is no blank can be marked wherever an error stands, even if the window of the error is no part of the
text (`ParseError.marked_parts`).  The window is moved into the text (`ParseError.Parts`), and what is shown of the three
parts is bounded (`Shortened`).  The marks do not hide anything: what the text says in front of them would not have ended
there (`parts_of_mark`), so that texts are the same which are marked alike for the same window.
-/
namespace StylesheetReversal.Path

/-! ## Shortened parts -/

/-- How a part of an expression is shown: as it is, or if it has more than 32 characters, some from its beginning and some
from its end with dots in between. -/
def Shortened (first last : Nat) (part shown : List Char) : Prop :=
  if part.length ≤ 32 then shown = part
  else ∃ front left back, part = front ++ left ++ back ∧ front.length = first ∧ back.length = last ∧
    shown = front ++ "...".toList ++ back

theorem Shortened.length_le {first last : Nat} {part shown : List Char} (h : Shortened first last part shown)
    (hkept : first + last ≤ 32) : shown.length ≤ 35 := by
  unfold Shortened at h
  split at h
  · rw [h]
    omega
  · obtain ⟨front, left, back, -, hfront, hback, rfl⟩ := h
    have dots : "...".toList.length = 3 := rfl
    rw [List.length_append, List.length_append, hfront, hback, dots]
    omega

namespace ParseError

theorem keepEnd_shortened (cs : List Char) : Shortened 0 32 cs (keepEnd cs) := by
  unfold Shortened keepEnd
  split
  · next h => exact if_pos h
  · next h =>
    refine ⟨[], cs.take (cs.length - 32), cs.drop (cs.length - 32), ?_, rfl, ?_, if_neg h⟩
    · rw [List.nil_append, List.take_append_drop]
    · rw [List.length_drop]
      omega

theorem keepStart_shortened (cs : List Char) : Shortened 32 0 cs (keepStart cs) := by
  unfold Shortened keepStart
  split
  · next h => exact if_pos h
  · next h =>
    refine ⟨cs.take 32, cs.drop 32, [], ?_, ?_, rfl, ?_⟩
    · rw [List.append_nil, List.take_append_drop]
    · rw [List.length_take]
      omega
    · rw [List.append_nil]
      exact if_neg h

theorem keepEnds_shortened (cs : List Char) : Shortened 16 16 cs (keepEnds cs) := by
  unfold Shortened keepEnds
  split
  · next h => exact if_pos h
  · next h =>
    refine ⟨cs.take 16, (cs.drop 16).take (cs.length - 32), cs.drop (cs.length - 16), ?_, ?_, ?_, if_neg h⟩
    · have behind : cs.drop (cs.length - 16) = (cs.drop 16).drop (cs.length - 32) := by
        rw [List.drop_drop]
        congr 1
        omega
      rw [behind, List.append_assoc, List.take_append_drop, List.take_append_drop]
    · rw [List.length_take]
      omega
    · rw [List.length_drop]
      omega

/-! ## The parts of an expression -/

/-- The window of an error within the text: the part between the last character boundaries that are not behind its ends,
where the end of the text counts for an end behind it, and its start for an end in front of that. -/
structure Parts (e : ParseError) (before inside after : List Char) : Prop where
  whole : e.expression.toList = before ++ inside ++ after
  start : IsGreatest {k | String.Pos.Raw.IsValid e.expression ⟨k⟩ ∧ k ≤ min e.span.start e.expression.utf8ByteSize}
    (Text.width before)
  stop : IsGreatest {k | String.Pos.Raw.IsValid e.expression ⟨k⟩ ∧
      k ≤ min (max e.span.stop (Text.width before)) e.expression.utf8ByteSize} (Text.width (before ++ inside))

/-- No part of the expression is shortened. -/
def Short (e : ParseError) : Prop :=
  ∀ before inside after, e.Parts before inside after → before.length ≤ 32 ∧ inside.length ≤ 32 ∧ after.length ≤ 32

/-- **The segments of an expression** are its parts. -/
theorem parts_segments (e : ParseError) : e.Parts e.segments.1 e.segments.2.1 e.segments.2.2 := by
  have first := Text.cut_append e.span.start e.expression.toList
  have bound := Text.width_cut_le e.span.start e.expression.toList
  have start := Text.isGreatest_width_cut e.expression e.span.start
  have stop := fun n => Text.isGreatest_width_cut e.expression n
  unfold segments
  dsimp only
  generalize Text.cut e.span.start e.expression.toList = parted at first bound start ⊢
  obtain ⟨before, rest⟩ := parted
  dsimp only at first bound start ⊢
  have second := Text.cut_append (e.span.stop - Text.width before) rest
  refine ⟨?_, start, ?_⟩
  · rw [List.append_assoc, second, first]
  · have both := Text.cut_append_of_le rest before (Nat.le_max_right e.span.stop (Text.width before))
    have further : max e.span.stop (Text.width before) - Text.width before = e.span.stop - Text.width before := by omega
    rw [further, first] at both
    have greatest := stop (max e.span.stop (Text.width before))
    rwa [both] at greatest

/-! ## Reading off a marked expression -/

/-- Four characters of one byte each. -/
structure IsMark (m : List Char) : Prop where
  length : m.length = 4
  utf8Size : ∀ c ∈ m, c.utf8Size = 1

theorem isMark_front : IsMark " -->".toList := ⟨rfl, by simp [Char.utf8Size]⟩

theorem isMark_back : IsMark "<-- ".toList := ⟨rfl, by simp [Char.utf8Size]⟩

/-- Behind a mark there is no room for another one between the first offset and the next character. -/
theorem eq_nil_of_mark {n : Nat} {p d m m' q q' : List Char} (hm : IsMark m) (hm' : IsMark m')
    (hfits : Text.width (p ++ d) ≤ n) (hnext : ∀ c ∈ q.head?, n < Text.width p + c.utf8Size)
    (h : m ++ q = d ++ (m' ++ q')) : d = [] := by
  refine Classical.byContradiction fun hd => ?_
  have wide := Text.width_pos hd
  have long := Text.length_le_width d
  rw [Text.width_append] at hfits
  cases q with
  | nil =>
    have lengths := congrArg List.length h
    simp only [List.length_append, hm.length, hm'.length, List.length_nil] at lengths
    exact hd (List.length_eq_zero_iff.1 (by omega))
  | cons c q =>
    have next := hnext c rfl
    have size := c.utf8Size_le_four
    have short : d.length < 4 := by omega
    -- the character behind the one mark is part of the other, but needs more than one byte
    have behind : (m ++ c :: q)[m.length]? = some c := by simp
    rw [h, hm.length, List.getElem?_append_right (Nat.le_of_lt short)] at behind
    have inside : 4 - d.length < m'.length := by
      rw [hm'.length]
      have := List.length_pos_iff.2 hd
      omega
    rw [List.getElem?_append_left inside] at behind
    have one := hm'.utf8Size c (List.mem_of_getElem? behind)
    omega

/-- **What stands in front of a mark** is known, if it is as much as fits in front of the offset. -/
theorem parts_of_mark {n : Nat} {p p' m m' q q' : List Char} (hm : IsMark m) (hm' : IsMark m')
    (hp : Text.width p ≤ n) (hp' : Text.width p' ≤ n) (hnext : ∀ c ∈ q.head?, n < Text.width p + c.utf8Size)
    (hnext' : ∀ c ∈ q'.head?, n < Text.width p' + c.utf8Size) (h : p ++ (m ++ q) = p' ++ (m' ++ q')) :
    p = p' ∧ m = m' ∧ q = q' := by
  have front : p = p' := by
    rcases List.append_eq_append_iff.1 h with ⟨d, rfl, hd⟩ | ⟨d, rfl, hd⟩
    · rw [eq_nil_of_mark hm hm' hp' hnext hd, List.append_nil]
    · rw [eq_nil_of_mark hm' hm hp hnext' hd, List.append_nil]
  subst front
  have marks := List.append_inj (List.append_cancel_left h) (hm.length.trans hm'.length.symm)
  exact ⟨rfl, marks⟩

/-- As much stands in front of the window and in it as its offsets allow. -/
structure Filled (u : Span) (before inside after : List Char) : Prop where
  before_le : Text.width before ≤ u.start
  lt_before : ∀ c ∈ (inside ++ after).head?, u.start < Text.width before + c.utf8Size
  inside_le : Text.width inside ≤ u.stop - Text.width before
  lt_inside : ∀ c ∈ after.head?, u.stop - Text.width before < Text.width inside + c.utf8Size

theorem filled_segments (e : ParseError) : Filled e.span e.segments.1 e.segments.2.1 e.segments.2.2 := by
  unfold segments
  dsimp only
  have bound := Text.width_cut_le e.span.start e.expression.toList
  have next := @Text.lt_width_of_head?_cut e.span.start e.expression.toList
  generalize Text.cut e.span.start e.expression.toList = parted at bound next ⊢
  obtain ⟨before, rest⟩ := parted
  refine ⟨bound, ?_, Text.width_cut_le _ rest, Text.lt_width_of_head?_cut⟩
  rw [Text.cut_append]
  exact next

/-- An expression with its window marked, nothing left out. -/
def whole (before inside after : List Char) : List Char :=
  before ++ (if inside = [] then [] else " -->".toList ++ inside) ++ "<-- ".toList ++ after

variable {u : Span} {before inside after before' inside' after' : List Char}

/-- The first mark is another if the window shows something. -/
theorem whole_eq (before inside after : List Char) : ∃ m q, IsMark m ∧ whole before inside after = before ++ (m ++ q) ∧
    q.head? = (inside ++ after).head? ∧ (inside = [] ∧ m = "<-- ".toList ∧ q = after ∨
      inside ≠ [] ∧ m = " -->".toList ∧ q = inside ++ ("<-- ".toList ++ after)) := by
  cases inside with
  | nil => exact ⟨_, after, isMark_back, by simp [whole], rfl, .inl ⟨rfl, rfl, rfl⟩⟩
  | cons c cs =>
    exact ⟨" -->".toList, c :: cs ++ ("<-- ".toList ++ after), isMark_front, by simp [whole], rfl,
      .inr ⟨List.cons_ne_nil c cs, rfl, rfl⟩⟩

/-- **Expressions that are marked alike** for the same window are the same. -/
theorem Filled.eq_of_whole (h : Filled u before inside after) (h' : Filled u before' inside' after')
    (hwhole : whole before inside after = whole before' inside' after') :
    before ++ inside ++ after = before' ++ inside' ++ after' := by
  obtain ⟨m, q, hm, heq, hq, form⟩ := whole_eq before inside after
  obtain ⟨m', q', hm', heq', hq', form'⟩ := whole_eq before' inside' after'
  rw [heq, heq'] at hwhole
  obtain ⟨rfl, rfl, rfl⟩ := parts_of_mark hm hm' h.before_le h'.before_le (hq ▸ h.lt_before) (hq' ▸ h'.lt_before) hwhole
  have different : " -->".toList ≠ "<-- ".toList := by simp
  rcases form with ⟨rfl, rfl, rfl⟩ | ⟨-, rfl, rfl⟩ <;> rcases form' with ⟨rfl, hmark, rfl⟩ | ⟨-, hmark, hrest⟩
  · rfl
  · exact absurd hmark.symm different
  · exact absurd hmark different
  · obtain ⟨rfl, -, rfl⟩ := parts_of_mark isMark_back isMark_back h.inside_le h'.inside_le h.lt_inside h'.lt_inside hrest
    rfl

/-! ## Marked expressions -/

/-- What is shown of an expression that is marked: its parts, each shortened if it is long, with marks in front of the window
if that shows something, and behind it. -/
structure MarkedAs (e : ParseError) (before inside after : List Char) (shown : String) : Prop where
  parts : e.Parts before inside after
  marked : e.marked = some shown
  chars : ∃ left middle right, Shortened 0 32 before left ∧ Shortened 16 16 inside middle ∧ Shortened 32 0 after right ∧
    shown.toList = left ++ (if inside = [] then [] else " -->".toList ++ middle) ++ "<-- ".toList ++ right
  length : shown.length ≤ 113
  /-- Of all expressions that are shown whole, no other is shown like this for the same window. -/
  readable : before.length ≤ 32 → inside.length ≤ 32 → after.length ≤ 32 →
    ∀ e' : ParseError, e'.span = e.span → e'.Short → e'.marked = some shown → e'.expression = e.expression

theorem marked_eq {e : ParseError} (h : ∃ c ∈ e.expression.toList, c ≠ ' ') : e.marked = some (String.ofList
    (keepEnd e.segments.1 ++ (if e.segments.2.1 = [] then [] else " -->".toList ++ keepEnds e.segments.2.1) ++
      "<-- ".toList ++ keepStart e.segments.2.2)) := by
  have visible : ¬ e.expression.toList.all (· == ' ') = true := by
    obtain ⟨c, hc, hne⟩ := h
    intro blank
    exact hne (beq_iff_eq.1 (List.all_eq_true.1 blank c hc))
  rw [marked, if_neg visible]
  simp only [List.isEmpty_iff]

theorem marked_of_short {e : ParseError} {shown : String} (hbefore : e.segments.1.length ≤ 32)
    (hinside : e.segments.2.1.length ≤ 32) (hafter : e.segments.2.2.length ≤ 32) (h : e.marked = some shown) :
    shown.toList = whole e.segments.1 e.segments.2.1 e.segments.2.2 := by
  have visible : ∃ c ∈ e.expression.toList, c ≠ ' ' := by
    refine Classical.byContradiction fun hblank => ?_
    have blank : e.expression.toList.all (· == ' ') = true :=
      List.all_eq_true.2 fun c hc => beq_iff_eq.2 (Classical.byContradiction fun hne => hblank ⟨c, hc, hne⟩)
    rw [marked, if_pos blank] at h
    cases h
  rw [marked_eq visible] at h
  rw [← Option.some.inj h, String.toList_ofList, keepEnd, keepEnds, keepStart, segmentLimit, if_pos hbefore,
    if_pos hinside, if_pos hafter]
  rfl

/-- **An expression that is no blank is marked**, whatever the window of the error. -/
theorem marked_parts (e : ParseError) (h : ∃ c ∈ e.expression.toList, c ≠ ' ') :
    ∃ before inside after shown, e.MarkedAs before inside after shown := by
  have left := keepEnd_shortened e.segments.1
  have middle := keepEnds_shortened e.segments.2.1
  have right := keepStart_shortened e.segments.2.2
  refine ⟨_, _, _, _, parts_segments e, marked_eq h, ⟨_, _, _, left, middle, right, String.toList_ofList⟩, ?_, ?_⟩
  · have hleft := left.length_le (Nat.le_refl _)
    have hmiddle := middle.length_le (Nat.le_refl _)
    have hright := right.length_le (Nat.le_refl _)
    have marks : " -->".toList.length = 4 ∧ "<-- ".toList.length = 4 := ⟨rfl, rfl⟩
    rw [String.length_ofList]
    simp only [List.length_append]
    split
    · rw [List.length_nil]
      omega
    · rw [List.length_append]
      omega
  · intro hbefore hinside hafter e' hspan short hmarked
    obtain ⟨hbefore', hinside', hafter'⟩ := short _ _ _ (parts_segments e')
    have shown := marked_of_short hbefore hinside hafter (marked_eq h)
    have shown' := marked_of_short hbefore' hinside' hafter' hmarked
    have filled := filled_segments e
    rw [← hspan] at filled
    have same := (filled_segments e').eq_of_whole filled (shown'.symm.trans shown)
    rw [← (parts_segments e).whole, ← (parts_segments e').whole] at same
    exact String.toList_inj.1 same

theorem marked_parts_reversed : (∃ c ∈ "日本 = é".toList, c ≠ ' ') ∧ ∃ before inside after,
    MarkedAs ⟨⟨.unclosedString, ⟨4, 2⟩⟩, "日本 = é"⟩ before inside after "日<-- 本 = é" := by
  have visible : ∃ c ∈ "日本 = é".toList, c ≠ ' ' := ⟨'=', by decide, by decide⟩
  obtain ⟨before, inside, after, shown, h⟩ := marked_parts ⟨⟨.unclosedString, ⟨4, 2⟩⟩, "日本 = é"⟩ visible
  have here : shown = "日<-- 本 = é" := by
    have found := h.marked
    have computed : marked ⟨⟨.unclosedString, ⟨4, 2⟩⟩, "日本 = é"⟩ = some "日<-- 本 = é" := by decide
    exact Option.some.inj (found.symm.trans computed)
  rw [here] at h
  exact ⟨visible, before, inside, after, h⟩

end ParseError

end StylesheetReversal.Path
