import Mathlib.Order.Bounds.Defs
import StylesheetReversal.Text.Offset
/-!
# Cutting a text

A text is cut between two characters, and as far behind as the offset allows (`isGreatest_width_cut`).  One that is cut
twice is cut at the second offset (`cut_append_of_le`).
-/
namespace StylesheetReversal.Text

/-! ## Bytes -/

theorem length_le_width : ∀ cs : List Char, cs.length ≤ width cs
  | [] => Nat.le_refl 0
  | c :: cs => by
    have := c.utf8Size_pos
    have := length_le_width cs
    rw [List.length_cons, width_cons]
    omega

theorem width_pos {cs : List Char} (h : cs ≠ []) : 0 < width cs :=
  Nat.lt_of_lt_of_le (List.length_pos_iff.2 h) (length_le_width cs)

theorem width_ofList (cs : List Char) : width cs = (String.ofList cs).utf8ByteSize := by
  induction cs with
  | nil => rfl
  | cons c cs ih => rw [width_cons, ih]; simp

theorem width_toList (text : String) : width text.toList = text.utf8ByteSize := by
  rw [width_ofList, String.ofList_toList]

/-- What stands in front of a part of a text ends between two characters. -/
theorem isValid_width {text : String} {front back : List Char} (h : text.toList = front ++ back) :
    String.Pos.Raw.IsValid text ⟨width front⟩ := by
  refine String.Pos.Raw.isValid_iff_exists_append.2 ⟨String.ofList front, String.ofList back, ?_, ?_⟩
  · rw [← String.ofList_append, ← h, String.ofList_toList]
  · rw [width_ofList]
    rfl

/-! ## Cuts -/

/-- What fits into the offset is cut off first. -/
theorem cut_append_of_le (back : List Char) : ∀ {n : Nat} (front : List Char), width front ≤ n →
    cut n (front ++ back) = (front ++ (cut (n - width front) back).1, (cut (n - width front) back).2)
  | _, [], _ => rfl
  | n, c :: front, h => by
    rw [width_cons] at h ⊢
    have fits : c.utf8Size ≤ n := by omega
    have others : width front ≤ n - c.utf8Size := by omega
    rw [List.cons_append, cut, if_pos fits, cut_append_of_le back front others, Nat.sub_sub]
    rfl

theorem cut_zero (cs : List Char) : cut 0 cs = ([], cs) := by
  cases cs with
  | nil => rfl
  | cons c cs => exact if_neg (Nat.not_le_of_lt c.utf8Size_pos)

theorem cut_width (back front : List Char) : cut (width front) (front ++ back) = (front, back) := by
  rw [cut_append_of_le back front (Nat.le_refl _), Nat.sub_self, cut_zero, List.append_nil]

/-- The next character would not have fit. -/
theorem lt_width_of_head?_cut : ∀ {n : Nat} {cs : List Char}, ∀ c ∈ (cut n cs).2.head?, n < width (cut n cs).1 + c.utf8Size
  | _, [], c, h => by cases h
  | n, d :: cs, c, h => by
    rw [cut] at h ⊢
    split at h
    · next fits =>
      have := lt_width_of_head?_cut c h
      rw [if_pos fits, width_cons]
      omega
    · next misfit =>
      cases h
      rw [if_neg misfit, width_nil]
      omega

/-- **A text is cut at the last character boundary** that is not behind the offset. -/
theorem isGreatest_width_cut (text : String) (n : Nat) :
    IsGreatest {k | String.Pos.Raw.IsValid text ⟨k⟩ ∧ k ≤ min n text.utf8ByteSize} (width (cut n text.toList).1) := by
  have parts := cut_append n text.toList
  refine ⟨⟨isValid_width parts.symm, Nat.le_min.2 ⟨width_cut_le n text.toList, ?_⟩⟩, ?_⟩
  · rw [← width_toList]
    calc width (cut n text.toList).1
      _ ≤ width ((cut n text.toList).1 ++ (cut n text.toList).2) := by
        rw [width_append]
        exact Nat.le_add_right _ _
      _ = width text.toList := by rw [parts]
  · rintro k ⟨hvalid, hk⟩
    obtain ⟨front, back, rfl, hfront⟩ := String.Pos.Raw.isValid_iff_exists_append.1 hvalid
    have width_front : width front.toList = k := by
      rw [width_toList]
      exact congrArg String.Pos.Raw.byteIdx hfront.symm
    have fits : width front.toList ≤ n := by
      rw [width_front]
      exact Nat.le_trans hk (Nat.min_le_left _ _)
    rw [String.toList_append, ← width_front, cut_append_of_le back.toList front.toList fits, width_append]
    exact Nat.le_add_right _ _

end StylesheetReversal.Text
