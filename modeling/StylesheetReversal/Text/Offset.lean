/-!
# Byte offsets into a text

Windows and positions are counted in bytes of the UTF-8 encoding, while every rule that
reads a text works on its characters.  The two meet here: `width` is the number of bytes
a run of characters takes, and `cut` splits a text at a byte offset without ever landing
inside a character.

A text loses nothing when it is cut (`cut_append`), and the first part never reaches past
the offset asked for (`width_cut_le`).
-/
namespace StylesheetReversal.Text

/-- The bytes a run of characters takes. -/
def width : List Char → Nat
  | [] => 0
  | c :: cs => c.utf8Size + width cs

/-- The characters that fit whole into the first `n` bytes, and those that follow. -/
def cut (n : Nat) : List Char → List Char × List Char
  | [] => ([], [])
  | c :: cs =>
    if c.utf8Size ≤ n then
      let (front, back) := cut (n - c.utf8Size) cs
      (c :: front, back)
    else ([], c :: cs)

@[simp] theorem width_nil : width [] = 0 := rfl

@[simp] theorem width_cons (c : Char) (cs : List Char) :
    width (c :: cs) = c.utf8Size + width cs := rfl

@[simp] theorem width_append (xs ys : List Char) : width (xs ++ ys) = width xs + width ys := by
  induction xs with
  | nil => simp
  | cons c cs ih => simp [ih, Nat.add_assoc]

theorem cut_append (n : Nat) (cs : List Char) : (cut n cs).1 ++ (cut n cs).2 = cs := by
  induction cs generalizing n with
  | nil => rfl
  | cons c cs ih =>
    by_cases h : c.utf8Size ≤ n
    · simp [cut, h, ih]
    · simp [cut, h]

theorem width_cut_le (n : Nat) (cs : List Char) : width (cut n cs).1 ≤ n := by
  induction cs generalizing n with
  | nil => simp [cut]
  | cons c cs ih =>
    by_cases h : c.utf8Size ≤ n
    · have := ih (n - c.utf8Size)
      simp [cut, h]
      omega
    · simp [cut, h]

end StylesheetReversal.Text
