/-!
# Digits

The digits of the bases up to sixteen; the letters among them count in both cases.
-/
namespace StylesheetReversal.Text

/-- The value of a character as a digit of base sixteen; sixteen for any other character. -/
def digitValue (c : Char) : Nat :=
  let n := c.toNat
  if 0x30 ≤ n ∧ n ≤ 0x39 then n - 0x30
  else if 0x41 ≤ n ∧ n ≤ 0x46 then n - 0x41 + 10
  else if 0x61 ≤ n ∧ n ≤ 0x66 then n - 0x61 + 10
  else 16

/-- The value of a digit of the base. -/
def digit? (base : Nat) (c : Char) : Option Nat :=
  if digitValue c < base then some (digitValue c) else none

/-- The number that some digits spell. -/
def number? (base : Nat) (cs : List Char) : Option Nat :=
  cs.foldlM (fun n c => (digit? base c).map (n * base + ·)) 0

end StylesheetReversal.Text
