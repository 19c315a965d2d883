import Mathlib.Data.List.Forall2
import StylesheetReversal.Json.Value
import StylesheetReversal.Proofs.Json.Strings
/-!
# Ways to write an object

An object of plain values can be written with white space around everything, with its members in order and commas between
them (`Writes`).  However it is written, the members are read back with their names and values (`Writes.read`).
-/
namespace StylesheetReversal.Json

/-- A value that has no parts. -/
inductive Scalar
  | null
  | bool (b : Bool)
  | natural (n : Nat)
  | string (s : String)
  deriving DecidableEq, Repr

/-- A run of white space. -/
def Gap (w : List Char) : Prop := ∀ c ∈ w, Text.isSpace c = true

/-- The string, with a quote on either side. -/
inductive Quotes : String → List Char → Prop
  | mk {s : String} {w : List Char} : Spells s.toList w → Quotes s ('"' :: (w ++ ['"']))

/-- The value and a way to write it; for all but strings there is only one. -/
inductive Scalar.Writes : Scalar → List Char → Prop
  | null : Writes .null ['n', 'u', 'l', 'l']
  | true : Writes (.bool true) ['t', 'r', 'u', 'e']
  | false : Writes (.bool false) ['f', 'a', 'l', 's', 'e']
  | natural (n : Nat) : Writes (.natural n) (Nat.toDigits 10 n)
  | string {s : String} {w : List Char} : Quotes s w → Writes (.string s) w

/-- A member of an object, with white space around its name and its value. -/
inductive WritesMember : String × Scalar → List Char → Prop
  | mk {key : String} {value : Scalar} {before between behind after name text : List Char} : Gap before → Quotes key name →
    Gap between → Gap behind → value.Writes text → Gap after →
    WritesMember (key, value) (before ++ (name ++ (between ++ ':' :: (behind ++ (text ++ after)))))

/-- One or more members, up to the closing brace. -/
inductive WritesMembers : List (String × Scalar) → List Char → Prop
  | last {m : String × Scalar} {w : List Char} : WritesMember m w → WritesMembers [m] (w ++ ['}'])
  | more {m : String × Scalar} {ms : List (String × Scalar)} {w text : List Char} : WritesMember m w → WritesMembers ms text →
    WritesMembers (m :: ms) (w ++ ',' :: text)

/-- The object of these members and a text that it is written as. -/
inductive Writes : List (String × Scalar) → List Char → Prop
  | empty {before inside after : List Char} : Gap before → Gap inside → Gap after →
    Writes [] (before ++ '{' :: (inside ++ '}' :: after))
  | members {ms : List (String × Scalar)} {before text after : List Char} : Gap before → WritesMembers ms text → Gap after →
    Writes ms (before ++ '{' :: (text ++ after))

/-- The value that was read is the one that is meant. -/
inductive Scalar.Denotes : Scalar → Value → Prop
  | null : Denotes .null .null
  | bool (b : Bool) : Denotes (.bool b) (.bool b)
  | natural (n : Nat) : Denotes (.natural n) (.number (Nat.toDigits 10 n))
  | string {s : String} {marks : List Mark} : decode? marks = some s.toList → Denotes (.string s) (.string marks)

/-- The member that was read has the name and the value that are meant. -/
def DenotesMember (m : String × Scalar) (read : List Mark × Value) : Prop :=
  decode? read.1 = some m.1.toList ∧ m.2.Denotes read.2

/-! ## What is meant -/

theorem Scalar.Denotes.string? {s : String} {value : Value} (h : (Scalar.string s).Denotes value) :
    value.string? = some s := by
  cases h with
  | string hdecode => simp [Value.string?, hdecode]

theorem Scalar.Denotes.bool? {b : Bool} {value : Value} (h : (Scalar.bool b).Denotes value) : value.bool? = some b := by
  cases h
  rfl

theorem Scalar.Denotes.word? {n : UInt64} {value : Value} (h : (Scalar.natural n.toNat).Denotes value) :
    value.word? = some n := by
  cases h
  have digits : (Nat.toDigits 10 n.toNat).all Char.isDigit = true :=
    List.all_eq_true.2 fun c hc => Nat.isDigit_of_mem_toDigits (by decide) (by decide) hc
  have number : (Nat.toDigits 10 n.toNat).foldl (fun n c => n * 10 + (c.toNat - 0x30)) 0 = n.toNat := by
    have read := Nat.ofDigitChars_ten_toDigits (n := n.toNat)
    simp only [Nat.ofDigitChars_eq_foldl, Nat.mul_comm 10] at read
    exact read
  simp only [Value.word?, digits, if_true, number]
  rw [if_pos n.toNat_lt, UInt64.ofNat_toNat]

/-! ## What is written -/

theorem quotes_encode (s : String) : Quotes s (encode s).toList := by
  have text : (encode s).toList = '"' :: (s.toList.flatMap encodeChar ++ ['"']) := by simp [encode]
  rw [text]
  exact .mk (spells_encode s.toList)

theorem WritesMembers.length_le {ms : List (String × Scalar)} {text : List Char} (h : WritesMembers ms text) :
    ms.length ≤ text.length := by
  induction h with
  | last _ => simp
  | more _ _ ih => simp only [List.length_cons, List.length_append]; omega

namespace Value

/-! ## White space -/

theorem skipSpace_gap {gap : List Char} (h : Gap gap) (rest : List Char) : skipSpace (gap ++ rest) = skipSpace rest := by
  unfold skipSpace
  exact List.dropWhile_append_of_pos h

theorem skipSpace_cons {c : Char} (h : Text.isSpace c = false) (rest : List Char) : skipSpace (c :: rest) = c :: rest := by
  unfold skipSpace
  exact List.dropWhile_cons_of_neg (by rw [h]; exact nofun)

theorem skipSpace_gap_cons {gap : List Char} {c : Char} (h : Gap gap) (hc : Text.isSpace c = false) (rest : List Char) :
    skipSpace (gap ++ c :: rest) = c :: rest := by
  rw [skipSpace_gap h, skipSpace_cons hc]

/-! ## Numbers -/

/-- What follows a value: white space, a comma or a brace. -/
def Ends (rest : List Char) : Prop := ∀ c ∈ rest.head?, Text.isSpace c = true ∨ c = ',' ∨ c = '}'

theorem Ends.gap {gap rest : List Char} (hgap : Gap gap) (h : Ends rest) : Ends (gap ++ rest) := by
  cases gap with
  | nil => exact h
  | cons c gap =>
    rintro _ ⟨⟩
    exact .inl (hgap c List.mem_cons_self)

theorem Ends.head_ne {rest : List Char} (h : Ends rest) {c : Char} (hc : Text.isSpace c = false ∧ c ≠ ',' ∧ c ≠ '}') :
    ∀ cs, rest ≠ c :: cs := by
  rintro cs rfl
  rcases h c rfl with hs | hs | hs
  · rw [hc.1] at hs; cases hs
  · exact hc.2.1 hs
  · exact hc.2.2 hs

theorem Ends.fraction? {rest : List Char} (h : Ends rest) : fraction? rest = some ([], rest) := by
  rw [Value.fraction?.eq_def]
  split
  · exact absurd rfl (h.head_ne (by decide) _)
  · rfl

theorem Ends.exponent? {rest : List Char} (h : Ends rest) : exponent? rest = some ([], rest) := by
  cases rest with
  | nil => rfl
  | cons c cs =>
    have plain : ¬ (c = 'e' ∨ c = 'E') := by
      rintro (rfl | rfl) <;> exact absurd rfl (h.head_ne (by decide) _)
    rw [Value.exponent?.eq_def]
    exact if_neg plain

theorem Ends.not_isDigit {rest : List Char} (h : Ends rest) : ∀ c ∈ rest.head?, c.isDigit = false := by
  intro c hc
  rcases h c hc with hs | rfl | rfl
  · rw [← Bool.not_eq_true]
    intro hd
    rw [Text.isSpace_eq_false (p := Char.isDigit) (by decide) hd] at hs
    cases hs
  · decide
  · decide

theorem takeWhile_digits {ds rest : List Char} (hds : ∀ c ∈ ds, c.isDigit = true) (h : Ends rest) :
    (ds ++ rest).takeWhile Char.isDigit = ds ∧ (ds ++ rest).dropWhile Char.isDigit = rest := by
  rw [List.takeWhile_append_of_pos hds, List.dropWhile_append_of_pos hds]
  cases rest with
  | nil => exact ⟨List.append_nil ds, rfl⟩
  | cons c cs =>
    have hc := h.not_isDigit c rfl
    simp [hc]

/-- A number without a needless zero: `0` itself, or digits of which the first is another one. -/
theorem toDigits_head (n : Nat) :
    Nat.toDigits 10 n = ['0'] ∨ ∃ d ds, Nat.toDigits 10 n = d :: ds ∧ d ≠ '0' := by
  induction n using Nat.strongRecOn with
  | _ n ih =>
    by_cases hn : n < 10
    · rw [Nat.toDigits_of_lt_base hn]
      by_cases h0 : n = 0
      · subst h0
        exact .inl rfl
      · exact .inr ⟨_, [], rfl, fun h => h0 (Nat.digitChar_eq_zero.1 h)⟩
    · have hle : 10 ≤ n := Nat.le_of_not_lt hn
      rw [Nat.toDigits_of_base_le (by decide) hle]
      rcases ih (n / 10) (Nat.div_lt_self (by omega) (by decide)) with h | ⟨d, ds, h, hd⟩
      · -- the digits in front of the last one are those of a number that is not zero
        have zero : n / 10 = 0 := by
          have value := Nat.ofDigitChars_ten_toDigits (n := n / 10)
          rw [h] at value
          exact value.symm
        omega
      · exact .inr ⟨d, ds ++ [(n % 10).digitChar], by rw [h]; rfl, hd⟩

theorem unsigned?_toDigits (n : Nat) {rest : List Char} (h : Ends rest) :
    unsigned? (Nat.toDigits 10 n ++ rest) = some (Nat.toDigits 10 n, rest) := by
  have digits : ∀ c ∈ Nat.toDigits 10 n, c.isDigit = true :=
    fun c hc => Nat.isDigit_of_mem_toDigits (by decide) (by decide) hc
  have whole : whole? (Nat.toDigits 10 n ++ rest) = some (Nat.toDigits 10 n, rest) := by
    rcases toDigits_head n with h0 | ⟨d, ds, hd, hne⟩
    · rw [h0]
      rfl
    · obtain ⟨htake, hdrop⟩ := takeWhile_digits digits h
      rw [hd] at htake hdrop digits ⊢
      rw [whole?.eq_def]
      split
      · next heq => cases heq; exact absurd rfl hne
      · have first : (d :: ds ++ rest).head?.any Char.isDigit = true := digits d List.mem_cons_self
        rw [digits?, if_pos first, htake, hdrop]
  simp only [unsigned?, whole, Option.bind_some, h.fraction?, h.exponent?, Option.map_some, List.append_nil]

theorem number?_toDigits (n : Nat) {rest : List Char} (h : Ends rest) :
    number? (Nat.toDigits 10 n ++ rest) = some (.number (Nat.toDigits 10 n), rest) := by
  rw [number?.eq_def]
  split
  · next heq =>
    have digits : ∀ c ∈ Nat.toDigits 10 n, c.isDigit = true :=
      fun c hc => Nat.isDigit_of_mem_toDigits (by decide) (by decide) hc
    obtain ⟨d, ds, hd⟩ := List.exists_cons_of_ne_nil (Nat.toDigits_ne_nil (b := 10) (n := n))
    rw [hd] at heq digits
    cases heq
    exact absurd (digits '-' List.mem_cons_self) (by decide)
  · rw [unsigned?_toDigits n h]
    rfl

/-! ## Values -/

/-- A value is read to its end. -/
theorem next?_writes {v : Scalar} {gap text rest : List Char} (hgap : Gap gap) (h : v.Writes text) (hrest : Ends rest)
    (fuel : Nat) : ∃ value, next? (fuel + 1) (gap ++ (text ++ rest)) = some (value, rest) ∧ v.Denotes value := by
  have plain : ∀ {c : Char} {cs : List Char}, Text.isSpace c = false → text ++ rest = c :: cs →
      skipSpace (gap ++ (text ++ rest)) = c :: cs := fun hc htext => by rw [htext, skipSpace_gap_cons hgap hc]
  rw [next?]
  cases h with
  | null =>
    rw [plain (by decide) rfl]
    exact ⟨.null, rfl, .null⟩
  | true =>
    rw [plain (by decide) rfl]
    exact ⟨.bool true, rfl, .bool true⟩
  | false =>
    rw [plain (by decide) rfl]
    exact ⟨.bool false, rfl, .bool false⟩
  | string hquotes =>
    obtain ⟨hspells⟩ := hquotes
    obtain ⟨marks, hmarks, hdecode⟩ := hspells.read rest
    rw [List.cons_append, List.append_assoc, List.singleton_append] at plain ⊢
    rw [plain (by decide) rfl]
    exact ⟨.string marks, by simp only [hmarks, Option.map_some], .string hdecode⟩
  | natural n =>
    obtain ⟨d, ds, hd⟩ := List.exists_cons_of_ne_nil (Nat.toDigits_ne_nil (b := 10) (n := n))
    have digit : d.isDigit = true := Nat.isDigit_of_mem_toDigits (b := 10) (by decide) (by decide) (by rw [hd]; simp)
    have space : Text.isSpace d = false := Text.isSpace_eq_false (p := Char.isDigit) (by decide) digit
    have read := number?_toDigits n hrest
    rw [plain space (by rw [hd]; rfl)]
    rw [hd, List.cons_append] at read
    refine ⟨.number (Nat.toDigits 10 n), ?_, .natural n⟩
    rw [hd]
    -- a digit starts no value but a number
    split
    all_goals first
      | exact read
      | (next heq => rw [(List.cons.inj heq).1] at digit; exact absurd digit (by decide))

/-! ## Members -/

theorem members?_of_skipSpace {text cs : List Char} (h : skipSpace text = '"' :: cs) (fuel : Nat) :
    members? fuel ('"' :: cs) = members? fuel text := by
  cases fuel with
  | zero => rfl
  | succ fuel => rw [members?, members?, h, skipSpace_cons (by decide)]

/-- A member is read up to the comma or the brace behind it. -/
theorem members?_member {m : String × Scalar} {w : List Char} (h : WritesMember m w) (fuel : Nat) {c : Char}
    (hc : c = ',' ∨ c = '}') (rest : List Char) :
    ∃ read, DenotesMember m read ∧
      members? (fuel + 2) (w ++ c :: rest) =
        if c = ',' then (members? (fuel + 1) rest).map fun (members, rest) => (read :: members, rest)
        else some ([read], rest) := by
  obtain @⟨name, value, before, between, behind, after, _, text, hbefore, ⟨hspells⟩, hbetween, hbehind, hvalue, hafter⟩ := h
  obtain ⟨key, hkey, hdecode⟩ := hspells.read (between ++ ':' :: (behind ++ (text ++ (after ++ c :: rest))))
  have space : Text.isSpace c = false := by rcases hc with rfl | rfl <;> decide
  have ends : Ends (c :: rest) := by
    rintro _ ⟨⟩
    exact .inr hc
  obtain ⟨value, hread, hdenotes⟩ := next?_writes hbehind hvalue (ends.gap hafter) fuel
  refine ⟨(key, value), ⟨hdecode, hdenotes⟩, ?_⟩
  simp only [List.append_assoc, List.cons_append, List.nil_append]
  rw [members?, skipSpace_gap_cons hbefore (by decide)]
  simp only [hkey, Option.bind_some]
  rw [skipSpace_gap_cons hbetween (by decide)]
  simp only [hread, Option.bind_some]
  rw [skipSpace_gap_cons hafter space]
  rcases hc with rfl | rfl <;> rfl

theorem members?_writes {ms : List (String × Scalar)} {text : List Char} (h : WritesMembers ms text) (rest : List Char) :
    ∀ {fuel : Nat}, ms.length < fuel →
      ∃ read, members? fuel (text ++ rest) = some (read, rest) ∧ List.Forall₂ DenotesMember ms read := by
  induction h with
  | @last m w hm =>
    intro fuel hfuel
    obtain ⟨fuel, rfl⟩ := Nat.exists_eq_add_of_lt hfuel
    obtain ⟨read, hdenotes, hread⟩ := members?_member hm fuel (.inr rfl) rest
    refine ⟨[read], ?_, .cons hdenotes .nil⟩
    rw [List.append_assoc, List.singleton_append, List.length_singleton, Nat.add_comm 1 fuel, hread]
    rfl
  | @more m ms w text hm _ ih =>
    intro fuel hfuel
    obtain ⟨fuel, rfl⟩ := Nat.exists_eq_add_of_lt hfuel
    obtain ⟨first, hdenotes, hfirst⟩ := members?_member hm (ms.length + fuel) (.inl rfl) (text ++ rest)
    have enough : ms.length < ms.length + fuel + 1 := by omega
    obtain ⟨others, hothers, hdenotes'⟩ := ih enough
    have count : (m :: ms).length + fuel + 1 = ms.length + fuel + 2 := by rw [List.length_cons]; omega
    refine ⟨first :: others, ?_, .cons hdenotes hdenotes'⟩
    rw [List.append_assoc, List.cons_append, count, hfirst, if_pos rfl, hothers]
    rfl

/-- A member begins with the quote in front of its name. -/
theorem skipSpace_writes {ms : List (String × Scalar)} {text : List Char} (h : WritesMembers ms text) (rest : List Char) :
    ∃ cs, skipSpace (text ++ rest) = '"' :: cs := by
  have member : ∀ {m : String × Scalar} {w : List Char}, WritesMember m w → ∀ rest,
      ∃ cs, skipSpace (w ++ rest) = '"' :: cs := by
    rintro _ _ ⟨hbefore, ⟨_⟩, _, _, _, _⟩ rest
    simp only [List.append_assoc, List.cons_append]
    exact ⟨_, skipSpace_gap_cons hbefore (by decide) _⟩
  cases h with
  | last hm => rw [List.append_assoc]; exact member hm _
  | more hm _ => rw [List.append_assoc]; exact member hm _

end Value

/-- **An object is read back** in whatever way it is written. -/
theorem Writes.read {ms : List (String × Scalar)} {text : List Char} (h : Writes ms text) :
    ∃ read, Value.parse? text = some (.object read) ∧ List.Forall₂ DenotesMember ms read := by
  have done : ∀ {after : List Char}, Gap after → (Value.skipSpace after).isEmpty = true := fun hafter => by
    have nothing := Value.skipSpace_gap hafter []
    rw [List.append_nil] at nothing
    rw [nothing]
    rfl
  cases h with
  | @empty before inside after hbefore hinside hafter =>
    refine ⟨[], ?_, .nil⟩
    have read (fuel : Nat) : Value.next? (fuel + 1) (before ++ '{' :: (inside ++ '}' :: after)) =
        some (.object [], after) := by
      rw [Value.next?, Value.skipSpace_gap_cons hbefore (by decide)]
      simp only [Value.skipSpace_gap_cons hinside (show Text.isSpace '}' = false by decide)]
    rw [Value.parse?, read]
    exact if_pos (done hafter)
  | @members ms before inside after hbefore hmembers hafter =>
    obtain ⟨cs, hcs⟩ := Value.skipSpace_writes hmembers after
    have fuel : ms.length < 2 * (before ++ '{' :: (inside ++ after)).length + 1 := by
      have le := hmembers.length_le
      simp only [List.length_append, List.length_cons]
      omega
    obtain ⟨read, hread, hdenotes⟩ := Value.members?_writes hmembers after fuel
    refine ⟨read, ?_, hdenotes⟩
    have value : Value.next? (2 * (before ++ '{' :: (inside ++ after)).length + 2)
        (before ++ '{' :: (inside ++ after)) = some (.object read, after) := by
      rw [← Value.members?_of_skipSpace hcs] at hread
      rw [Value.next?, Value.skipSpace_gap_cons hbefore (by decide)]
      simp only [hcs]
      change Option.map (fun read => (Value.object read.1, read.2)) (Value.members? _ ('"' :: cs)) = _
      rw [hread]
      rfl
    rw [Value.parse?, value]
    exact if_pos (done hafter)

end StylesheetReversal.Json
