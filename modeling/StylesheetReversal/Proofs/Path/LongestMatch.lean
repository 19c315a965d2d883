import Mathlib.Data.List.Chain
import StylesheetReversal.Proofs.Path.Spelling
import StylesheetReversal.Proofs.Path.Windows
/-!
# The longest match

Of all that a lexeme can be (`Form`), the lexeme of a text is the longest that the text starts with; where the text
starts with nothing of the kind, one character is taken that is no lexeme.  What kind of lexeme it is depends on its
characters, for stars and keywords on the lexeme before it (`AfterOperand`), and for axes on the colons that follow
(`Classified`).

So it is at every step of a scan (`Session.advance_wellRead`), and hence for all lexemes of a text
(`tokenize_longest`).
-/
namespace StylesheetReversal.Path

/-! ## What a lexeme can be -/

/-- The kinds that are always spelled the same, and nothing else is.  A star is none of them, since it has two kinds. -/
def marks : List Kind :=
  [.lparen, .rparen, .lbracket, .rbracket, .at, .comma, .dollar, .dot, .dotDot, .colonColon, .slash, .slashSlash,
    .union, .plus, .minus, .eq, .ne, .lt, .le, .gt, .ge]

/-- The operators that are spelled like names. -/
def keywords : List Kind := [.or, .and, .divide, .modulo]

/-- The names of axes. -/
def axisNames : List String :=
  ["ancestor", "ancestor-or-self", "attribute", "child", "descendant", "descendant-or-self", "following",
    "following-sibling", "namespace", "parent", "preceding", "preceding-sibling", "self"]

/-- Digits, which a point and more digits may follow, or a point and digits. -/
inductive Numeral : List Char → Prop
  | whole {digits : List Char} : digits ≠ [] → (∀ c ∈ digits, c.isDigit = true) → Numeral digits
  | pointed {digits more : List Char} : digits ≠ [] → (∀ c ∈ digits, c.isDigit = true) →
      (∀ c ∈ more, c.isDigit = true) → Numeral (digits ++ '.' :: more)
  | fraction {digits : List Char} : digits ≠ [] → (∀ c ∈ digits, c.isDigit = true) → Numeral ('.' :: digits)

/-- Any characters between two quotes that are not among them. -/
inductive Quotation : List Char → Prop
  | mk {quote : Char} {body : List Char} : quote = '"' ∨ quote = '\'' → quote ∉ body →
      Quotation (quote :: (body ++ [quote]))

/-- The texts that are lexemes. -/
inductive Form : List Char → Prop
  | mark {k : Kind} : k ∈ marks → Form k.spelling.toList
  | star : Form ['*']
  | number {w : List Char} : Numeral w → Form w
  | string {w : List Char} : Quotation w → Form w
  | name {w : List Char} : Spells w → Form w

/-- The longest lexeme that a text starts with. -/
structure Longest (w text : List Char) : Prop where
  form : Form w
  isPrefix : w <+: text
  longest : ∀ v, Form v → v <+: text → v.length ≤ w.length

/-- Whether the lexeme before, if there is one, can end an operand: it is no operator and nothing that an operand
has to follow. -/
def AfterOperand (prev : Option Kind) : Prop :=
  ∃ k, prev = some k ∧ k ≠ .unknown ∧ k.isOperator = false ∧
    k ∉ [Kind.slash, .slashSlash, .at, .colonColon, .lparen, .lbracket, .comma, .dollar]

/-- Whether a mark follows, possibly after white space. -/
def FollowedBy (mark rest : List Char) : Prop :=
  ∃ gap more, (∀ c ∈ gap, Text.isSpace c = true) ∧ rest = gap ++ (mark ++ more)

/-- Whether a name stands for an axis: it has no colon, is one of the names of axes, and colons follow. -/
def NamesAxis (word rest : List Char) : Prop :=
  Text.isName word = true ∧ String.ofList word ∈ axisNames ∧ FollowedBy [':', ':'] rest

/-- The kind of a lexeme with the characters `word`, in front of `rest`. -/
inductive Classified (prev : Option Kind) (word rest : List Char) : Kind → Prop
  | mark {k : Kind} : k ∈ marks → word = k.spelling.toList → Classified prev word rest k
  | star {k : Kind} : word = ['*'] → (k = .multiply ↔ AfterOperand prev) → (k = .star ↔ ¬ AfterOperand prev) →
      Classified prev word rest k
  | number : Numeral word → Classified prev word rest .number
  | string : Quotation word → Classified prev word rest .string
  | keyword {k keyword : Kind} : keyword ∈ keywords → word = keyword.spelling.toList →
      (k = keyword ↔ AfterOperand prev) → (k = .name ↔ ¬ AfterOperand prev) → Classified prev word rest k
  | word {k : Kind} : Spells word → (∀ keyword ∈ keywords, word ≠ keyword.spelling.toList) →
      (k = .axis ↔ NamesAxis word rest) → (k = .name ↔ ¬ NamesAxis word rest) → Classified prev word rest k

/-- The lexeme `word`, in front of `rest`, is the longest possible and of the right kind, or a single character where
no lexeme stands. -/
def Taken (prev : Option Kind) (word rest : List Char) (k : Kind) : Prop :=
  Longest word (word ++ rest) ∧ Classified prev word rest k ∨
    (∃ c, word = [c]) ∧ k = .unknown ∧ ∀ v, Form v → ¬ v <+: word ++ rest

/-- What holds of a session that stands at a lexeme which is not faulty. -/
structure Session.WellRead (prev : Option Kind) (s : Session) : Prop where
  taken : Taken prev s.text s.rest s.kind
  callable : s.kind = .name → (∀ qualifier, s.text ≠ qualifier ++ [':', '*']) →
    (s.isCallable = true ↔ FollowedBy ['('] s.rest)

/-- The sessions that stand at the lexemes of a text, one behind the other, with white space between them. -/
inductive Tokenized : Option Kind → List Char → List Session → Prop
  | nothing {prev : Option Kind} {text : List Char} : (∀ c ∈ text, Text.isSpace c = true) → Tokenized prev text []
  | lexeme {prev : Option Kind} {gap : List Char} {s : Session} {more : List Session} :
      (∀ c ∈ gap, Text.isSpace c = true) → (∀ c ∈ s.text.head?, Text.isSpace c = false) → s.WellRead prev →
      Tokenized (some s.kind) s.rest more → Tokenized prev (gap ++ (s.text ++ s.rest)) (s :: more)

/-! ## How a lexeme starts -/

theorem startsNumber_cons (c : Char) (cs : List Char) : Munch.startsNumber (c :: cs) = true ↔
    c.isDigit = true ∨ c = '.' ∧ ∃ d ds, cs = d :: ds ∧ d.isDigit = true := by
  unfold Munch.startsNumber
  split
  · next d ds heq =>
    cases heq
    have noDigit : ('.' : Char).isDigit = false := by decide
    simp [noDigit]
  · next hpoint heq =>
    cases heq
    constructor
    · exact .inl
    · rintro (h | ⟨rfl, d, ds, rfl, -⟩)
      · exact h
      · exact (hpoint d ds rfl rfl).elim
  · next heq => cases heq

theorem Numeral.starts {v text : List Char} (hv : Numeral v) (h : v <+: text) : Munch.startsNumber text = true := by
  obtain ⟨more, rfl⟩ := h
  have digits : ∀ {ds : List Char}, ds ≠ [] → (∀ c ∈ ds, c.isDigit = true) → ∀ rest,
      Munch.startsNumber (ds ++ rest) = true := by
    intro ds hne hall rest
    cases ds with
    | nil => exact absurd rfl hne
    | cons d ds => exact (startsNumber_cons d _).2 (.inl (hall d List.mem_cons_self))
  cases hv with
  | whole hne hall => exact digits hne hall more
  | pointed hne hall _ =>
    rw [List.append_assoc]
    exact digits hne hall _
  | @fraction ds hne hall =>
    cases ds with
    | nil => exact absurd rfl hne
    | cons d ds => exact (startsNumber_cons '.' _).2 (.inr ⟨rfl, d, ds ++ more, rfl, hall d List.mem_cons_self⟩)

theorem Quotation.starts {v cs : List Char} {c : Char} (hv : Quotation v) (h : v <+: c :: cs) : c = '"' ∨ c = '\'' := by
  cases hv with
  | mk hquote _ =>
    obtain ⟨rfl, -⟩ := List.cons_prefix_cons.1 h
    exact hquote

theorem numeral_ne_nil {v : List Char} (hv : Numeral v) : v ≠ [] := by
  cases hv with
  | whole hne _ => exact hne
  | pointed hne _ _ => simp
  | fraction _ _ => simp

theorem isNameStart_of_isName {base v cs : List Char} {c : Char} (hbase : Text.isName base = true)
    (h : base ++ v <+: c :: cs) : Text.isNameStart c = true := by
  cases base with
  | nil => cases hbase
  | cons d ds =>
    obtain ⟨rfl, -⟩ := List.cons_prefix_cons.1 h
    rw [Text.isName, Bool.and_eq_true] at hbase
    exact hbase.1

theorem Spells.starts {v cs : List Char} {c : Char} (hv : Spells v) (h : v <+: c :: cs) : Text.isNameStart c = true := by
  cases hv with
  | @plain base hbase => exact isNameStart_of_isName (v := []) hbase (by rwa [List.append_nil])
  | qualified hqualifier _ => exact isNameStart_of_isName hqualifier h
  | wildcard hqualifier => exact isNameStart_of_isName hqualifier h

/-- Marks start with characters of their own; only a point also starts numbers. -/
theorem mark_head {k : Kind} (hk : k ∈ .star :: marks) : ∃ c cs, k.spelling.toList = c :: cs ∧ c.isDigit = false ∧
    ¬ (c = '"' ∨ c = '\'') ∧ Text.isNameStart c = false ∧ (c = '.' → cs = [] ∨ cs = ['.']) := by
  have heads : ∀ k ∈ Kind.star :: marks, (k.spelling.toList.head?.any fun c =>
      !c.isDigit && !(c == '"' || c == '\'') && !Text.isNameStart c &&
        (c != '.' || k.spelling.toList.tail == [] || k.spelling.toList.tail == ['.'])) = true := by decide
  have head := heads k hk
  cases hs : k.spelling.toList with
  | nil =>
    rw [hs] at head
    cases head
  | cons c cs =>
    rw [hs, List.head?_cons, Option.any_some, List.tail_cons] at head
    simp only [Bool.and_eq_true, Bool.or_eq_true, Bool.not_eq_true', Bool.or_eq_false_iff, beq_eq_false_iff_ne,
      beq_iff_eq, bne_iff_ne] at head
    obtain ⟨⟨⟨hdigit, hquote⟩, hname⟩, hpoint⟩ := head
    exact ⟨c, cs, rfl, hdigit, not_or.2 hquote, hname, fun hc => or_assoc.1 hpoint |>.resolve_left (absurd hc)⟩

/-- A lexeme is a number, a string, a name or a mark. -/
theorem Form.cases {v : List Char} (h : Form v) : Numeral v ∨ Quotation v ∨ Spells v ∨
    ∃ k ∈ Kind.star :: marks, v = k.spelling.toList := by
  cases h with
  | mark hk => exact .inr (.inr (.inr ⟨_, List.mem_cons_of_mem _ hk, rfl⟩))
  | star => exact .inr (.inr (.inr ⟨.star, List.mem_cons_self, by decide⟩))
  | number h => exact .inl h
  | string h => exact .inr (.inl h)
  | name h => exact .inr (.inr (.inl h))

/-! ## Numbers -/

namespace Munch

/-- The longest run of digits reaches at least as far as any other. -/
theorem length_le_takeWhile {p : Char → Bool} {run text : List Char} (hrun : ∀ c ∈ run, p c = true) (h : run <+: text) :
    run.length ≤ (text.takeWhile p).length := by
  obtain ⟨more, rfl⟩ := h
  rw [List.takeWhile_append_of_pos hrun, List.length_append]
  exact Nat.le_add_right _ _

/-- A run of digits ends where something else stands. -/
theorem takeWhile_until {p : Char → Bool} {run v : List Char} {c : Char} (hrun : ∀ c ∈ run, p c = true)
    (hc : p c = false) : (run ++ c :: v).takeWhile p = run ∧ (run ++ c :: v).dropWhile p = c :: v := by
  constructor
  · rw [List.takeWhile_append_of_pos hrun, List.takeWhile_cons_of_neg (by simp [hc]), List.append_nil]
  · rw [List.dropWhile_append_of_pos hrun, List.dropWhile_cons_of_neg (by simp [hc])]

theorem decimal_pointed {v rest : List Char} (hall : ∀ c ∈ v, c.isDigit = true) :
    (decimal (v ++ '.' :: rest)).1 = v ++ '.' :: rest.takeWhile Char.isDigit := by
  obtain ⟨before, behind⟩ := takeWhile_until (v := rest) hall (show ('.' : Char).isDigit = false by decide)
  simp only [decimal, before, behind]

theorem takeWhile_length_le_decimal (text : List Char) :
    (text.takeWhile Char.isDigit).length ≤ (decimal text).1.length := by
  unfold decimal
  split
  · simp
  · exact Nat.le_refl _

theorem numeral_decimal {text : List Char} (h : startsNumber text = true) : Numeral (decimal text).1 := by
  have whole : ∀ c ∈ text.takeWhile Char.isDigit, c.isDigit = true := List.all_eq_true.1 List.all_takeWhile
  have split := List.takeWhile_append_dropWhile (p := Char.isDigit) (l := text)
  cases text with
  | nil => cases h
  | cons c cs =>
    rcases (startsNumber_cons c cs).1 h with hc | ⟨rfl, d, ds, rfl, hd⟩
    · have nonempty : (c :: cs).takeWhile Char.isDigit ≠ [] := by simp [hc]
      unfold decimal
      split
      · exact .pointed nonempty whole (List.all_eq_true.1 List.all_takeWhile)
      · exact .whole nonempty whole
    · have nonempty : (d :: ds).takeWhile Char.isDigit ≠ [] := by simp [hd]
      rw [← List.nil_append ('.' :: d :: ds), decimal_pointed (v := []) nofun]
      exact .fraction nonempty (List.all_eq_true.1 List.all_takeWhile)

/-- **No longer number** stands at the front of a text than the one that is taken. -/
theorem decimal_longest {v text : List Char} (hv : Numeral v) (h : v <+: text) : v.length ≤ (decimal text).1.length := by
  have pointed : ∀ {u w : List Char}, (∀ c ∈ u, c.isDigit = true) → (∀ c ∈ w, c.isDigit = true) →
      u ++ '.' :: w <+: text → (u ++ '.' :: w).length ≤ (decimal text).1.length := by
    rintro u w hu hw ⟨more, rfl⟩
    have run := length_le_takeWhile hw (List.prefix_append w more)
    rw [List.append_assoc, List.cons_append, decimal_pointed hu]
    simp only [List.length_append, List.length_cons]
    omega
  cases hv with
  | whole _ hall => exact Nat.le_trans (length_le_takeWhile hall h) (takeWhile_length_le_decimal text)
  | pointed _ hall hmore => exact pointed hall hmore h
  | fraction _ hall => exact pointed (u := []) nofun hall h

/-! ## Names -/

/-- **No longer name** stands at the front of a text than the one that is taken. -/
theorem word_longest (prev : Kind) {v text : List Char} (hv : Spells v) (h : v <+: text) :
    v.length ≤ (word prev text).taken.length := by
  have noColon : Text.isNameChar ':' = false := by decide
  cases hv with
  | plain hbase =>
    have run := length_le_takeWhile (Text.isNameChar_of_isName hbase) h
    unfold word
    dsimp only
    split
    · split
      · simp only [List.length_append]
        omega
      · split
        · simp only [List.length_append]
          omega
        · exact run
    · exact run
  | @qualified qualifier base hqualifier hbase =>
    obtain ⟨more, rfl⟩ := h
    obtain ⟨before, behind⟩ := takeWhile_until (v := base ++ more) (Text.isNameChar_of_isName hqualifier) noColon
    cases base with
    | nil => cases hbase
    | cons c cs =>
      rw [Text.isName, Bool.and_eq_true, List.all_eq_true] at hbase
      have noStar : c ≠ '*' := by
        rintro rfl
        exact absurd hbase.1 (by decide)
      have run := length_le_takeWhile hbase.2 (List.prefix_append cs more)
      rw [List.append_assoc, List.cons_append]
      unfold word
      rw [before, behind]
      simp only [List.cons_append, if_neg noStar, if_pos hbase.1, List.length_append, List.length_cons]
      omega
  | @wildcard qualifier hqualifier =>
    obtain ⟨more, rfl⟩ := h
    obtain ⟨before, behind⟩ := takeWhile_until (v := '*' :: more) (Text.isNameChar_of_isName hqualifier) noColon
    rw [List.append_assoc]
    unfold word
    simp only [List.cons_append, List.nil_append, before, behind, if_true, List.length_append, List.length_cons,
      List.length_nil]
    omega

end Munch

/-! ## Marks -/

namespace Munch

theorem mem_fixed : ∀ k ∈ Kind.star :: marks, (k.spelling.toList, k) ∈ fixed := by
  decide

/-- **No longer mark** stands at the front of a text than the one that is found: of two of which one starts with the
other, the longer comes first. -/
theorem fixed?_longest {k kind : Kind} {text spelling : List Char} (hf : fixed? text = some (spelling, kind))
    (hk : k ∈ Kind.star :: marks) (h : k.spelling.toList <+: text) : k.spelling.toList.length ≤ spelling.length := by
  have longerFirst : fixed.Pairwise fun a b => ¬ a.1 <+: b.1 := by decide
  obtain ⟨hspelling, before, behind, hfixed, hbefore⟩ := List.find?_eq_some_iff_append.1 hf
  have here : spelling <+: text := List.isPrefixOf_iff_prefix.1 hspelling
  have entry := mem_fixed k hk
  rw [hfixed, List.pairwise_append] at longerFirst
  rw [hfixed] at entry
  rcases List.mem_append.1 entry with hb | hb
  · have notHere := hbefore _ hb
    rw [List.isPrefixOf_iff_prefix.2 h] at notHere
    cases notHere
  · rcases List.mem_cons.1 hb with heq | hb
    · exact Nat.le_of_eq (congrArg (fun e => e.1.length) heq)
    · refine Nat.le_of_lt (Nat.lt_of_not_le fun hle => ?_)
      exact (List.pairwise_cons.1 longerFirst.2.1).1 _ hb (List.prefix_of_prefix_length_le here h hle)

theorem fixed?_none {k : Kind} {text : List Char} (hf : fixed? text = none) (hk : k ∈ Kind.star :: marks) :
    ¬ k.spelling.toList <+: text := by
  intro h
  have notHere := List.find?_eq_none.1 hf _ (mem_fixed k hk)
  exact notHere (List.isPrefixOf_iff_prefix.2 h)

theorem fixed?_mark {kind : Kind} {text spelling : List Char} (hf : fixed? text = some (spelling, kind)) :
    kind ∈ Kind.star :: marks ∧ spelling = kind.spelling.toList ∧ spelling <+: text := by
  have spellings : ∀ entry ∈ fixed, entry.2 ∈ Kind.star :: marks ∧ entry.1 = entry.2.spelling.toList := by decide
  obtain ⟨hkind, hspelling⟩ := spellings _ (List.mem_of_find?_eq_some hf)
  have isPrefix := List.find?_some hf
  exact ⟨hkind, hspelling, List.isPrefixOf_iff_prefix.1 isPrefix⟩

end Munch

/-! ## What decides on the kind -/

theorem endsOperand_iff (prev : Option Kind) : (prev.getD .unknown).endsOperand = true ↔ AfterOperand prev := by
  have kinds : ∀ k : Kind, k.endsOperand = true ↔ k ≠ .unknown ∧ k.isOperator = false ∧
      k ∉ [Kind.slash, .slashSlash, .at, .colonColon, .lparen, .lbracket, .comma, .dollar] := by
    intro k
    cases k <;> decide
  cases prev with
  | none =>
    constructor
    · exact nofun
    · rintro ⟨k, hk, -⟩
      cases hk
  | some k =>
    constructor
    · exact fun h => ⟨k, rfl, (kinds k).1 h⟩
    · rintro ⟨k', hk', h⟩
      cases hk'
      exact (kinds k).2 h

theorem followedBy_iff {c : Char} {cs rest : List Char} (hc : Text.isSpace c = false) :
    FollowedBy (c :: cs) rest ↔ (c :: cs).isPrefixOf (rest.dropWhile Text.isSpace) = true := by
  rw [List.isPrefixOf_iff_prefix]
  constructor
  · rintro ⟨gap, more, hgap, rfl⟩
    rw [List.dropWhile_append_of_pos hgap, List.cons_append, List.dropWhile_cons_of_neg (by simp [hc]),
      ← List.cons_append]
    exact List.prefix_append _ _
  · rintro ⟨more, hmore⟩
    refine ⟨rest.takeWhile Text.isSpace, more, List.all_eq_true.1 List.all_takeWhile, ?_⟩
    rw [hmore, List.takeWhile_append_dropWhile]

theorem ofName?_isSome_iff (name : String) : (Axis.ofName? name).isSome = true ↔ name ∈ axisNames := by
  constructor
  · intro h
    unfold Axis.ofName? at h
    split at h <;> first | decide | cases h
  · revert name
    decide

theorem namesAxis_iff {word rest : List Char} (hword : Text.isName word = true) : NamesAxis word rest ↔
    Munch.beforeColons rest = true ∧ (Axis.ofName? (String.ofList word)).isSome = true := by
  rw [NamesAxis, ofName?_isSome_iff, followedBy_iff (by decide), Munch.beforeColons, and_comm,
    and_assoc, and_iff_left hword, and_comm]

/-! ## One lexeme -/

namespace Munch

variable {c : Char} {cs : List Char}

theorem toNat_of_isDigit (hc : c.isDigit = true) : 48 ≤ c.toNat ∧ c.toNat ≤ 57 := by
  simpa [Char.isDigit, UInt32.le_iff_toNat_le] using hc

theorem not_isNameStart_of_isDigit (hc : c.isDigit = true) : Text.isNameStart c = false := by
  have bounds := toNat_of_isDigit hc
  unfold Text.isNameStart Text.inRanges Text.nameStartRanges
  simp
  omega

theorem not_isNameStart_of_startsNumber (h : startsNumber (c :: cs) = true) : Text.isNameStart c = false := by
  rcases (startsNumber_cons c cs).1 h with hc | ⟨rfl, -⟩
  · exact not_isNameStart_of_isDigit hc
  · decide

theorem not_quote_of_isNameStart (hs : Text.isNameStart c = true) : ¬ (c = '"' ∨ c = '\'') := by
  rintro (rfl | rfl) <;> revert hs <;> decide

theorem not_startsNumber_of_quote (hq : c = '"' ∨ c = '\'') : ¬ startsNumber (c :: cs) = true := by
  rw [startsNumber_cons]
  rcases hq with rfl | rfl <;> rintro (h | ⟨h, -⟩) <;> revert h <;> decide

theorem not_startsNumber_of_isNameStart (hs : Text.isNameStart c = true) : ¬ startsNumber (c :: cs) = true := by
  intro h
  rw [not_isNameStart_of_startsNumber h] at hs
  cases hs

end Munch

/-- What stands where a mark does: nothing else, except that a number may start with a point. -/
theorem mark_starts {k : Kind} {c : Char} {cs : List Char} (hk : k ∈ .star :: marks) (h : k.spelling.toList <+: c :: cs) :
    ¬ (c = '"' ∨ c = '\'') ∧ ¬ Text.isNameStart c = true ∧
      (Munch.startsNumber (c :: cs) = true → k.spelling.toList = ['.']) := by
  obtain ⟨d, ds, hspelling, hdigit, hquote, hname, hpoint⟩ := mark_head hk
  rw [hspelling] at h ⊢
  obtain ⟨rfl, hds⟩ := List.cons_prefix_cons.1 h
  refine ⟨hquote, by simp [hname], fun hn => ?_⟩
  rcases (startsNumber_cons d cs).1 hn with hd | ⟨rfl, e, es, rfl, he⟩
  · rw [hdigit] at hd
    cases hd
  · rcases hpoint rfl with rfl | rfl
    · rfl
    · obtain ⟨rfl, -⟩ := List.cons_prefix_cons.1 hds
      exact absurd he (by decide)

section Munched

variable (prev : Kind) {c : Char} {cs : List Char}

theorem munch_number (h : Munch.startsNumber (c :: cs) = true) : munch prev (c :: cs) = Munch.number (c :: cs) := by
  rw [munch, if_pos h]

theorem munch_quoted (hq : c = '"' ∨ c = '\'') : munch prev (c :: cs) = Munch.quoted c cs := by
  rw [munch, if_neg (Munch.not_startsNumber_of_quote hq), if_pos hq]

theorem munch_word (hs : Text.isNameStart c = true) : munch prev (c :: cs) = Munch.word prev (c :: cs) := by
  rw [munch, if_neg (Munch.not_startsNumber_of_isNameStart hs), if_neg (Munch.not_quote_of_isNameStart hs), if_pos hs]

theorem munch_mark (hn : ¬ Munch.startsNumber (c :: cs) = true) (hq : ¬ (c = '"' ∨ c = '\''))
    (hs : ¬ Text.isNameStart c = true) {spelling : List Char} {k : Kind}
    (hf : Munch.fixed? (c :: cs) = some (spelling, k)) : munch prev (c :: cs) =
      ⟨if k = .star ∧ prev.endsOperand = true then .multiply else k, spelling, (c :: cs).drop spelling.length, none⟩ := by
  rw [munch, if_neg hn, if_neg hq, if_neg hs, hf]

theorem munch_unknown (hn : ¬ Munch.startsNumber (c :: cs) = true) (hq : ¬ (c = '"' ∨ c = '\''))
    (hs : ¬ Text.isNameStart c = true) (hf : Munch.fixed? (c :: cs) = none) :
    munch prev (c :: cs) = ⟨.unknown, [c], cs, none⟩ := by
  rw [munch, if_neg hn, if_neg hq, if_neg hs, hf]

end Munched

namespace Munch

theorem number_eq {text : List Char} (h : (number text).defect = none) :
    number text = ⟨.number, (decimal text).1, (decimal text).2, none⟩ := by
  unfold number at h ⊢
  cases hd : decimal text with
  | mk digits rest =>
    rw [hd] at h
    cases rest with
    | nil => rfl
    | cons c rest =>
      dsimp only at h ⊢
      split at h
      · cases h
      · next hc => rw [if_neg hc]

theorem quoted_eq {quote : Char} {body : List Char} (hb : quote ∉ body) (rest : List Char) :
    quoted quote (body ++ quote :: rest) = ⟨.string, quote :: (body ++ [quote]), rest, none⟩ := by
  have inside : ∀ c ∈ body, (c != quote) = true := by
    intro c hc
    rw [bne_iff_ne]
    rintro rfl
    exact hb hc
  obtain ⟨before, behind⟩ := takeWhile_until (v := rest) inside (show (quote != quote) = false by simp)
  unfold quoted
  rw [before, behind]
  rfl

theorem quoted_closed {quote : Char} {text : List Char} (h : (quoted quote text).defect = none) :
    ∃ body rest, text = body ++ quote :: rest ∧ quote ∉ body := by
  have split := List.takeWhile_append_dropWhile (p := (· != quote)) (l := text)
  have head := List.head?_dropWhile_not (· != quote) text
  have inside : ∀ c ∈ text.takeWhile (· != quote), (c != quote) = true := List.all_eq_true.1 List.all_takeWhile
  unfold quoted at h
  split at h
  · cases h
  · next c rest heq =>
    rw [heq] at split head
    have : c = quote := by simpa using head
    subst this
    refine ⟨_, rest, split.symm, fun hc => ?_⟩
    simpa using inside c hc

/-- A name that has no colon is taken as it stands; any other is no operator and no axis. -/
theorem word_cases (prev : Kind) (text : List Char) :
    word prev text = ⟨wordKind prev (text.takeWhile Text.isNameChar) (text.dropWhile Text.isNameChar),
        text.takeWhile Text.isNameChar, text.dropWhile Text.isNameChar, none⟩ ∨
      (word prev text).kind = .name ∧ ':' ∈ (word prev text).taken := by
  unfold word
  dsimp only
  split
  · next heq =>
    split
    · exact .inr ⟨rfl, by simp⟩
    · split
      · exact .inr ⟨rfl, by simp⟩
      · rw [heq]
        exact .inl rfl
  · exact .inl rfl

theorem keyword?_eq_some_iff (word : List Char) (k : Kind) :
    keyword? word = some k ↔ k ∈ keywords ∧ word = k.spelling.toList := by
  constructor
  · intro h
    unfold keyword? at h
    split at h <;> cases h <;> decide
  · rintro ⟨hk, rfl⟩
    revert k
    decide

end Munch

/-- **A name without a colon is classified** by the lexeme before it and the colons behind it. -/
theorem classified_word (prev : Option Kind) {word : List Char} (hword : Text.isName word = true) (rest : List Char) :
    Classified prev word rest (Munch.wordKind (prev.getD .unknown) word rest) := by
  have keywordKinds : ∀ k ∈ keywords, k ≠ .name := by decide
  unfold Munch.wordKind
  split
  · next k heq =>
    obtain ⟨hk, hspelling⟩ := (Munch.keyword?_eq_some_iff word k).1 heq
    have differ := keywordKinds k hk
    refine .keyword hk hspelling ?_ ?_
    · rw [← endsOperand_iff]
      split <;> simp_all [differ.symm]
    · rw [← endsOperand_iff]
      split <;> simp_all
  · next heq =>
    refine .word (.plain hword) (fun k hk hspelling => ?_) ?_ ?_
    · rw [(Munch.keyword?_eq_some_iff word k).2 ⟨hk, hspelling⟩] at heq
      cases heq
    · rw [namesAxis_iff hword]
      split <;> simp_all
    · rw [namesAxis_iff hword]
      split <;> simp_all

/-- A name with a colon is always just a name. -/
theorem classified_qualified (prev : Option Kind) {word : List Char} (hword : Spells word) (hcolon : ':' ∈ word)
    (rest : List Char) : Classified prev word rest .name := by
  have noColon : ∀ k ∈ keywords, ':' ∉ k.spelling.toList := by decide
  have noAxis : ¬ NamesAxis word rest := by
    rintro ⟨hname, -⟩
    exact absurd (Text.isNameChar_of_isName hname ':' hcolon) (by decide)
  refine .word hword (fun k hk hspelling => ?_) ?_ ?_
  · exact noColon k hk (hspelling ▸ hcolon)
  · simp [noAxis]
  · simp [noAxis]

section Longest

variable {c : Char} {cs : List Char}

theorem longest_number (h : Munch.startsNumber (c :: cs) = true) : Longest (Munch.decimal (c :: cs)).1 (c :: cs) := by
  have numeral := Munch.numeral_decimal h
  refine ⟨.number numeral, ⟨_, Munch.decimal_append (c :: cs)⟩, fun v hv hprefix => ?_⟩
  rcases hv.cases with hv | hv | hv | ⟨k, hk, rfl⟩
  · exact Munch.decimal_longest hv hprefix
  · exact absurd h (Munch.not_startsNumber_of_quote (hv.starts hprefix))
  · exact absurd h (Munch.not_startsNumber_of_isNameStart (hv.starts hprefix))
  · rw [(mark_starts hk hprefix).2.2 h]
    exact List.length_pos_iff.2 (numeral_ne_nil numeral)

theorem longest_quoted {body rest : List Char} (hq : c = '"' ∨ c = '\'') (hb : c ∉ body) :
    Longest (c :: (body ++ [c])) (c :: (body ++ c :: rest)) := by
  refine ⟨.string (.mk hq hb), ⟨rest, by simp⟩, fun v hv hprefix => ?_⟩
  rcases hv.cases with hv | hv | hv | ⟨k, hk, rfl⟩
  · exact absurd (hv.starts hprefix) (Munch.not_startsNumber_of_quote hq)
  · cases hv with
    | @mk quote inner _ hinner =>
      obtain ⟨rfl, more, hmore⟩ := List.cons_prefix_cons.1 hprefix
      rw [List.append_assoc, List.cons_append, List.nil_append] at hmore
      -- both end at the first quote
      have same := congrArg (Munch.quoted quote) hmore
      rw [Munch.quoted_eq hinner, Munch.quoted_eq hb] at same
      exact Nat.le_of_eq (congrArg (fun m => m.taken.length) same)
  · exact absurd hq (Munch.not_quote_of_isNameStart (hv.starts hprefix))
  · exact absurd hq (mark_starts hk hprefix).1

theorem longest_word (prev : Kind) (hs : Text.isNameStart c = true) :
    Longest (Munch.word prev (c :: cs)).taken (c :: cs) := by
  refine ⟨.name (Munch.word_spells prev hs), ⟨_, Munch.word_append prev (c :: cs)⟩, fun v hv hprefix => ?_⟩
  rcases hv.cases with hv | hv | hv | ⟨k, hk, rfl⟩
  · exact absurd (hv.starts hprefix) (Munch.not_startsNumber_of_isNameStart hs)
  · exact absurd (hv.starts hprefix) (Munch.not_quote_of_isNameStart hs)
  · exact Munch.word_longest prev hv hprefix
  · exact absurd hs (mark_starts hk hprefix).2.1

/-- Where no number, no string and no name starts, only marks can stand. -/
theorem Form.mark_of_starts {v : List Char} (hn : ¬ Munch.startsNumber (c :: cs) = true) (hq : ¬ (c = '"' ∨ c = '\''))
    (hs : ¬ Text.isNameStart c = true) (hv : Form v) (h : v <+: c :: cs) :
    ∃ k ∈ Kind.star :: marks, v = k.spelling.toList := by
  rcases hv.cases with hv | hv | hv | hmark
  · exact absurd (hv.starts h) hn
  · exact absurd (hv.starts h) hq
  · exact absurd (hv.starts h) hs
  · exact hmark

theorem form_mark {k : Kind} (hk : k ∈ .star :: marks) : Form k.spelling.toList := by
  rcases List.mem_cons.1 hk with rfl | hk
  · exact .star
  · exact .mark hk

theorem longest_mark (hn : ¬ Munch.startsNumber (c :: cs) = true) (hq : ¬ (c = '"' ∨ c = '\''))
    (hs : ¬ Text.isNameStart c = true) {spelling : List Char} {k : Kind}
    (hf : Munch.fixed? (c :: cs) = some (spelling, k)) : Longest spelling (c :: cs) := by
  obtain ⟨hk, hspelling, hprefix⟩ := Munch.fixed?_mark hf
  refine ⟨hspelling ▸ form_mark hk, hprefix, fun v hv h => ?_⟩
  obtain ⟨k', hk', rfl⟩ := hv.mark_of_starts hn hq hs h
  exact Munch.fixed?_longest hf hk' h

end Longest

theorem classified_mark (prev : Option Kind) {k : Kind} (hk : k ∈ .star :: marks) (rest : List Char) :
    Classified prev k.spelling.toList rest
      (if k = .star ∧ (prev.getD .unknown).endsOperand = true then .multiply else k) := by
  have noStar : Kind.star ∉ marks := by decide
  rcases List.mem_cons.1 hk with rfl | hmark
  · refine .star rfl ?_ ?_
    · rw [← endsOperand_iff]
      split <;> simp_all
    · rw [← endsOperand_iff]
      split <;> simp_all
  · have differs : k ≠ .star := by
      rintro rfl
      exact noStar hmark
    rw [if_neg fun h => differs h.1]
    exact .mark hmark rfl

/-- **The lexeme that is taken off a text** is the longest possible and of the right kind. -/
theorem munch_taken (prev : Option Kind) {text : List Char} (hne : text ≠ [])
    (hd : (munch (prev.getD .unknown) text).defect = none) : Taken prev (munch (prev.getD .unknown) text).taken
      (munch (prev.getD .unknown) text).rest (munch (prev.getD .unknown) text).kind := by
  have whole := munch_append (prev.getD .unknown) text
  unfold Taken
  rw [whole]
  cases text with
  | nil => exact absurd rfl hne
  | cons c cs =>
    by_cases hn : Munch.startsNumber (c :: cs) = true
    · rw [munch_number _ hn] at hd ⊢
      rw [Munch.number_eq hd]
      exact .inl ⟨longest_number hn, .number (Munch.numeral_decimal hn)⟩
    by_cases hq : c = '"' ∨ c = '\''
    · rw [munch_quoted _ hq] at hd ⊢
      obtain ⟨body, rest, rfl, hb⟩ := Munch.quoted_closed hd
      rw [Munch.quoted_eq hb]
      exact .inl ⟨longest_quoted hq hb, .string (.mk hq hb)⟩
    by_cases hs : Text.isNameStart c = true
    · have longest : Longest (Munch.word (prev.getD .unknown) (c :: cs)).taken (c :: cs) := longest_word _ hs
      rw [munch_word _ hs]
      rcases Munch.word_cases (prev.getD .unknown) (c :: cs) with h | ⟨hk, hcolon⟩
      · have name : Text.isName ((c :: cs).takeWhile Text.isNameChar) = true := Munch.isName_takeWhile hs
        have plain := classified_word prev name ((c :: cs).dropWhile Text.isNameChar)
        rw [h] at longest ⊢
        exact .inl ⟨longest, plain⟩
      · rw [hk]
        exact .inl ⟨longest, classified_qualified prev (Munch.word_spells _ hs) hcolon _⟩
    cases hf : Munch.fixed? (c :: cs) with
    | none =>
      rw [munch_unknown _ hn hq hs hf]
      refine .inr ⟨⟨c, rfl⟩, rfl, fun v hv h => ?_⟩
      obtain ⟨k, hk, rfl⟩ := hv.mark_of_starts hn hq hs h
      exact Munch.fixed?_none hf hk h
    | some entry =>
      obtain ⟨spelling, k⟩ := entry
      obtain ⟨hk, rfl, -⟩ := Munch.fixed?_mark hf
      rw [munch_mark _ hn hq hs hf]
      exact .inl ⟨longest_mark hn hq hs hf, classified_mark prev hk _⟩

/-! ## All lexemes -/

/-- Only names of the form `qualifier:*` are wildcards. -/
theorem exists_qualifier_of_isWildcard {w : List Char} (hw : Spells w) (h : (WrittenName.ofChars w).isWildcard = true) :
    ∃ qualifier, w = qualifier ++ [':', '*'] := by
  have noName : ∀ {base : List Char}, Text.isName base = true → String.ofList base ≠ "*" := fun hbase =>
    WrittenName.ne_star_of_isName (by rw [String.toList_ofList]; exact hbase)
  rw [WrittenName.isWildcard, decide_eq_true_eq] at h
  cases hw with
  | plain hbase =>
    rw [WrittenName.ofChars_of_isName hbase] at h
    exact absurd h (noName hbase)
  | qualified hqualifier hbase =>
    rw [WrittenName.ofChars_append hqualifier] at h
    exact absurd h (noName hbase)
  | wildcard _ => exact ⟨_, rfl⟩

namespace Session

variable {prev : Option Kind} {s next : Session}

/-- **A step of a scan** goes behind the white space, and then takes the longest lexeme. -/
theorem advance_wellRead (hprev : prev.getD .unknown = s.kind) (h : s.advance = (next, none)) (hk : next.kind ≠ .eof) :
    next.WellRead prev ∧ next.text ≠ [] ∧ next.text ++ next.rest = s.rest.dropWhile Text.isSpace := by
  have hnext : next = s.advance.1 := by rw [h]
  have hdefect : s.advance.2 = none := by rw [h]
  have kind : next.kind = (munch (prev.getD .unknown) (s.rest.dropWhile Text.isSpace)).kind := by rw [hnext, hprev]; rfl
  have text : next.text = (munch (prev.getD .unknown) (s.rest.dropWhile Text.isSpace)).taken := by rw [hnext, hprev]; rfl
  have rest : next.rest = (munch (prev.getD .unknown) (s.rest.dropWhile Text.isSpace)).rest := by rw [hnext, hprev]; rfl
  have hd : (munch (prev.getD .unknown) (s.rest.dropWhile Text.isSpace)).defect = none := by
    rw [hprev]
    exact Option.map_eq_none_iff.1 hdefect
  have nonempty : s.rest.dropWhile Text.isSpace ≠ [] := munch_nil_of_kind (kind ▸ hk)
  refine ⟨⟨?_, fun hname hplain => ?_⟩, ?_, ?_⟩
  · rw [text, rest, kind]
    exact munch_taken prev nonempty hd
  · have spells : Spells next.text := by
      rw [text]
      exact munch_spells (kind ▸ hname)
    have noWildcard : ¬ next.name.isWildcard = true := by
      intro hwild
      obtain ⟨qualifier, hq⟩ := exists_qualifier_of_isWildcard spells hwild
      exact hplain qualifier hq
    rw [followedBy_iff (by decide)]
    simp [isCallable, hname, noWildcard, Munch.beforeParen]
  · rw [text]
    exact munch_taken_ne_nil _ nonempty
  · rw [text, rest]
    exact munch_append _ _

/-- **A scan that comes to the end of the text** takes the longest lexeme at every step. -/
theorem scan_tokenized : ∀ {fuel n : Nat} {prev : Option Kind} {s : Session}, prev.getD .unknown = s.kind →
    s.rest.length < fuel → (s.scan fuel).ending = .atEnd n → ∃ sessions : List Session,
      sessions.map Session.lexeme = (s.scan fuel).lexemes ∧
        (s :: sessions).IsChain (fun s next => s.advance = (next, none)) ∧ Tokenized prev s.rest sessions
  | 0, _, _, _, _, hf, _ => absurd hf (Nat.not_lt_zero _)
  | fuel + 1, n, prev, s, hprev, hf, h => by
    have shorter := s.advance_length
    have gap : ∀ c ∈ s.rest.takeWhile Text.isSpace, Text.isSpace c = true := List.all_eq_true.1 List.all_takeWhile
    have split := List.takeWhile_append_dropWhile (p := Text.isSpace) (l := s.rest)
    have head := List.head?_dropWhile_not Text.isSpace s.rest
    rw [scan] at h ⊢
    cases hadvance : s.advance with
    | mk next fault =>
      have hnext : next = s.advance.1 := by rw [hadvance]
      rw [hadvance] at h shorter
      cases fault with
      | some f => cases h
      | none =>
        dsimp only at h shorter ⊢
        by_cases hk : next.kind = .eof
        · rw [if_pos hk] at h ⊢
          have kind : (munch s.kind (s.rest.dropWhile Text.isSpace)).kind = .eof := by rw [← hk, hnext]; rfl
          have nothing : s.rest.dropWhile Text.isSpace = [] :=
            Classical.byContradiction fun hne => munch_kind_ne_eof hne kind
          refine ⟨[], rfl, List.isChain_singleton _, .nothing ?_⟩
          rw [← split, nothing, List.append_nil]
          exact gap
        · rw [if_neg hk] at h ⊢
          obtain ⟨wellRead, nonempty, behind⟩ := advance_wellRead hprev hadvance hk
          have kind : (some next.kind).getD .unknown = next.kind := rfl
          obtain ⟨sessions, hlexemes, hchain, htokenized⟩ := scan_tokenized kind (by have := shorter hk; omega) h
          refine ⟨next :: sessions, ?_, List.isChain_cons_cons.2 ⟨hadvance, hchain⟩, ?_⟩
          · rw [List.map_cons, hlexemes]
          · rw [← split, ← behind]
            refine .lexeme gap ?_ wellRead htokenized
            rw [← behind] at head
            cases htext : next.text with
            | nil => exact absurd htext nonempty
            | cons c cs =>
              rw [htext] at head
              intro d hd
              cases hd
              simpa using head

end Session

/-- **The lexemes of a text are the longest possible ones.** -/
theorem tokenize_longest {text : String} {ls : List Lexeme} (h : tokenize text = .ok ls) :
    ∃ sessions : List Session, sessions.map Session.lexeme = ls ∧
      (Session.fresh text 0 :: sessions).IsChain (fun s next => s.advance = (next, none)) ∧
        Tokenized none text.toList sessions := by
  unfold tokenize at h
  dsimp only at h
  cases hending : (scan text 0).ending with
  | faulty f => rw [hending] at h; cases h
  | atEnd n =>
    rw [hending] at h
    cases h
    rw [← Session.fresh_rest text]
    exact Session.scan_tokenized rfl (Nat.lt_succ_self _) hending

theorem tokenize_longest_star : ∃ ls, tokenize "a:**.5div child ::and(" = .ok ls ∧
    ls.map (fun l => (l.kind, String.ofList l.text)) = [(.name, "a:*"), (.multiply, "*"), (.number, ".5"), (.divide, "div"),
      (.axis, "child"), (.colonColon, "::"), (.name, "and"), (.lparen, "(")] ∧
    ∃ sessions : List Session, sessions.map Session.lexeme = ls ∧
      (Session.fresh "a:**.5div child ::and(" 0 :: sessions).IsChain (fun s next => s.advance = (next, none)) ∧
        Tokenized none "a:**.5div child ::and(".toList sessions := by
  have run : (tokenize "a:**.5div child ::and(").toOption.map
      (·.map fun l => (l.kind, String.ofList l.text)) = some [(.name, "a:*"), (.multiply, "*"), (.number, ".5"),
        (.divide, "div"), (.axis, "child"), (.colonColon, "::"), (.name, "and"), (.lparen, "(")] := by
    decide
  obtain ⟨ls, hls, hkinds⟩ := Option.map_eq_some_iff.1 run
  have tokens : tokenize "a:**.5div child ::and(" = .ok ls := by
    cases h : tokenize "a:**.5div child ::and(" with
    | error e => rw [h] at hls; cases hls
    | ok ls' => rw [h] at hls; cases hls; rfl
  exact ⟨ls, tokens, hkinds, tokenize_longest tokens⟩

end StylesheetReversal.Path
