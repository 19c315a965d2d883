import Mathlib.Data.List.TakeWhile
import StylesheetReversal.Proofs.Path.LongestMatch
import StylesheetReversal.Proofs.Path.Parsing
import StylesheetReversal.Proofs.Skeleton
/-!
# Writing expressions

An expression that is written piece by piece is read piece by piece, as long as no piece runs into the next one.
`Reads` says of a text that it is read as a phrase of some symbol wherever an operand can start, whatever follows,
if only a name could end there (`Ends`).  The ways to put phrases together keep this (`Reads.and`, `Reads.predicate`,
`Reads.along`), and a text that reads as an expression parses to it (`Reads.parse`).  Inside brackets less is enough:
there a text need only be read up to a mark that closes it (`Fills`).
-/
namespace StylesheetReversal.Path

/-- Behind a lexeme of kind `prev`, the text `cs` starts with the tokens `ws`, the last of them of kind `last`, and
`rest` follows.  The lexemes are taken off the whole text, so that none of them runs on into the rest. -/
inductive Lexes : Kind → List Char → List Token → Kind → List Char → Prop
  | nothing {k : Kind} {cs : List Char} : Lexes k cs [] k cs
  | lexeme {prev k last : Kind} {cs w behind rest : List Char} {ws : List Token} :
      munch prev (cs.dropWhile Text.isSpace) = ⟨k, w, behind, none⟩ → k ≠ .eof → Lexes k behind ws last rest →
      Lexes prev cs (⟨k, w⟩ :: ws) last rest

namespace Lexes

variable {prev k last : Kind} {cs behind rest : List Char} {ws vs : List Token}

theorem append (h : Lexes prev cs ws k behind) (h' : Lexes k behind vs last rest) : Lexes prev cs (ws ++ vs) last rest := by
  induction h with
  | nothing => exact h'
  | lexeme hm hk _ ih => exact .lexeme hm hk (ih h')

/-- White space in front of a lexeme does not matter. -/
theorem spaces (h : Lexes prev cs ws last rest) (hws : ws ≠ []) {gap : List Char}
    (hgap : ∀ c ∈ gap, Text.isSpace c = true) : Lexes prev (gap ++ cs) ws last rest := by
  cases h with
  | nothing => exact absurd rfl hws
  | lexeme hm hk h' =>
    refine .lexeme ?_ hk h'
    rw [List.dropWhile_append_of_pos hgap]
    exact hm

theorem space (h : Lexes prev cs ws last rest) (hws : ws ≠ []) : Lexes prev (' ' :: cs) ws last rest :=
  h.spaces hws (List.forall_mem_singleton.2 (by decide))

/-- The tokens of a whole text are those that a scan finds.  White space may stand behind them. -/
theorem scan (h : Lexes prev cs ws last rest) (hrest : ∀ c ∈ rest, Text.isSpace c = true) :
    ∀ {fuel : Nat} {s : Session}, s.kind = prev → s.rest = cs → s.rest.length < fuel →
      ((s.scan fuel).lexemes.map Lexeme.token = ws ∧ ∃ n, (s.scan fuel).ending = .atEnd n) := by
  induction h with
  | nothing =>
    rintro fuel s - rfl hf
    obtain ⟨i, rfl⟩ : ∃ i, fuel = i + 1 := ⟨fuel - 1, by omega⟩
    have done : s.advance = (s.advance.1, none) ∧ s.advance.1.kind = .eof := by
      unfold Session.advance
      rw [List.dropWhile_eq_nil_iff.2 hrest]
      exact ⟨rfl, rfl⟩
    rw [Session.scan, done.1]
    dsimp only
    rw [if_pos done.2]
    exact ⟨rfl, _, rfl⟩
  | @lexeme prev k last cs w behind rest ws hm hk _ ih =>
    rintro fuel s rfl rfl hf
    obtain ⟨i, rfl⟩ : ∃ i, fuel = i + 1 := ⟨fuel - 1, by omega⟩
    have shorter := s.advance_length
    have step : s.advance = (s.advance.1, none) ∧ s.advance.1.kind = k ∧ s.advance.1.text = w ∧
        s.advance.1.rest = behind := by
      unfold Session.advance
      rw [hm]
      exact ⟨rfl, rfl, rfl, rfl⟩
    obtain ⟨hadvance, hkind, htext, hbehind⟩ := step
    rw [hkind] at shorter
    have room : s.advance.1.rest.length < i := by
      have := shorter hk
      omega
    obtain ⟨htokens, hending⟩ := ih hrest hkind hbehind room
    rw [Session.scan, hadvance]
    dsimp only
    rw [if_neg (hkind ▸ hk)]
    refine ⟨?_, hending⟩
    rw [List.map_cons, htokens, Lexeme.token, Session.lexeme, hkind, htext]

end Lexes

/-! ## Lexemes in their place -/

/-- A name can end in front of the text: neither does the name go on, nor do colons follow. -/
structure Ends (rest : List Char) : Prop where
  head : ∀ c ∈ rest.head?, Text.isNameChar c = false ∧ c ≠ ':'
  noColons : Munch.beforeColons rest = false

section Places

theorem isNameChar_of_isDigit {c : Char} (hc : c.isDigit = true) : Text.isNameChar c = true := by
  have bounds := Munch.toNat_of_isDigit hc
  simp only [Text.isNameChar, Text.inRanges, Text.nameExtraRanges]
  simp
  omega

variable {prev : Kind} {w rest : List Char}

theorem munch_isName (hw : Text.isName w = true) (rest : List Char) :
    munch prev (w ++ rest) = Munch.word prev (w ++ rest) := by
  cases w with
  | nil => cases hw
  | cons c cs =>
    rw [Text.isName, Bool.and_eq_true] at hw
    exact munch_word prev hw.1

/-- The characters of a name are all taken, and no others. -/
theorem takeWhile_name (hw : ∀ c ∈ w, Text.isNameChar c = true)
    (hr : ∀ c ∈ rest.head?, Text.isNameChar c = false ∧ c ≠ ':') :
    (w ++ rest).takeWhile Text.isNameChar = w ∧ (w ++ rest).dropWhile Text.isNameChar = rest := by
  cases rest with
  | nil =>
    rw [List.takeWhile_append_of_pos hw, List.dropWhile_append_of_pos hw]
    exact ⟨List.append_nil w, rfl⟩
  | cons c cs => exact Munch.takeWhile_until hw (hr c rfl).1

theorem munch_name (hw : Text.isName w = true) (hr : ∀ c ∈ rest.head?, Text.isNameChar c = false ∧ c ≠ ':') :
    munch prev (w ++ rest) = ⟨Munch.wordKind prev w rest, w, rest, none⟩ := by
  have parts := takeWhile_name (Text.isNameChar_of_isName hw) hr
  rw [munch_isName hw]
  unfold Munch.word
  rw [parts.1, parts.2]
  dsimp only
  split
  · exact absurd rfl (hr ':' rfl).2
  · rfl

theorem not_isSpace_of_isName (hw : Text.isName w = true) : (w ++ rest).dropWhile Text.isSpace = w ++ rest := by
  have spaces : ∀ c, Text.isSpace c = true → Text.isNameStart c = false := by
    intro c hc
    simp only [Text.isSpace, Bool.or_eq_true, beq_iff_eq] at hc
    rcases hc with ((rfl | rfl) | rfl) | rfl <;> decide
  cases w with
  | nil => cases hw
  | cons c cs =>
    rw [Text.isName, Bool.and_eq_true] at hw
    rw [List.cons_append, List.dropWhile_cons_of_neg]
    intro hc
    rw [spaces c hc] at hw
    cases hw.1

/-- Where an operand starts, a name is a name, even if it is that of an operator. -/
theorem lexes_name (hprev : prev.endsOperand = false) (hw : Text.isName w = true) (hr : Ends rest) :
    Lexes prev (w ++ rest) [⟨.name, w⟩] .name rest := by
  have kind : Munch.wordKind prev w rest = .name := by
    unfold Munch.wordKind
    split
    · simp [hprev]
    · simp [hr.noColons]
  refine .lexeme ?_ (by decide) .nothing
  rw [not_isSpace_of_isName hw, munch_name hw hr.head, kind]

/-- In front of colons, the name of an axis is an axis. -/
theorem lexes_axis {a : Axis} (hw : Text.isName w = true) (ha : Axis.ofName? (String.ofList w) = some a)
    (hk : Munch.keyword? w = none) :
    Lexes prev (w ++ ':' :: ':' :: rest) [⟨.axis, w⟩, ⟨.colonColon, [':', ':']⟩] .colonColon rest := by
  have noStart : Text.isNameStart ':' = false := by decide
  have colons : Munch.beforeColons (':' :: ':' :: rest) = true := rfl
  have kind : Munch.wordKind prev w (':' :: ':' :: rest) = .axis := by
    unfold Munch.wordKind
    rw [hk]
    simp [colons, ha]
  have munched : munch prev (w ++ ':' :: ':' :: rest) = ⟨.axis, w, ':' :: ':' :: rest, none⟩ := by
    obtain ⟨before, behind⟩ := Munch.takeWhile_until (v := ':' :: rest) (Text.isNameChar_of_isName hw)
      (show Text.isNameChar ':' = false by decide)
    rw [munch_isName hw]
    unfold Munch.word
    rw [before, behind]
    simp [noStart, kind]
  have second : Lexes .axis (':' :: ':' :: rest) [⟨.colonColon, [':', ':']⟩] .colonColon rest :=
    .lexeme rfl (by decide) .nothing
  refine .lexeme ?_ (by decide) second
  rw [not_isSpace_of_isName hw, munched]

/-- Behind an operand, a keyword is an operator. -/
theorem lexes_keyword {k : Kind} (hprev : prev.endsOperand = true) (hk : k ∈ keywords) (behind : List Char) :
    Lexes prev (k.spelling.toList ++ ' ' :: behind) [⟨k, k.spelling.toList⟩] k (' ' :: behind) := by
  have names : ∀ k ∈ keywords, Text.isName k.spelling.toList = true ∧ k ≠ .eof := by decide
  obtain ⟨hname, heof⟩ := names k hk
  have kind : Munch.wordKind prev k.spelling.toList (' ' :: behind) = k := by
    unfold Munch.wordKind
    rw [(Munch.keyword?_eq_some_iff _ k).2 ⟨hk, rfl⟩]
    simp [hprev]
  refine .lexeme ?_ heof .nothing
  rw [not_isSpace_of_isName hname, munch_name hname, kind]
  intro c hc
  cases hc
  decide

/-- A star is an operator where an operand has ended. -/
theorem munch_star (prev : Kind) (rest : List Char) :
    munch prev ('*' :: rest) = ⟨if prev.endsOperand = true then .multiply else .star, ['*'], rest, none⟩ := by
  have mark : munch prev ('*' :: rest) =
      ⟨if Kind.star = .star ∧ prev.endsOperand = true then .multiply else .star, ['*'], rest, none⟩ := rfl
  rw [mark]
  simp only [true_and]

/-- Behind an operand, any operator between spaces is an operator. -/
theorem lexes_operator {k : Kind} {op : Operator} (hprev : prev.endsOperand = true) (hk : k.operator? = some op)
    (behind : List Char) :
    Lexes prev (k.spelling.toList ++ ' ' :: behind) [⟨k, k.spelling.toList⟩] k (' ' :: behind) := by
  by_cases hword : k ∈ keywords
  · exact lexes_keyword hprev hword behind
  · have star : munch prev ('*' :: ' ' :: behind) = ⟨.multiply, ['*'], ' ' :: behind, none⟩ := by
      rw [munch_star, if_pos hprev]
    cases k <;> first
      | exact absurd (by decide) hword
      | exact .lexeme rfl (by decide) .nothing
      | exact .lexeme star (by decide) .nothing
      | cases hk

/-- Behind a name, two parentheses are just these. -/
theorem lexes_parens : Lexes .name ('(' :: ')' :: rest) [⟨.lparen, ['(']⟩, ⟨.rparen, [')']⟩] .rparen rest :=
  .lexeme rfl (by decide) (.lexeme rfl (by decide) .nothing)

theorem lexes_quoted {body : List Char} (hb : '\'' ∉ body) :
    Lexes prev ('\'' :: (body ++ '\'' :: rest)) [⟨.string, '\'' :: (body ++ ['\''])⟩] .string rest := by
  refine .lexeme ?_ (by decide) .nothing
  rw [List.dropWhile_cons_of_neg (by decide), munch_quoted prev (.inr rfl), Munch.quoted_eq hb]

theorem lexes_dot (hr : Ends rest) : Lexes prev ('.' :: rest) [⟨.dot, ['.']⟩] .dot rest := by
  refine .lexeme ?_ (by decide) .nothing
  rw [List.dropWhile_cons_of_neg (by decide)]
  cases rest with
  | nil => rfl
  | cons c cs =>
    have noChar := (hr.head c rfl).1
    have noDigit : ¬ Munch.startsNumber ('.' :: c :: cs) = true := by
      rw [startsNumber_cons]
      rintro (h | ⟨-, d, ds, heq, hd⟩)
      · exact absurd h (by decide)
      · cases heq
        rw [isNameChar_of_isDigit hd] at noChar
        cases noChar
    have noPoint : c ≠ '.' := by
      rintro rfl
      exact absurd noChar (by decide)
    have found : Munch.fixed? ('.' :: c :: cs) = some (['.'], .dot) := by
      simp [Munch.fixed?, Munch.fixed, List.isPrefixOf, noPoint.symm]
    rw [munch_mark prev noDigit (by decide) (by decide) found]
    rfl

end Places

/-! ## Phrases in their place -/

section Tokens

variable {k : Kind} {w : List Char}

theorem Token.name_of_isName (hw : Text.isName w = true) : Token.name ⟨k, w⟩ = ⟨"", String.ofList w⟩ :=
  WrittenName.ofChars_of_isName hw

theorem Token.isFunctionName_of_isName (hw : Text.isName w = true)
    (hk : NodeKind.ofTypeName? (String.ofList w) = none) : Token.isFunctionName ⟨.name, w⟩ = true := by
  have noWildcard : ¬ (Token.name ⟨.name, w⟩).isWildcard = true := by
    intro h
    obtain ⟨qualifier, rfl⟩ := exists_qualifier_of_isWildcard (.plain hw) h
    have := Text.isNameChar_of_isName hw ':' (by simp)
    revert this
    decide
  rw [Token.name_of_isName hw] at noWildcard
  simp [Token.isFunctionName, Token.isNodeType, Token.name_of_isName hw, noWildcard, hk]

end Tokens

/-- The marks that can stand behind a whole expression. -/
def closers : List Token := [⟨.rparen, [')']⟩, ⟨.rbracket, [']']⟩, ⟨.comma, [',']⟩]

theorem lexes_closer {prev : Kind} {mark : Token} (hmark : mark ∈ closers) (rest : List Char) :
    Lexes prev (mark.text ++ rest) [mark] mark.kind rest := by
  simp only [closers, List.mem_cons, List.not_mem_nil, or_false] at hmark
  rcases hmark with rfl | rfl | rfl <;> exact .lexeme rfl (by decide) .nothing

/-- The text is read as a phrase of the symbol wherever an operand can start, up to an end of names. -/
def Reads (s : Symbol) (cs : List Char) (t : Expr) : Prop :=
  ∃ ws last, Derives s ws t ∧ last.endsOperand = true ∧
    ∀ prev rest, prev.endsOperand = false → Ends rest → Lexes prev (cs ++ rest) ws last rest

/-- The text is read as an expression wherever an operand can start, up to a mark that closes it. -/
def Fills (cs : List Char) (t : Expr) : Prop :=
  ∃ ws, Derives .expr ws t ∧ ∀ prev mark rest, prev.endsOperand = false → mark ∈ closers →
    Lexes prev (cs ++ (mark.text ++ rest)) (ws ++ [mark]) mark.kind rest

namespace Ends

variable {rest : List Char}

theorem closer {mark : Token} (hmark : mark ∈ closers) : Ends (mark.text ++ rest) := by
  simp only [closers, List.mem_cons, List.not_mem_nil, or_false] at hmark
  rcases hmark with rfl | rfl | rfl <;> exact ⟨by rintro c ⟨⟩; decide, rfl⟩

/-- A name can end in front of an operator that a space comes before. -/
theorem operator {k : Kind} {op : Operator} (hk : k.operator? = some op) :
    Ends (' ' :: (k.spelling.toList ++ rest)) := by
  cases k <;> first | exact ⟨by rintro c ⟨⟩; decide, rfl⟩ | cases hk

theorem slash : Ends ('/' :: rest) := ⟨by rintro c ⟨⟩; decide, rfl⟩

theorem lparen : Ends ('(' :: rest) := ⟨by rintro c ⟨⟩; decide, rfl⟩

theorem lbracket : Ends ('[' :: rest) := ⟨by rintro c ⟨⟩; decide, rfl⟩

theorem equals : Ends ('=' :: rest) := ⟨by rintro c ⟨⟩; decide, rfl⟩

theorem nil : Ends [] := ⟨nofun, rfl⟩

end Ends

namespace Reads

variable {s s' : Symbol} {u v w : List Char} {t l r c : Expr}

theorem mono (h : Reads s u t) (hs : ∀ ws, Derives s ws t → Derives s' ws t) : Reads s' u t := by
  obtain ⟨ws, last, hd, hlast, hlexes⟩ := h
  exact ⟨ws, last, hs ws hd, hlast, hlexes⟩

/-- A path is an operand of every operator. -/
theorem path {n : Nat} (hn : n ≤ 7) (h : Reads .path u t) : Reads (.level n) u t :=
  h.mono fun _ hd => .loosen hn (Nat.le_refl 7) (.unary (.member hd))

theorem step {n : Nat} (hn : n ≤ 7) (h : Reads .step u t) : Reads (.level n) u t :=
  path hn (h.mono fun _ hd => .location (.relative (.step hd)))

theorem primary {n : Nat} (hn : n ≤ 7) (h : Reads .primary u t) : Reads (.level n) u t :=
  path hn (h.mono fun _ hd => .filter (.primary hd))

theorem loosen {m n : Nat} (hmn : m ≤ n) (hn : n ≤ 7) (h : Reads (.level n) u t) : Reads (.level m) u t :=
  h.mono fun _ hd => hd.loosen hmn hn

theorem name (a : Axis) (hw : Text.isName w = true) :
    Reads (.test a) w (.axis a a.principalKind none (some (String.ofList w))) := by
  refine ⟨[⟨.name, w⟩], .name, ?_, by decide, fun prev rest hprev hrest => lexes_name hprev hw hrest⟩
  have derives : Derives (.test a) [⟨.name, w⟩] _ := .name (a := a) (x := ⟨.name, w⟩) rfl
  rw [Token.name_of_isName hw, WrittenName.base?_of_isName hw] at derives
  exact derives

theorem nodeType (a : Axis) (hw : Text.isName w = true) {k : NodeKind}
    (hk : NodeKind.ofTypeName? (String.ofList w) = some k) :
    Reads (.test a) (w ++ ['(', ')']) (.axis a k none none) := by
  refine ⟨[⟨.name, w⟩, ⟨.lparen, ['(']⟩, ⟨.rparen, [')']⟩], .rparen, ?_, by decide, fun prev rest hprev hrest => ?_⟩
  · have name : Token.name ⟨.name, w⟩ = ⟨"", String.ofList w⟩ := Token.name_of_isName hw
    exact .nodeType rfl (by rw [name]) (by rw [name]; exact hk) rfl rfl
  · rw [List.append_assoc]
    exact (lexes_name hprev hw .lparen).append lexes_parens

/-- A test along an axis that is named in front of it. -/
theorem along {a : Axis} (hw : Text.isName w = true) (ha : Axis.ofName? (String.ofList w) = some a)
    (hk : Munch.keyword? w = none) (h : Reads (.tested a) u t) : Reads .step (w ++ ':' :: ':' :: u) t := by
  obtain ⟨ws, last, hd, hlast, hlexes⟩ := h
  have name : Token.name ⟨.axis, w⟩ = ⟨"", String.ofList w⟩ := Token.name_of_isName hw
  refine ⟨_, last, .axis (x := ⟨.axis, w⟩) (y := ⟨.colonColon, [':', ':']⟩) rfl (by rw [name]; exact ha) rfl hd, hlast,
    fun prev rest _ hrest => ?_⟩
  rw [List.append_assoc]
  exact (lexes_axis hw ha hk).append (hlexes .colonColon rest rfl hrest)

theorem attributeStep (h : Reads (.tested .attribute) u t) : Reads .step ('@' :: u) t := by
  obtain ⟨ws, last, hd, hlast, hlexes⟩ := h
  refine ⟨_, last, .attribute (x := ⟨.at, ['@']⟩) rfl hd, hlast, fun prev rest _ hrest => ?_⟩
  exact .lexeme rfl (by decide) (hlexes .at rest rfl hrest)

/-- What is read as an expression fills brackets. -/
theorem fills (h : Reads .expr u t) : Fills u t := by
  obtain ⟨ws, last, hd, -, hlexes⟩ := h
  exact ⟨ws, hd, fun prev mark rest hprev hmark =>
    (hlexes prev _ hprev (.closer hmark)).append (lexes_closer hmark rest)⟩

/-- A rule of a phrase and an expression in brackets behind it. -/
theorem bracketed (hu : Reads s u l) (hv : Fills v r)
    (hrule : ∀ {ws vs : List Token}, Derives s ws l → Derives .expr vs r →
      Derives s' (ws ++ ⟨.lbracket, ['[']⟩ :: (vs ++ [⟨.rbracket, [']']⟩])) t) :
    Reads s' (u ++ '[' :: (v ++ [']'])) t := by
  obtain ⟨ws, last, hd, -, hlexes⟩ := hu
  obtain ⟨vs, hd', hlexes'⟩ := hv
  refine ⟨_, .rbracket, hrule hd hd', by decide, fun prev rest hprev _ => ?_⟩
  rw [List.append_assoc, List.cons_append, List.append_assoc]
  have opening : Lexes last ('[' :: (v ++ ']' :: rest)) [⟨.lbracket, ['[']⟩] .lbracket (v ++ ']' :: rest) :=
    .lexeme rfl (by decide) .nothing
  have inside := hlexes' .lbracket ⟨.rbracket, [']']⟩ rest rfl (by decide)
  exact (hlexes prev _ hprev .lbracket).append (opening.append inside)

theorem predicate {a : Axis} (hu : Reads (.tested a) u t) (hv : Fills v c) :
    Reads (.tested a) (u ++ '[' :: (v ++ [']'])) (.predicate t c a.isReverse) :=
  hu.bracketed hv fun hd hd' => .testPredicate rfl rfl hd hd'

theorem quoted (hv : '\'' ∉ v) : Reads .primary ('\'' :: (v ++ ['\''])) (.string (String.ofList v)) := by
  refine ⟨[⟨.string, '\'' :: (v ++ ['\''])⟩], .string, ?_, by decide, fun prev rest _ _ => ?_⟩
  · have content : Token.content ⟨.string, '\'' :: (v ++ ['\''])⟩ = String.ofList v := by
      simp [Token.content, unquote]
    rw [← content]
    exact .string rfl
  · rw [List.cons_append, List.append_assoc]
    exact lexes_quoted hv

theorem dot : Reads .step ['.'] (.whole .self) :=
  ⟨[⟨.dot, ['.']⟩], .dot, .dot rfl, by decide, fun _ _ _ hrest => lexes_dot hrest⟩

theorem equals (hu : Reads (.level 3) u l) (hv : Reads (.level 4) v r) :
    Reads (.level 3) (u ++ '=' :: v) (.binary .eq l r) := by
  obtain ⟨ws, last, hd, -, hlexes⟩ := hu
  obtain ⟨vs, last', hd', hlast', hlexes'⟩ := hv
  refine ⟨_, last', .binary (x := ⟨.eq, ['=']⟩) (by decide) rfl hd hd', hlast', fun prev rest hprev hrest => ?_⟩
  rw [List.append_assoc, List.cons_append]
  have sign : Lexes last ('=' :: (v ++ rest)) [⟨.eq, ['=']⟩] .eq (v ++ rest) := .lexeme rfl (by decide) .nothing
  exact (hlexes prev _ hprev .equals).append (sign.append (hlexes' .eq rest rfl hrest))

/-- A rule of two phrases with an operator between them, which spaces keep apart. -/
theorem spaced {k : Kind} {op : Operator} {s'' : Symbol} (hk : k.operator? = some op) (hu : Reads s u l)
    (hv : Reads s' v r) (hrule : ∀ {ws vs : List Token}, Derives s ws l → Derives s' vs r →
      Derives s'' (ws ++ ⟨k, k.spelling.toList⟩ :: vs) t) :
    Reads s'' (u ++ ' ' :: (k.spelling.toList ++ ' ' :: v)) t := by
  obtain ⟨ws, last, hd, hlast, hlexes⟩ := hu
  obtain ⟨vs, last', hd', hlast', hlexes'⟩ := hv
  refine ⟨_, last', hrule hd hd', hlast', fun prev rest hprev hrest => ?_⟩
  rw [List.append_assoc, List.cons_append, List.append_assoc, List.cons_append]
  have starts : k.endsOperand = false := by
    cases k <;> first | rfl | cases hk
  have sign := (lexes_operator hlast hk (v ++ rest)).space (List.cons_ne_nil _ _)
  have right := (hlexes' k rest starts hrest).space (List.ne_nil_of_length_pos hd'.length_pos)
  exact (hlexes prev _ hprev (.operator hk)).append (sign.append right)

theorem binary {k : Kind} {op : Operator} {n : Nat} (hn : k ∈ operatorsAt n) (hk : k.operator? = some op)
    (hu : Reads (.level n) u l) (hv : Reads (.level (n + 1)) v r) :
    Reads (.level n) (u ++ ' ' :: (k.spelling.toList ++ ' ' :: v)) (.binary op l r) :=
  hu.spaced hk hv fun hd hd' => .binary hn hk hd hd'

theorem and (hu : Reads (.level 2) u l) (hv : Reads (.level 3) v r) :
    Reads (.level 2) (u ++ (" and ".toList ++ v)) (.binary .and l r) :=
  hu.binary (k := .and) (by decide) rfl hv

/-- A call without arguments, of a function that has not the name of a node type. -/
theorem call (hw : Text.isName w = true) (hk : NodeKind.ofTypeName? (String.ofList w) = none) :
    Reads .primary (w ++ ['(', ')']) (.function none (String.ofList w) []) := by
  refine ⟨[⟨.name, w⟩, ⟨.lparen, ['(']⟩, ⟨.rparen, [')']⟩], .rparen, ?_, by decide, fun prev rest hprev _ => ?_⟩
  · have derives := Derives.call (x := ⟨.name, w⟩) (y := ⟨.lparen, ['(']⟩) (z := ⟨.rparen, [')']⟩)
      (Token.isFunctionName_of_isName hw hk) rfl rfl
    rw [Token.name_of_isName hw] at derives
    exact derives
  · rw [List.append_assoc]
    exact (lexes_name hprev hw .lparen).append lexes_parens

/-- A call with two arguments. -/
theorem callWith (hw : Text.isName w = true) (hk : NodeKind.ofTypeName? (String.ofList w) = none)
    (hu : Fills u l) (hv : Fills v r) :
    Reads .primary (w ++ '(' :: (u ++ ',' :: (v ++ [')']))) (.function none (String.ofList w) [l, r]) := by
  obtain ⟨ws, hd, hlexes⟩ := hu
  obtain ⟨vs, hd', hlexes'⟩ := hv
  refine ⟨⟨.name, w⟩ :: ⟨.lparen, ['(']⟩ :: (ws ++ ⟨.comma, [',']⟩ :: vs ++ [⟨.rparen, [')']⟩]), .rparen, ?_, by decide,
    fun prev rest hprev _ => ?_⟩
  · have arguments : DerivesArguments (ws ++ ⟨.comma, [',']⟩ :: vs) [l, r] := .more rfl hd (.last hd')
    have derives := Derives.callWith (x := ⟨.name, w⟩) (y := ⟨.lparen, ['(']⟩) (z := ⟨.rparen, [')']⟩)
      (Token.isFunctionName_of_isName hw hk) rfl rfl arguments
    rw [Token.name_of_isName hw] at derives
    exact derives
  · simp only [List.append_assoc, List.cons_append, List.nil_append]
    have opening : Lexes .name ('(' :: (u ++ ',' :: (v ++ ')' :: rest))) [⟨.lparen, ['(']⟩] .lparen
        (u ++ ',' :: (v ++ ')' :: rest)) := .lexeme rfl (by decide) .nothing
    have first := hlexes .lparen ⟨.comma, [',']⟩ (v ++ ')' :: rest) rfl (by decide)
    have second := hlexes' .comma ⟨.rparen, [')']⟩ rest rfl (by decide)
    have arguments := first.append second
    rw [List.append_assoc] at arguments
    exact (lexes_name hprev hw .lparen).append (opening.append arguments)

/-- A path from anywhere in the document. -/
theorem anywhere (h : Reads .relative u t) : Reads .location ('/' :: '/' :: u) (.slashSlash (.whole .root) t) := by
  obtain ⟨ws, last, hd, hlast, hlexes⟩ := h
  refine ⟨_, last, .rootSlashSlash (x := ⟨.slashSlash, ['/', '/']⟩) rfl hd, hlast, fun prev rest _ hrest => ?_⟩
  exact .lexeme rfl (by decide) (hlexes .slashSlash rest rfl hrest)

/-- **A text that reads as an expression parses to it.** -/
theorem parse {text : String} (h : Reads .expr text.toList t) : Expr.parse text = .ok t := by
  obtain ⟨ws, last, hd, -, hlexes⟩ := h
  have lexes := hlexes .unknown [] rfl .nil
  rw [List.append_nil] at lexes
  have scanned : (scan text 0).lexemes.map Lexeme.token = ws ∧ ∃ n, (scan text 0).ending = .atEnd n :=
    lexes.scan nofun rfl (Session.fresh_rest text) (Nat.lt_succ_self _)
  obtain ⟨htokens, n, hending⟩ := scanned
  have derives : Derives .expr ((scan text 0).lexemes.map Lexeme.token) t := htokens ▸ hd
  obtain ⟨phrase, q, hread, htree⟩ := Phrase.ofScan_of_derives (m := (Session.fresh text 0).stop) hending derives
  rw [Expr.parse, Expr.parseFrom_eq, Phrase.ofText, hread, ← htree]

end Reads

end StylesheetReversal.Path
