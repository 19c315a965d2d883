import StylesheetReversal.Proofs.Path.Respacing
/-!
# Expressions inside expressions

A text that parses can be put, as it is, wherever the grammar asks for an expression.  What a lexeme is depends on what
stands before it only as far as an operand has ended there (`munch_congr`), and with a mark that closes brackets no
lexeme goes on (`NoCloser.closed`).  So the text has the same lexemes between brackets as it has alone (`Lexes.closed`),
whatever characters it begins and ends with, and fills any brackets (`Fills.of_parse`).  In parentheses it is a phrase
that can stand by any operator, step or predicate (`Expr.parse_composes`).
-/
namespace StylesheetReversal.Path

/-! ## Behind other lexemes -/

/-- Of the lexeme before it, a lexeme depends only on whether an operand can end there. -/
theorem munch_congr {prev prev' : Kind} (h : prev.endsOperand = prev'.endsOperand) (text : List Char) :
    munch prev text = munch prev' text := by
  have kind : ∀ w rest, Munch.wordKind prev w rest = Munch.wordKind prev' w rest := fun w rest => by
    rw [Munch.wordKind, Munch.wordKind, h]
  have word : Munch.word prev text = Munch.word prev' text := by
    simp only [Munch.word, kind]
  cases text with
  | nil => rfl
  | cons c cs => rw [munch, munch, word, h]

theorem Lexes.congr {prev prev' last : Kind} {cs rest : List Char} {ws : List Token}
    (h : prev.endsOperand = prev'.endsOperand) (hws : ws ≠ []) (hl : Lexes prev cs ws last rest) :
    Lexes prev' cs ws last rest := by
  cases hl with
  | nothing => exact absurd rfl hws
  | lexeme hm hk h' => exact .lexeme (munch_congr h _ ▸ hm) hk h'

/-! ## In front of closing marks -/

section Closed

variable {mark : Token}

theorem closer_breaks (hmark : mark ∈ closers) : ∃ c ∈ breaks, Text.isSpace c = false ∧ mark.text = [c] := by
  simp only [closers, List.mem_cons, List.not_mem_nil, or_false] at hmark
  rcases hmark with rfl | rfl | rfl <;> exact ⟨_, by decide, by decide, rfl⟩

/-- Nothing dense reaches into the mark. -/
theorem Dense.prefix_of_closed {v w : List Char} (hv : Dense v) (hmark : mark ∈ closers) (more : List Char)
    (h : v <+: w ++ (mark.text ++ more)) : v <+: w := by
  obtain ⟨c, hc, -, htext⟩ := closer_breaks hmark
  rw [htext] at h
  rcases List.prefix_or_prefix_of_prefix h (List.prefix_append w _) with hshort | ⟨u, rfl⟩
  · exact hshort
  · rw [List.prefix_append_right_inj] at h
    cases u with
    | nil => exact (List.append_nil w).symm ▸ List.prefix_rfl
    | cons d u =>
      obtain ⟨rfl, -⟩ := List.cons_prefix_cons.1 h
      exact absurd hc (hv d (List.mem_append_right w List.mem_cons_self))

theorem dropWhile_closed (hmark : mark ∈ closers) (cs more : List Char) :
    (cs ++ (mark.text ++ more)).dropWhile Text.isSpace = cs.dropWhile Text.isSpace ++ (mark.text ++ more) := by
  obtain ⟨c, -, hspace, htext⟩ := closer_breaks hmark
  rw [htext]
  induction cs with
  | nil => exact List.dropWhile_cons_of_neg (by rw [hspace]; decide)
  | cons d cs ih =>
    by_cases hd : Text.isSpace d = true
    · rw [List.cons_append, List.dropWhile_cons_of_pos hd, List.dropWhile_cons_of_pos hd, ih]
    · rw [List.cons_append, List.dropWhile_cons_of_neg hd, List.dropWhile_cons_of_neg hd]
      rfl

/-- With a closing mark no lexeme goes on. -/
theorem NoCloser.closed (hmark : mark ∈ closers) (rest more : List Char) :
    NoCloser rest (rest ++ (mark.text ++ more)) := by
  refine ⟨fun v hv hfront => hv.prefix_of_closed hmark more hfront, ?_⟩
  have colons : Dense [':', ':'] := by decide
  rw [Munch.beforeColons, Munch.beforeColons, dropWhile_closed hmark, Bool.eq_iff_iff, List.isPrefixOf_iff_prefix,
    List.isPrefixOf_iff_prefix]
  exact ⟨colons.prefix_of_closed hmark more, fun h => h.trans (List.prefix_append _ _)⟩

/-- **Lexemes are the same in front of a closing mark** as at the end of a text. -/
theorem Lexes.closed {prev last : Kind} {cs behind : List Char} {ws : List Token} (h : Lexes prev cs ws last behind)
    (hmark : mark ∈ closers) (more : List Char) :
    Lexes prev (cs ++ (mark.text ++ more)) ws last (behind ++ (mark.text ++ more)) := by
  induction h with
  | nothing => exact .nothing
  | @lexeme prev k _ cs w behind _ _ hm hk _ ih =>
    have front : w ++ behind = cs.dropWhile Text.isSpace := by
      have := munch_append prev (cs.dropWhile Text.isSpace)
      rwa [hm] at this
    have nonempty := ne_nil_of_munch hm hk
    refine .lexeme ?_ hk ih
    rw [dropWhile_closed hmark, ← front, List.append_assoc]
    rw [← front] at hm
    exact (NoCloser.closed hmark behind more).munch nonempty hm

end Closed

/-! ## Texts that parse -/

/-- The sessions of a scan stand at the lexemes of its text, with white space behind the last of them. -/
theorem Session.lexes : ∀ {sessions : List Session} {s : Session} {prev : Option Kind},
    (s :: sessions).IsChain (fun s next => s.advance = (next, none)) → Tokenized prev s.rest sessions →
    (∀ next ∈ sessions, next.kind ≠ .eof) → ∃ last behind,
      Lexes s.kind s.rest (sessions.map fun next => next.lexeme.token) last behind ∧
        ∀ c ∈ behind, Text.isSpace c = true
  | [], s, _, _, htokenized, _ => by
    generalize s.rest = text at htokenized ⊢
    cases htokenized with
    | nothing hblank => exact ⟨s.kind, text, .nothing, hblank⟩
  | next :: sessions, s, prev, hchain, htokenized, hkinds => by
    obtain ⟨hadvance, hchain⟩ := List.isChain_cons_cons.1 hchain
    obtain ⟨hkind, hkinds⟩ := List.forall_mem_cons.1 hkinds
    have hmunch := (munch_of_advance hadvance).1
    generalize s.rest = text at htokenized hmunch ⊢
    cases htokenized with
    | lexeme _ _ _ htokenized =>
      obtain ⟨last, behind, hlexes, hblank⟩ := lexes hchain htokenized hkinds
      exact ⟨last, behind, .lexeme hmunch hkind hlexes, hblank⟩

/-- **A text that parses fills any brackets.** -/
theorem Fills.of_parse {text : String} {t : Expr} (h : Expr.parse text = .ok t) : Fills text.toList t := by
  obtain ⟨htokens, hd⟩ := Expr.derives_of_parse h
  obtain ⟨⟨n, hending⟩, -⟩ := atEnd_of_tokenize htokens
  have unread : (none : Option Kind).getD .unknown = (Session.fresh text 0).kind := rfl
  obtain ⟨sessions, hlexemes, hchain, htokenized⟩ := Session.scan_tokenized unread (Nat.lt_succ_self _) hending
  have kinds : ∀ next ∈ sessions, next.kind ≠ .eof := fun next hnext =>
    (scan_windows text).kind_ne_eof next.lexeme (hlexemes ▸ List.mem_map_of_mem hnext)
  rw [← Session.fresh_rest text]
  obtain ⟨last, behind, hlexes, hblank⟩ := Session.lexes hchain htokenized kinds
  have tokens : (sessions.map fun next => next.lexeme.token) = (scan text 0).lexemes.map Lexeme.token := by
    rw [scan, ← hlexemes, List.map_map]
    rfl
  rw [tokens] at hlexes
  refine ⟨_, hd, fun prev mark rest hprev hmark => ?_⟩
  -- at the start of a text as behind `prev`, no operand has ended
  have start : (Session.fresh text 0).kind.endsOperand = prev.endsOperand := hprev.symm
  have inside := (hlexes.closed hmark rest).congr start (List.ne_nil_of_length_pos hd.length_pos)
  exact inside.append ((lexes_closer hmark rest).spaces (List.cons_ne_nil _ _) hblank)

/-! ## Names of nodes -/

/-- The name tests, with the qualifier and the name that they ask for. -/
inductive NameTest : String → Option String → Option String → Prop
  | any : NameTest "*" none none
  | plain {base : String} : Text.isName base.toList = true → NameTest base none (some base)
  | qualified {qualifier base : String} : Text.isName qualifier.toList = true → Text.isName base.toList = true →
      NameTest (qualifier ++ ":" ++ base) (some qualifier) (some base)
  | anyOf {qualifier : String} : Text.isName qualifier.toList = true →
      NameTest (qualifier ++ ":*") (some qualifier) none

/-- The steps that test a name, along the axis of children, behind `@`, or along an axis that is named. -/
inductive NameStep : String → Expr → Prop
  | child {x : String} {qualifier name : Option String} : NameTest x qualifier name →
      NameStep x (.axis .child .element qualifier name)
  | abbreviated {x : String} {qualifier name : Option String} : NameTest x qualifier name →
      NameStep ("@" ++ x) (.axis .attribute .attribute qualifier name)
  | along {x axis : String} {a : Axis} {qualifier name : Option String} : Axis.ofName? axis = some a →
      NameTest x qualifier name → NameStep (axis ++ "::" ++ x) (.axis a a.principalKind qualifier name)

section Qualified

variable {prev : Kind} {qualifier base rest : List Char}

theorem munch_qualified (hq : Text.isName qualifier = true) (hbase : Text.isName base = true)
    (hr : ∀ c ∈ rest.head?, Text.isNameChar c = false ∧ c ≠ ':') :
    munch prev (qualifier ++ ':' :: (base ++ rest)) = ⟨.name, qualifier ++ ':' :: base, rest, none⟩ := by
  obtain ⟨before, behind⟩ := Munch.takeWhile_until (v := base ++ rest) (Text.isNameChar_of_isName hq)
    (show Text.isNameChar ':' = false by decide)
  cases base with
  | nil => cases hbase
  | cons c cs =>
    have chars := (List.forall_mem_cons.1 (Text.isNameChar_of_isName hbase)).2
    have parts := takeWhile_name chars hr
    have start : Text.isNameStart c = true := by
      rw [Text.isName, Bool.and_eq_true] at hbase
      exact hbase.1
    have noStar : c ≠ '*' := by
      rintro rfl
      exact absurd start (by decide)
    rw [munch_isName hq]
    unfold Munch.word
    rw [before, behind]
    simp [start, noStar, parts]

theorem munch_anyOf (hq : Text.isName qualifier = true) (rest : List Char) :
    munch prev (qualifier ++ ':' :: '*' :: rest) = ⟨.name, qualifier ++ [':', '*'], rest, none⟩ := by
  obtain ⟨before, behind⟩ := Munch.takeWhile_until (v := '*' :: rest) (Text.isNameChar_of_isName hq)
    (show Text.isNameChar ':' = false by decide)
  rw [munch_isName hq]
  unfold Munch.word
  rw [before, behind]
  rfl

end Qualified

namespace Reads

variable {s : Symbol} {u v w : List Char} {t l r : Expr}

/-- A name with a colon in it is a test if it is taken off the text as a whole. -/
theorem colonName (a : Axis) (hq : Text.isName u = true)
    (hm : ∀ prev rest, Ends rest → munch prev (u ++ ':' :: v ++ rest) = ⟨.name, u ++ ':' :: v, rest, none⟩) :
    Reads (.test a) (u ++ ':' :: v)
      (.axis a a.principalKind (some (String.ofList u)) (WrittenName.base? ⟨"", String.ofList v⟩)) := by
  refine ⟨[⟨.name, u ++ ':' :: v⟩], .name, ?_, by decide, fun prev rest _ hrest => .lexeme ?_ (by decide) .nothing⟩
  · have derives : Derives (.test a) [⟨.name, u ++ ':' :: v⟩] _ := .name (a := a) (x := ⟨.name, u ++ ':' :: v⟩) rfl
    rw [Token.name, WrittenName.ofChars_append hq, WrittenName.qualifier?_of_isName hq] at derives
    exact derives
  · rw [List.append_assoc, not_isSpace_of_isName hq, ← List.append_assoc, hm prev rest hrest]

theorem star (a : Axis) : Reads (.test a) ['*'] (.axis a a.principalKind none none) := by
  refine ⟨[⟨.star, ['*']⟩], .star, .star rfl, by decide, fun prev rest hprev _ => .lexeme ?_ (by decide) .nothing⟩
  rw [List.singleton_append, List.dropWhile_cons_of_neg (by decide), munch_star, if_neg (by rw [hprev]; decide)]

end Reads

theorem NameTest.reads {x : String} {qualifier name : Option String} (h : NameTest x qualifier name) (a : Axis) :
    Reads (.tested a) x.toList (.axis a a.principalKind qualifier name) := by
  refine Reads.mono ?_ fun _ hd => .test hd
  cases h with
  | any => exact .star a
  | plain hbase =>
    have := Reads.name a hbase
    rwa [String.ofList_toList] at this
  | @qualified qualifier base hq hbase =>
    have := Reads.colonName a hq (v := base.toList) fun prev rest hrest => by
      rw [List.append_assoc]
      exact munch_qualified hq hbase hrest.head
    rw [WrittenName.base?_of_isName hbase, String.ofList_toList, String.ofList_toList] at this
    rwa [String.toList_append, String.toList_append, List.append_assoc]
  | @anyOf qualifier hq =>
    have := Reads.colonName a hq (v := ['*']) fun prev rest _ => by
      rw [List.append_assoc]
      exact munch_anyOf hq rest
    rw [String.ofList_toList] at this
    rwa [String.toList_append]

/-- An axis is written with a name that is no keyword. -/
theorem axis_written {x : String} {a : Axis} (h : Axis.ofName? x = some a) :
    Text.isName x.toList = true ∧ Munch.keyword? x.toList = none := by
  have names : ∀ x ∈ axisNames, Text.isName x.toList = true ∧ Munch.keyword? x.toList = none := by decide
  exact names x ((ofName?_isSome_iff x).1 (by rw [h]; rfl))

theorem NameStep.reads {x : String} {t : Expr} (h : NameStep x t) : Reads .step x.toList t := by
  cases h with
  | child h => exact (h.reads .child).mono fun _ hd => .child hd
  | abbreviated h =>
    rw [String.toList_append]
    exact (h.reads .attribute).attributeStep
  | @along x axis a _ _ ha h =>
    obtain ⟨hname, hkeyword⟩ := axis_written ha
    rw [String.toList_append, String.toList_append, List.append_assoc]
    exact .along hname (by rw [String.ofList_toList, ha]) hkeyword (h.reads a)

/-! ## Phrases around an expression -/

section Slashes

variable {prev : Kind} {text : List Char}

theorem munch_slash (h : text.head? ≠ some '/') : munch prev ('/' :: text) = ⟨.slash, ['/'], text, none⟩ := by
  cases text with
  | nil => rfl
  | cons c cs =>
    have noSlash : '/' ≠ c := fun hc => h (by rw [hc]; rfl)
    have found : Munch.fixed? ('/' :: c :: cs) = some (['/'], .slash) := by
      simp [Munch.fixed?, Munch.fixed, List.isPrefixOf, noSlash]
    have noNumber : ¬ Munch.startsNumber ('/' :: c :: cs) = true := by
      rw [startsNumber_cons]
      rintro (hd | ⟨hc, -⟩)
      · exact absurd hd (by decide)
      · exact absurd hc (by decide)
    rw [munch_mark prev noNumber (by decide) (by decide) found]
    rfl

/-- In front of a step, a slash is not the first of two. -/
theorem Lexes.slash {k last : Kind} {rest : List Char} {ws : List Token} {s : Symbol} {t : Expr} (hd : Derives s ws t)
    (hs : .slash ∉ s.firsts ∧ .slashSlash ∉ s.firsts) (h : Lexes k text ws last rest) :
    Lexes prev ('/' :: text) [⟨.slash, ['/']⟩] .slash text := by
  refine .lexeme ?_ (by decide) .nothing
  rw [List.dropWhile_cons_of_neg (by decide)]
  refine munch_slash fun hhead => ?_
  -- if a slash followed, the step would start with it
  obtain ⟨x, vs, rfl, hx⟩ := hd.head
  obtain ⟨cs, rfl⟩ : ∃ cs, text = '/' :: cs := List.head?_eq_some_iff.1 hhead
  cases h with
  | lexeme hm _ _ =>
    rw [List.dropWhile_cons_of_neg (by decide)] at hm
    by_cases hc : cs.head? = some '/'
    · obtain ⟨cs, rfl⟩ := List.head?_eq_some_iff.1 hc
      have double : munch k ('/' :: '/' :: cs) = ⟨.slashSlash, ['/', '/'], cs, none⟩ := rfl
      rw [double] at hm
      cases hm
      exact hs.2 hx
    · rw [munch_slash hc] at hm
      cases hm
      exact hs.1 hx

end Slashes

namespace Reads

variable {s : Symbol} {u v w : List Char} {t l r c : Expr}

theorem parens (h : Fills u t) : Reads .primary ('(' :: (u ++ [')'])) t := by
  obtain ⟨ws, hd, hlexes⟩ := h
  refine ⟨_, .rparen, .parens (x := ⟨.lparen, ['(']⟩) (y := ⟨.rparen, [')']⟩) rfl rfl hd, by decide,
    fun prev rest _ _ => ?_⟩
  rw [List.cons_append, List.append_assoc]
  exact .lexeme rfl (by decide) (hlexes .lparen ⟨.rparen, [')']⟩ rest rfl (by decide))

theorem negation (h : Reads (.level 7) u t) : Reads (.level 7) ('-' :: u) (.negation t) := by
  obtain ⟨ws, last, hd, hlast, hlexes⟩ := h
  refine ⟨_, last, .negation (x := ⟨.minus, ['-']⟩) rfl hd, hlast, fun prev rest _ hrest => ?_⟩
  exact .lexeme rfl (by decide) (hlexes .minus rest rfl hrest)

theorem union (hu : Reads .union u l) (hv : Reads .path v r) :
    Reads .union (u ++ ' ' :: (Kind.union.spelling.toList ++ ' ' :: v)) (.binary .union l r) :=
  hu.spaced (k := .union) rfl hv fun hd hd' => .union rfl hd hd'

theorem filterPredicate (hu : Reads .filter u t) (hv : Fills v c) :
    Reads .filter (u ++ '[' :: (v ++ [']'])) (.predicate t c false) :=
  hu.bracketed hv fun hd hd' => .filterPredicate rfl rfl hd hd'

theorem slash (hu : Reads .filter u l) (hv : Reads .relative v r) : Reads .path (u ++ '/' :: v) (.slash l r) := by
  obtain ⟨ws, last, hd, -, hlexes⟩ := hu
  obtain ⟨vs, last', hd', hlast', hlexes'⟩ := hv
  refine ⟨_, last', .filterSlash (x := ⟨.slash, ['/']⟩) rfl hd hd', hlast', fun prev rest hprev hrest => ?_⟩
  rw [List.append_assoc, List.cons_append]
  have right := hlexes' .slash rest rfl hrest
  exact (hlexes prev _ hprev .slash).append ((Lexes.slash hd' (by decide) right).append right)

theorem slashSlash (hu : Reads .filter u l) (hv : Reads .relative v r) :
    Reads .path (u ++ '/' :: '/' :: v) (.slashSlash l r) := by
  obtain ⟨ws, last, hd, -, hlexes⟩ := hu
  obtain ⟨vs, last', hd', hlast', hlexes'⟩ := hv
  refine ⟨_, last', .filterSlashSlash (x := ⟨.slashSlash, ['/', '/']⟩) rfl hd hd', hlast',
    fun prev rest hprev hrest => ?_⟩
  rw [List.append_assoc, List.cons_append, List.cons_append]
  have marks : Lexes last ('/' :: '/' :: (v ++ rest)) [⟨.slashSlash, ['/', '/']⟩] .slashSlash (v ++ rest) :=
    .lexeme rfl (by decide) .nothing
  exact (hlexes prev _ hprev .slash).append (marks.append (hlexes' .slashSlash rest rfl hrest))

end Reads

theorem Fills.space {u : List Char} {t : Expr} (h : Fills u t) : Fills (' ' :: u) t := by
  obtain ⟨ws, hd, hlexes⟩ := h
  exact ⟨ws, hd, fun prev mark rest hprev hmark => (hlexes prev mark rest hprev hmark).space (by simp)⟩

namespace Expr

/-- **Expressions are composed by composing their texts.**  Whatever two texts are that parse, the one in parentheses
is the same tree, and with the other it makes up the operation, the union, the predicate and the call that are written
with them; a step behind it is joined to it. -/
theorem parse_composes {e f : String} {t u : Expr} (he : parse e = .ok t) (hf : parse f = .ok u) :
    parse ("(" ++ e ++ ")") = .ok t ∧
    (∀ (k : Kind) op, k.operator? = some op → op ≠ .union →
      parse ("(" ++ e ++ ") " ++ k.spelling ++ " (" ++ f ++ ")") = .ok (.binary op t u)) ∧
    parse ("(" ++ e ++ ") | (" ++ f ++ ")") = .ok (.binary .union t u) ∧
    parse ("-(" ++ e ++ ")") = .ok (.negation t) ∧
    parse ("(" ++ e ++ ")[" ++ f ++ "]") = .ok (.predicate t u false) ∧
    (∀ x step, NameStep x step → parse ("(" ++ e ++ ")/" ++ x) = .ok (.slash t step) ∧
      parse ("(" ++ e ++ ")//" ++ x) = .ok (.slashSlash t step)) ∧
    (∀ g, Text.isName g.toList = true → NodeKind.ofTypeName? g = none →
      parse (g ++ "(" ++ e ++ ", " ++ f ++ ")") = .ok (.function none g [t, u])) := by
  have left := Fills.of_parse he
  have right := Fills.of_parse hf
  have primary := Reads.parens left
  have other := Reads.parens right
  have filter : Reads .filter ('(' :: (e.toList ++ [')'])) t := primary.mono fun _ hd => .primary hd
  have path {cs s} (h : Reads .path cs s) : Reads .expr cs s := h.path (by omega)
  have parses {text cs s} (h : Reads .expr cs s) (hcs : text.toList = cs) : parse text = .ok s := (hcs ▸ h).parse
  refine ⟨?_, fun k op hk hop => ?_, ?_, ?_, ?_, fun x step hx => ⟨?_, ?_⟩, fun g hg hkind => ?_⟩
  · exact parses (.primary (by omega) primary) (by simp)
  · obtain ⟨hmem, hone, hsix⟩ := mem_operatorsAt hk hop
    have operation := Reads.binary hmem hk (.primary (by omega) primary) (.primary (by omega) other)
    exact parses (operation.loosen hone (by omega)) (by simp)
  · have member : Reads .union ('(' :: (e.toList ++ [')'])) t := filter.mono fun _ hd => .member (.filter hd)
    have all := member.union (other.mono fun _ hd => .filter (.primary hd))
    exact parses (all.mono fun _ hd => .loosen (by omega) (Nat.le_refl 7) (.unary hd)) (by simp [Kind.spelling])
  · have negated := Reads.negation (.primary (by omega) primary)
    exact parses (negated.loosen (by omega) (by omega)) (by simp)
  · exact parses (path ((filter.filterPredicate right).mono fun _ hd => .filter hd)) (by simp)
  · exact parses (path (filter.slash (hx.reads.mono fun _ hd => .step hd))) (by simp)
  · exact parses (path (filter.slashSlash (hx.reads.mono fun _ hd => .step hd))) (by simp)
  · have call := Reads.callWith hg (by rwa [String.ofList_toList]) left right.space
    rw [String.ofList_toList] at call
    exact parses (.primary (by omega) call) (by simp)

/-- Neither the slash that ends the one text nor the space that ends the other runs into what is written around them. -/
theorem parse_composes_root :
    parse "/" = .ok (.whole .root) ∧ parse "-1 " = .ok (.negation (.number "1")) ∧
    parse "(/) * (-1 )" = .ok (.binary .multiply (.whole .root) (.negation (.number "1"))) ∧
    parse "(/)//attribute::p:*" = .ok (.slashSlash (.whole .root) (.axis .attribute .attribute (some "p") none)) ∧
    parse "or(/, -1 )" = .ok (.function none "or" [.whole .root, .negation (.number "1")]) := by
  have he : parse "/" = .ok (.whole .root) := by
    rw [parse, parseFrom_eq]
    rfl
  have hf : parse "-1 " = .ok (.negation (.number "1")) := by
    rw [parse, parseFrom_eq]
    rfl
  have test : NameTest ("p" ++ ":*") (some "p") none := .anyOf (by decide)
  have along : NameStep ("attribute" ++ "::" ++ "p:*") (.axis .attribute .attribute (some "p") none) := .along rfl test
  obtain ⟨-, operation, -, -, -, step, call⟩ := parse_composes he hf
  exact ⟨he, hf, operation .multiply .multiply rfl (by decide), (step _ _ along).2, call "or" (by decide) rfl⟩

end Expr

end StylesheetReversal.Path
