import StylesheetReversal.Proofs.Path.Moving
import StylesheetReversal.Proofs.Path.Writing
/-!
# White space between lexemes

A lexeme that is taken off a text is taken off other texts as well, if what follows it there is `NoCloser`: nothing
stands directly behind the lexeme that did not before, unless it is a mark that closes brackets, and colons are still
ahead if they were (`NoCloser.munch`).  White space between lexemes may therefore be changed and put in, and where the
lexemes touched there need not be any (`Session.respaced`).  The grammar does not look at where the lexemes stand, so
neither the tree nor the cause of a fault depends on white space (`parse_respaced`).
-/
namespace StylesheetReversal.Path

/-- The characters with which no lexeme goes on: white space and the marks that close what stands in front of them. -/
def breaks : List Char := [' ', '\t', '\r', '\n', ')', ']', ',']

/-- Neither white space nor a closing mark is among the characters. -/
def Dense (v : List Char) : Prop := ∀ c ∈ v, c ∉ breaks

instance (v : List Char) : Decidable (Dense v) := List.decidableBAll (· ∉ breaks) v

theorem mem_breaks_of_isSpace {c : Char} (h : Text.isSpace c = true) : c ∈ breaks := by
  simp only [Text.isSpace, Bool.or_eq_true, beq_iff_eq] at h
  rcases h with ((rfl | rfl) | rfl) | rfl <;> decide

/-- What stands at the front of the other text, up to its first white space or closing mark, stands at the front of this
one too, and both texts or none of them begin with colons. -/
structure NoCloser (rest other : List Char) : Prop where
  close : ∀ v, Dense v → v <+: other → v <+: rest
  colons : Munch.beforeColons other = Munch.beforeColons rest

/-! ## Names and numbers are dense -/

namespace Dense

variable {v w : List Char}

theorem append (hv : Dense v) (hw : Dense w) : Dense (v ++ w) := List.forall_mem_append.2 ⟨hv, hw⟩

theorem tail (hv : Dense v) : Dense v.tail := fun c hc => hv c (List.mem_of_mem_tail hc)

/-- Characters are dense if they are of a kind that no break is of. -/
theorem of_all {p : Char → Bool} (hp : breaks.any p = false) (h : ∀ c ∈ w, p c = true) : Dense w :=
  fun c hc hmem => List.any_eq_false.1 hp c hmem (h c hc)

theorem of_isName (h : Text.isName w = true) : Dense w :=
  of_all (by decide) (Text.isNameChar_of_isName h)

theorem of_digits (h : ∀ c ∈ w, c.isDigit = true) : Dense w := of_all (by decide) h

end Dense

theorem Spells.dense {w : List Char} (h : Spells w) : Dense w := by
  cases h with
  | plain hbase => exact .of_isName hbase
  | qualified hqualifier hbase =>
    exact (Dense.of_isName hqualifier).append (Dense.append (v := [':']) (by decide) (.of_isName hbase))
  | wildcard hqualifier => exact (Dense.of_isName hqualifier).append (by decide)

theorem Numeral.dense {w : List Char} (h : Numeral w) : Dense w := by
  cases h with
  | whole _ hall => exact .of_digits hall
  | pointed _ hall hmore => exact (Dense.of_digits hall).append (Dense.append (v := ['.']) (by decide) (.of_digits hmore))
  | fraction _ hall => exact Dense.append (v := ['.']) (by decide) (.of_digits hall)

/-! ## One lexeme -/

/-- The kind of a name depends on its characters, on what stands before it and on the colons behind it. -/
theorem Munch.word_eq (prev : Kind) (text : List Char) : word prev text =
    ⟨if ':' ∈ (word prev text).taken then .name else wordKind prev (word prev text).taken (word prev text).rest,
      (word prev text).taken, (word prev text).rest, none⟩ := by
  rcases word_cases prev text with plain | ⟨hk, hcolon⟩
  · have noColon : ':' ∉ text.takeWhile Text.isNameChar := by
      intro hmem
      exact absurd (List.all_eq_true.1 List.all_takeWhile ':' hmem) (by decide)
    rw [plain]
    dsimp only
    rw [if_neg noColon]
  · rw [if_pos hcolon, ← hk, ← word_defect prev text]

section Munched

variable {prev k : Kind} {w rest other : List Char}

theorem ne_nil_of_munch {front : List Char} (hm : munch prev front = ⟨k, w, rest, none⟩) (hk : k ≠ .eof) : w ≠ [] := by
  have ahead : (munch prev front).kind ≠ .eof := by rwa [hm]
  have := munch_taken_ne_nil prev (munch_nil_of_kind ahead)
  rwa [hm] at this

namespace NoCloser

/-- What starts the lexeme together with what follows does so in front of this text too. -/
theorem lift (h : NoCloser rest other) (hw : w ≠ []) {v : List Char} (hv : Dense v.tail) (hfront : v <+: w ++ other) :
    v <+: w ++ rest := by
  rcases List.prefix_or_prefix_of_prefix hfront (List.prefix_append w other) with hshort | ⟨u, rfl⟩
  · exact hshort.trans (List.prefix_append w rest)
  · rw [List.prefix_append_right_inj] at hfront ⊢
    rw [List.tail_append_of_ne_nil hw] at hv
    exact h.close u (fun c hc => hv c (List.mem_append_right w.tail hc)) hfront

/-- What is longest in front of this text is longest in front of the other. -/
theorem taken_eq (h : NoCloser rest other) (hw : w ≠ []) {v behind : List Char} (hv : Dense v.tail)
    (happend : v ++ behind = w ++ other) (hle : w.length ≤ v.length)
    (hlongest : v <+: w ++ rest → v.length ≤ w.length) : v = w ∧ behind = other :=
  List.append_inj happend (Nat.le_antisymm (hlongest (h.lift hw hv ⟨behind, happend⟩)) hle)

theorem number (h : NoCloser rest other) (hs : Munch.startsNumber (w ++ rest) = true)
    (hm : Munch.number (w ++ rest) = ⟨k, w, rest, none⟩) :
    Munch.startsNumber (w ++ other) = true ∧ Munch.number (w ++ other) = ⟨k, w, other, none⟩ := by
  have eq := hm.symm.trans (Munch.number_eq (congrArg Munch.defect hm))
  injection eq with hkind htaken hbehind
  have numeral : Numeral w := htaken ▸ Munch.numeral_decimal hs
  have starts := numeral.starts (List.prefix_append w other)
  have here := Munch.numeral_decimal starts
  have longer := Munch.decimal_longest numeral (List.prefix_append w other)
  obtain ⟨hw, hother⟩ := h.taken_eq (numeral_ne_nil numeral) here.dense.tail (Munch.decimal_append (w ++ other)) longer
    fun hfront => Nat.le_trans (Munch.decimal_longest here hfront) (Nat.le_of_eq (congrArg List.length htaken.symm))
  refine ⟨starts, ?_⟩
  have split : Munch.decimal (w ++ other) = (w, other) := Prod.ext hw hother
  rw [Munch.number, split, hkind]
  cases other with
  | nil => rfl
  | cons c cs =>
    -- an exponent would stand behind the first number too
    have noExponent : ¬ (c = 'e' ∨ c = 'E') := by
      intro hc
      have letter : Dense [c] := by rcases hc with rfl | rfl <;> decide
      obtain ⟨more, rfl⟩ := h.close [c] letter ⟨cs, rfl⟩
      have split : Munch.decimal (w ++ ([c] ++ more)) = (w, [c] ++ more) := Prod.ext htaken.symm hbehind.symm
      rw [Munch.number, split] at hm
      simp [hc] at hm
    exact if_neg noExponent

theorem word (h : NoCloser rest other) {c : Char} {u : List Char} (hs : Text.isNameStart c = true)
    (hm : Munch.word prev (c :: u ++ rest) = ⟨k, c :: u, rest, none⟩) :
    Munch.word prev (c :: u ++ other) = ⟨k, c :: u, other, none⟩ := by
  have spells : Spells (Munch.word prev (c :: u ++ rest)).taken := Munch.word_spells prev hs
  have here : Spells (Munch.word prev (c :: u ++ other)).taken := Munch.word_spells prev hs
  have longest : ∀ v, Spells v → v <+: c :: u ++ rest → v.length ≤ (c :: u).length := by
    intro v hv hfront
    have := Munch.word_longest prev hv hfront
    rwa [hm] at this
  rw [hm] at spells
  obtain ⟨hw, hother⟩ := h.taken_eq (List.cons_ne_nil c u) here.dense.tail (Munch.word_append prev (c :: u ++ other))
    (Munch.word_longest prev spells (List.prefix_append _ other)) (longest _ here)
  have kind := hm.symm.trans (Munch.word_eq prev (c :: u ++ rest))
  rw [hm] at kind
  injection kind with hkind
  rw [Munch.word_eq, hw, hother, hkind, Munch.wordKind, Munch.wordKind, h.colons]

theorem startsNumber (h : NoCloser rest other) {c : Char} {u : List Char}
    (hn : ¬ Munch.startsNumber (c :: u ++ rest) = true) : ¬ Munch.startsNumber (c :: u ++ other) = true := by
  intro hs
  have numeral := Munch.numeral_decimal hs
  exact hn (numeral.starts (h.lift (List.cons_ne_nil c u) numeral.dense.tail ⟨_, Munch.decimal_append (c :: u ++ other)⟩))

/-- A mark that does not start the lexeme together with what followed it does not start it now. -/
theorem no_mark (h : NoCloser rest other) (hw : w ≠ []) {entry : List Char × Kind} (hmem : entry ∈ Munch.fixed)
    (hnot : ¬ entry.1.isPrefixOf (w ++ rest) = true) : ¬ entry.1.isPrefixOf (w ++ other) = true := by
  have dense : ∀ entry ∈ Munch.fixed, Dense entry.1.tail := by decide
  rw [List.isPrefixOf_iff_prefix] at hnot ⊢
  exact fun hfront => hnot (h.lift hw (dense entry hmem) hfront)

theorem fixed?_none (h : NoCloser rest other) (hw : w ≠ []) (hf : Munch.fixed? (w ++ rest) = none) :
    Munch.fixed? (w ++ other) = none := by
  rw [Munch.fixed?, List.find?_eq_none] at hf ⊢
  exact fun entry hmem => h.no_mark hw hmem (hf entry hmem)

theorem fixed?_some (h : NoCloser rest other) (hw : w ≠ []) (hf : Munch.fixed? (w ++ rest) = some (w, k)) :
    Munch.fixed? (w ++ other) = some (w, k) := by
  rw [Munch.fixed?, List.find?_eq_some_iff_append] at hf ⊢
  obtain ⟨-, before, behind, hfixed, hbefore⟩ := hf
  refine ⟨List.isPrefixOf_iff_prefix.2 (List.prefix_append w other), before, behind, hfixed, fun entry hmem => ?_⟩
  have hall : entry ∈ Munch.fixed := hfixed ▸ List.mem_append_left _ hmem
  have hnot := hbefore entry hmem
  rw [Bool.not_eq_true', ← Bool.not_eq_true] at hnot ⊢
  exact h.no_mark hw hall hnot

/-- **A lexeme stays a lexeme** where nothing stands closer behind it. -/
theorem munch (h : NoCloser rest other) (hw : w ≠ []) (hm : munch prev (w ++ rest) = ⟨k, w, rest, none⟩) :
    Path.munch prev (w ++ other) = ⟨k, w, other, none⟩ := by
  obtain ⟨c, u, rfl⟩ := List.exists_cons_of_ne_nil hw
  rw [List.cons_append] at hm ⊢
  by_cases hn : Munch.startsNumber (c :: (u ++ rest)) = true
  · rw [munch_number prev hn] at hm
    obtain ⟨starts, number⟩ := h.number (w := c :: u) hn hm
    rw [← number]
    exact munch_number prev starts
  have hn' : ¬ Munch.startsNumber (c :: (u ++ other)) = true := h.startsNumber hn
  by_cases hq : c = '"' ∨ c = '\''
  · rw [munch_quoted prev hq] at hm ⊢
    obtain ⟨body, after, happend, hb⟩ := Munch.quoted_closed (congrArg Munch.defect hm)
    rw [happend, Munch.quoted_eq hb] at hm
    injection hm with hkind htaken
    injection htaken with _ hu
    rw [← hu, List.append_assoc, ← hkind]
    exact Munch.quoted_eq hb other
  by_cases hs : Text.isNameStart c = true
  · rw [munch_word prev hs] at hm ⊢
    exact h.word hs hm
  cases hf : Munch.fixed? (c :: (u ++ rest)) with
  | none =>
    rw [munch_unknown prev hn hq hs hf] at hm
    rw [munch_unknown prev hn' hq hs (h.fixed?_none hw hf)]
    injection hm with hkind htaken
    injection htaken with _ hu
    rw [← hkind, ← hu, List.nil_append]
  | some entry =>
    obtain ⟨spelling, kind⟩ := entry
    rw [munch_mark prev hn hq hs hf] at hm
    injection hm with hkind htaken
    subst htaken
    rw [munch_mark prev hn' hq hs (h.fixed?_some hw hf), hkind, ← List.cons_append, List.drop_left]

end NoCloser

end Munched

/-! ## The white space between lexemes -/

/-- The lexemes, each with what stands behind it. -/
def written (spaced : List (Lexeme × List Char)) : List Char := spaced.flatMap fun x => x.1.text ++ x.2

/-- White space behind lexemes, and some wherever there is some between the windows of two of them. -/
structure Respaced (spaced : List (Lexeme × List Char)) : Prop where
  space : ∀ x ∈ spaced, ∀ c ∈ x.2, Text.isSpace c = true
  apart : spaced.IsChain fun x y => x.1.span.stop < y.1.span.start → x.2 ≠ []

theorem Dense.eq_nil {v gap u : List Char} (hv : Dense v) (hgap : ∀ c ∈ gap, Text.isSpace c = true)
    (hne : gap ≠ []) (h : v <+: gap ++ u) : v = [] := by
  cases v with
  | nil => rfl
  | cons c v =>
    obtain ⟨d, g, rfl⟩ := List.exists_cons_of_ne_nil hne
    obtain ⟨rfl, -⟩ := List.cons_prefix_cons.1 h
    exact absurd (mem_breaks_of_isSpace (hgap c List.mem_cons_self)) (hv c List.mem_cons_self)

theorem dropWhile_lexeme {w : List Char} (hw : w ≠ []) (hhead : ∀ c ∈ w.head?, Text.isSpace c = false)
    (behind : List Char) : (w ++ behind).dropWhile Text.isSpace = w ++ behind := by
  obtain ⟨c, u, rfl⟩ := List.exists_cons_of_ne_nil hw
  rw [List.cons_append, List.dropWhile_cons_of_neg]
  simp [hhead c rfl]

namespace NoCloser

variable {prev k : Kind} {gap gap' w rest other : List Char}

/-- Where nothing but white space is left, any white space will do. -/
theorem blank (hgap : ∀ c ∈ gap, Text.isSpace c = true) (hgap' : ∀ c ∈ gap', Text.isSpace c = true) :
    NoCloser gap gap' := by
  refine ⟨fun v hv hfront => ?_, ?_⟩
  · have nothing : v = [] := by
      by_cases hne : gap' = []
      · exact List.prefix_nil.1 (hne ▸ hfront)
      · exact hv.eq_nil hgap' hne (u := []) (by rwa [List.append_nil])
    exact nothing ▸ List.nil_prefix
  · rw [Munch.beforeColons, Munch.beforeColons, List.dropWhile_eq_nil_iff.2 hgap, List.dropWhile_eq_nil_iff.2 hgap']

theorem lexeme (h : NoCloser rest other) (hw : w ≠ []) (hgap : ∀ c ∈ gap, Text.isSpace c = true)
    (hgap' : ∀ c ∈ gap', Text.isSpace c = true) (hapart : gap ≠ [] → gap' ≠ [])
    (hdrop : ∀ behind, (w ++ behind).dropWhile Text.isSpace = w ++ behind)
    (hm : Path.munch prev (w ++ rest) = ⟨k, w, rest, none⟩) (hm' : Path.munch prev (w ++ other) = ⟨k, w, other, none⟩) :
    NoCloser (gap ++ (w ++ rest)) (gap' ++ (w ++ other)) := by
  refine ⟨fun v hv hfront => ?_, ?_⟩
  · by_cases hne : gap' = []
    · have closed : gap = [] := by_contra fun h => hapart h hne
      subst hne closed
      exact h.lift hw hv.tail hfront
    · rw [hv.eq_nil hgap' hne hfront]
      exact List.nil_prefix
  · have here := beforeColons_iff prev (gap ++ (w ++ rest))
    have there := beforeColons_iff prev (gap' ++ (w ++ other))
    rw [List.dropWhile_append_of_pos hgap, hdrop, hm] at here
    rw [List.dropWhile_append_of_pos hgap', hdrop, hm'] at there
    exact Bool.eq_iff_iff.2 (there.trans here.symm)

end NoCloser

/-! ## All lexemes -/

namespace Session

theorem munch_of_advance {s next : Session} (h : s.advance = (next, none)) :
    munch s.kind (s.rest.dropWhile Text.isSpace) = ⟨next.kind, next.text, next.rest, none⟩ ∧
      next.start = s.stop + Text.width (s.rest.takeWhile Text.isSpace) := by
  have hnext : next = s.advance.1 := by rw [h]
  have hdefect : (munch s.kind (s.rest.dropWhile Text.isSpace)).defect = none :=
    Option.map_eq_none_iff.1 (congrArg Prod.snd h)
  subst hnext
  refine ⟨?_, rfl⟩
  rw [← hdefect]
  rfl

/-- What is taken off for the next lexeme, in a text of which it is known where that lexeme stands. -/
theorem taken_of_advance {s next : Session} {before : List Char} (h : s.advance = (next, none)) (hkind : next.kind ≠ .eof)
    (hrest : s.rest = before ++ (next.text ++ next.rest)) (hbefore : ∀ c ∈ before, Text.isSpace c = true)
    (hhead : ∀ c ∈ next.text.head?, Text.isSpace c = false) :
    next.text ≠ [] ∧ munch s.kind (next.text ++ next.rest) = ⟨next.kind, next.text, next.rest, none⟩ ∧
      (before ≠ [] → s.stop < next.start) := by
  obtain ⟨hmunch, hstart⟩ := munch_of_advance h
  have nonempty := ne_nil_of_munch hmunch hkind
  rw [hrest, List.dropWhile_append_of_pos hbefore, dropWhile_lexeme nonempty hhead] at hmunch
  refine ⟨nonempty, hmunch, fun hne => ?_⟩
  have width := Text.width_pos hne
  rw [hstart, hrest, List.takeWhile_append_of_pos hbefore, Text.width_append]
  omega

/-- **With other white space the lexemes are the same**, and nothing stands closer than before. -/
theorem respaced : ∀ {sessions : List Session} {s : Session} {prev : Option Kind} {spaced : List (Lexeme × List Char)}
    {gap : List Char}, (s :: sessions).IsChain (fun s next => s.advance = (next, none)) →
    Tokenized prev s.rest sessions → sessions.map lexeme = spaced.map Prod.fst → (∀ x ∈ spaced, x.1.kind ≠ .eof) →
    Respaced spaced → (∀ c ∈ gap, Text.isSpace c = true) →
    (∃ last behind, Lexes s.kind (gap ++ written spaced) (spaced.map fun x => x.1.token) last behind ∧
      ∀ c ∈ behind, Text.isSpace c = true) ∧
    ((∀ x ∈ spaced.head?, s.stop < x.1.span.start → gap ≠ []) → NoCloser s.rest (gap ++ written spaced)) := by
  intro sessions
  induction sessions with
  | nil =>
    intro s prev spaced gap _ htokenized hmap _ _ hgap
    obtain rfl : spaced = [] := List.map_eq_nil_iff.1 hmap.symm
    rw [show written [] = [] from rfl, List.append_nil]
    generalize s.rest = text at htokenized
    cases htokenized with
    | nothing hrest => exact ⟨⟨s.kind, gap, .nothing, hgap⟩, fun _ => .blank hrest hgap⟩
  | cons next more ih =>
    intro s prev spaced gap hchain htokenized hmap hkinds hspaced hgap
    cases spaced with
    | nil => cases hmap
    | cons x xs =>
      obtain ⟨hadvance, hchain⟩ := List.isChain_cons_cons.1 hchain
      obtain ⟨y, behind⟩ := x
      obtain ⟨rfl, hothers⟩ : next.lexeme = y ∧ more.map lexeme = xs.map Prod.fst := List.cons.inj hmap
      obtain ⟨hapart, hchain'⟩ := List.isChain_cons.1 hspaced.apart
      generalize hrest : s.rest = text at htokenized ⊢
      cases htokenized with
      | @lexeme _ before _ _ hbefore hhead _ htokenized =>
        have hkind := hkinds _ List.mem_cons_self
        obtain ⟨nonempty, hmunch, room⟩ := taken_of_advance hadvance hkind hrest hbefore hhead
        have stays := dropWhile_lexeme nonempty hhead
        -- the lexemes behind this one, with what stands between it and them for the first gap
        obtain ⟨⟨last, trail, hlexes, htrail⟩, hcloser⟩ := ih hchain htokenized hothers
          (fun x hx => hkinds x (List.mem_cons_of_mem _ hx))
          ⟨fun x hx => hspaced.space x (List.mem_cons_of_mem _ hx), hchain'⟩ (hspaced.space _ List.mem_cons_self)
        have closer : NoCloser next.rest (behind ++ written xs) := hcloser hapart
        have munched := closer.munch nonempty hmunch
        have front : gap ++ written ((next.lexeme, behind) :: xs) = gap ++ (next.text ++ (behind ++ written xs)) := by
          rw [written, List.flatMap_cons, List.append_assoc]
          rfl
        rw [front]
        refine ⟨⟨last, trail, ?_, htrail⟩, fun happly => ?_⟩
        · refine .lexeme ?_ hkind hlexes
          rw [List.dropWhile_append_of_pos hgap, stays]
          exact munched
        · have apart : before ≠ [] → gap ≠ [] := fun hne => happly _ rfl (room hne)
          exact closer.lexeme nonempty hbefore hgap apart stays hmunch munched

end Session

/-- What a text is read as, without the windows. -/
theorem Expr.mapError_parse (f : Nat → Nat) (text : String) : (Expr.parse text).mapError (fun e => e.cause) =
    match (Phrase.ofText text 0).moved f (Phrase.moved f) with
    | .read phrase _ => .ok phrase.expr
    | .broken _ x => .error x.cause := by
  rw [Expr.parse, Expr.parseFrom_eq]
  cases Phrase.ofText text 0 with
  | read phrase p => exact congrArg Except.ok (Phrase.expr_moved f phrase).symm
  | broken done x => rfl

/-- The tree of a text and the cause of its fault depend on the tokens alone. -/
theorem Expr.mapError_parse_congr {text text' : String} {n n' : Nat} (he : (scan text 0).ending = .atEnd n)
    (he' : (scan text' 0).ending = .atEnd n')
    (h : (scan text 0).lexemes.map Lexeme.token = (scan text' 0).lexemes.map Lexeme.token) :
    (Expr.parse text).mapError (fun e => e.cause) = (Expr.parse text').mapError fun e => e.cause := by
  -- with all positions the same, only the tokens are left of a lexeme
  have token : Lexeme.moved (fun _ => 0) = (fun x : Token => ⟨x.kind, ⟨0, 0⟩, x.text⟩) ∘ Lexeme.token := rfl
  have same : (scan text 0).moved (fun _ => 0) = (scan text' 0).moved fun _ => 0 := by
    rw [Scan.moved, Scan.moved, he, he', token, ← List.map_map, ← List.map_map, h]
    rfl
  rw [mapError_parse fun _ => 0, mapError_parse fun _ => 0, Phrase.ofText, Phrase.ofText, Phrase.ofScan_moved,
    Phrase.ofScan_moved, same]

theorem atEnd_of_tokenize {text : String} {ls : List Lexeme} (h : tokenize text = .ok ls) :
    (∃ n, (scan text 0).ending = .atEnd n) ∧ (scan text 0).lexemes = ls := by
  unfold tokenize at h
  dsimp only at h
  cases hending : (scan text 0).ending with
  | faulty f => rw [hending] at h; cases h
  | atEnd n =>
    rw [hending] at h
    cases h
    exact ⟨⟨n, rfl⟩, rfl⟩

theorem tokenize_of_atEnd {text : String} {n : Nat} (h : (scan text 0).ending = .atEnd n) :
    tokenize text = .ok (scan text 0).lexemes := by
  unfold tokenize
  dsimp only
  rw [h]

/-- **White space between lexemes does not matter.**  It may be any, but where there is some between two lexemes there
must be some: the lexemes are of the same kinds and have the same characters, and the text is parsed to the same
tree or refused for the same cause. -/
theorem parse_respaced {text : String} {first : List Char} {spaced : List (Lexeme × List Char)}
    (ht : tokenize text = .ok (spaced.map Prod.fst)) (hfirst : ∀ c ∈ first, Text.isSpace c = true)
    (hspaced : Respaced spaced) :
    (∃ ls, tokenize (String.ofList (first ++ written spaced)) = .ok ls ∧
      ls.map Lexeme.token = spaced.map fun x => x.1.token) ∧
    (Expr.parse (String.ofList (first ++ written spaced))).mapError (fun e => e.cause) =
      (Expr.parse text).mapError fun e => e.cause := by
  obtain ⟨⟨n, hending⟩, hlexemes⟩ := atEnd_of_tokenize ht
  have start : (none : Option Kind).getD .unknown = (Session.fresh text 0).kind := rfl
  obtain ⟨sessions, hsessions, hchain, htokenized⟩ := Session.scan_tokenized start (Nat.lt_succ_self _) hending
  have kinds : ∀ x ∈ spaced, x.1.kind ≠ .eof := fun x hx =>
    (scan_windows text).kind_ne_eof x.1 (hlexemes ▸ List.mem_map_of_mem hx)
  obtain ⟨⟨last, behind, hlexes, hbehind⟩, -⟩ :=
    Session.respaced hchain htokenized (hsessions.trans hlexemes) kinds hspaced hfirst
  have rest := Session.fresh_rest (String.ofList (first ++ written spaced))
  rw [String.toList_ofList] at rest
  have scanned : (scan (String.ofList (first ++ written spaced)) 0).lexemes.map Lexeme.token = _ ∧ _ :=
    hlexes.scan hbehind rfl rest (Nat.lt_succ_self _)
  obtain ⟨htokens, n', hending'⟩ := scanned
  refine ⟨⟨_, tokenize_of_atEnd hending', htokens⟩, ?_⟩
  refine Expr.mapError_parse_congr hending' hending (htokens.trans ?_)
  rw [hlexemes, List.map_map]
  rfl

theorem parse_respaced_operator :
    (∃ ls, tokenize "\ta  or\n child ::b " = .ok ls ∧ ls.map Lexeme.token =
      [⟨.name, ['a']⟩, ⟨.or, ['o', 'r']⟩, ⟨.axis, "child".toList⟩, ⟨.colonColon, [':', ':']⟩, ⟨.name, ['b']⟩]) ∧
    (Expr.parse "\ta  or\n child ::b ").mapError (fun e => e.cause) =
      (Expr.parse "a or child::b").mapError fun e => e.cause := by
  have ht : tokenize "a or child::b" = .ok ([(⟨.name, ⟨0, 1⟩, ['a']⟩, [' ', ' ']), (⟨.or, ⟨2, 4⟩, ['o', 'r']⟩, ['\n', ' ']),
      (⟨.axis, ⟨5, 10⟩, "child".toList⟩, [' ']), (⟨.colonColon, ⟨10, 12⟩, [':', ':']⟩, []),
      (⟨.name, ⟨12, 13⟩, ['b']⟩, [' '])].map Prod.fst) := rfl
  have hfirst : ∀ c ∈ ['\t'], Text.isSpace c = true := List.forall_mem_singleton.2 (by decide)
  exact parse_respaced ht hfirst ⟨by simp [Text.isSpace], by decide⟩

end StylesheetReversal.Path
