import StylesheetReversal.Proofs.Skeleton
import StylesheetReversal.Proofs.Xml.ReadBack
/-!
# Qualifiers that are declared

In a document that was read there is a namespace for every qualifier.  One that declares the qualifier of instructions on
its outermost element, and nothing else anywhere, can therefore be read exactly if no name in it has another qualifier
(`Element.isSome_parse?_iff`).

That is seen from the pieces of its text: a start tag is a piece (`CutsInto`), and a document whose pieces were all placed
had a namespace for each of these (`Assembly.known_of_foldlM`).
-/
namespace StylesheetReversal.Xml

/-! ## Names of elements -/

/-- A name that has no qualifier, or that of instructions. -/
def Known (name : String) : Prop := ∀ split ∈ Text.splitColon? name.toList, split.1 = instructionQualifier

instance (name : String) : Decidable (Known name) :=
  inferInstanceAs (Decidable (∀ split ∈ Text.splitColon? name.toList, split.1 = instructionQualifier))

theorem TagName.known_iff {n : TagName} (hn : n.Fit) {name : String} (hname : name.toList = n.chars) :
    Xml.Known name ↔ n.qualifier = [] ∨ n.qualifier = instructionQualifier := by
  rw [Xml.Known, hname]
  rcases n.chars_cases hn with ⟨hq, hchars⟩ | ⟨hq, hchars⟩
  · rw [hchars, Text.splitColon?_of_isName hn.base]
    exact ⟨fun _ => .inl hq, fun _ => nofun⟩
  · rw [hchars, Text.splitColon?_append hq]
    constructor
    · exact fun h => .inr (h _ rfl)
    · rintro (h | h) split hsplit
      · exact absurd h (Text.ne_nil_of_isName hq)
      · cases hsplit
        exact h

namespace Element

mutual

/-- The names of an element and of the elements inside it. -/
def names : Element → List String
  | .mk name _ children => name :: namesOfAll children

def namesOfAll : List Element → List String
  | [] => []
  | c :: cs => names c ++ namesOfAll cs

end

theorem mem_namesOfAll {name : String} : ∀ {cs : List Element}, name ∈ namesOfAll cs ↔ ∃ c ∈ cs, name ∈ c.names
  | [] => by simp [namesOfAll]
  | c :: cs => by simp [namesOfAll, mem_namesOfAll]

/-- An element that can be written, whatever the qualifiers of the names in it. -/
inductive Writable : Element → Prop
  | mk {name : String} {attributes : List (String × String)} {children : List Element} :
      IsWritten name → FitAttributes attributes → (∀ c ∈ children, Writable c) → Writable (.mk name attributes children)

theorem Writable.fit {e : Element} (h : e.Writable) (hknown : ∀ name ∈ e.names, Known name) : e.Fit := by
  induction h with
  | @mk name attributes children hname hattributes _ ih =>
    obtain ⟨n, hn, hchars⟩ := hname
    have known := (n.known_iff hn hchars).1 (hknown name (by rw [names]; exact List.mem_cons_self))
    refine .mk n ⟨hn, known⟩ hchars hattributes fun c hc => ih c hc fun name hname => hknown name ?_
    rw [names]
    exact List.mem_cons_of_mem _ (mem_namesOfAll.2 ⟨c, hc, hname⟩)

end Element

/-! ## The start tags of a text -/

/-- The name and the attributes of a start tag. -/
def Placed.opening? (p : Placed) : Option (TagName × List RawAttribute) :=
  match p.piece with
  | .opening name attributes _ => some (name, attributes)
  | _ => none

/-- Whatever follows the text, it is cut up into pieces of which these are the start tags. -/
def CutsInto (text : List Char) (tags : List (TagName × List RawAttribute)) : Prop :=
  ∀ fuel start rest ps, piecesFrom? fuel start (text ++ rest) = some ps → ∃ fuel' start' front more,
    ps = front ++ more ∧ front.filterMap Placed.opening? = tags ∧ piecesFrom? fuel' start' rest = some more

section Cuts

variable {text text' : List Char} {tags tags' : List (TagName × List RawAttribute)}

theorem cutsInto_nil : CutsInto [] [] := fun fuel start _ ps h => ⟨fuel, start, [], ps, rfl, rfl, h⟩

theorem CutsInto.append (h : CutsInto text tags) (h' : CutsInto text' tags') : CutsInto (text ++ text') (tags ++ tags') := by
  intro fuel start rest ps hps
  rw [List.append_assoc] at hps
  obtain ⟨fuel, start, front, more, rfl, rfl, hmore⟩ := h fuel start _ ps hps
  obtain ⟨fuel, start, front', more', rfl, rfl, hmore'⟩ := h' fuel start rest more hmore
  exact ⟨fuel, start, front ++ front', more', (List.append_assoc ..).symm, List.filterMap_append, hmore'⟩

theorem piecesFrom?_piece {p : Piece} {rest : List Char} (hnext : Piece.next? (text ++ rest) = some (p, rest))
    (hne : text ≠ []) {fuel start : Nat} {ps : List Placed} (h : piecesFrom? fuel start (text ++ rest) = some ps) :
    ∃ fuel' start' more, ps = ⟨start, p⟩ :: more ∧ piecesFrom? fuel' start' rest = some more := by
  cases fuel with
  | zero => cases h
  | succ fuel =>
    have something : ¬ (text ++ rest).isEmpty = true := by
      rw [List.isEmpty_iff]
      exact fun he => hne (List.append_eq_nil_iff.1 he).1
    rw [piecesFrom?, if_neg something, hnext, Option.bind_some] at h
    obtain ⟨more, hmore, rfl⟩ := Option.map_eq_some_iff.1 h
    exact ⟨fuel, _, more, rfl, hmore⟩

/-- A text that is one piece. -/
theorem cutsInto_piece {p : Piece} (hnext : ∀ rest, Piece.next? (text ++ rest) = some (p, rest)) (hne : text ≠ []) :
    CutsInto text (Placed.opening? ⟨0, p⟩).toList := by
  intro fuel start rest ps h
  obtain ⟨fuel, start', more, rfl, hmore⟩ := piecesFrom?_piece (hnext rest) hne h
  refine ⟨fuel, start', [⟨start, p⟩], more, rfl, ?_, hmore⟩
  cases p <;> rfl

/-- There is no start tag in the start of a line. -/
theorem CutsInto.line {u : List Char} (h : CutsInto ('<' :: u) tags) (indent : Option Nat) (depth : Nat) :
    CutsInto ((Element.lineStart indent depth).toList ++ '<' :: u) tags := by
  rcases Assembly.lineStart_cases indent depth with hnil | ⟨-, hne, hblank⟩
  · rw [hnil]
    exact h
  · have spaces : ∀ c ∈ (Element.lineStart indent depth).toList, Text.isSpace c = true :=
      fun c hc => Assembly.isSpace_of_lineStart (hblank c hc)
    intro fuel start rest ps hps
    rw [List.append_assoc] at hps
    obtain ⟨fuel, start', more, rfl, hmore⟩ := piecesFrom?_piece (Piece.next?_blanks hne spaces (u ++ rest)) hne hps
    obtain ⟨fuel, start'', front, more, rfl, rfl, hmore⟩ := h fuel start' rest more hmore
    exact ⟨fuel, start'', ⟨start, _⟩ :: front, more, rfl, rfl, hmore⟩

theorem piecesFrom?_nil {fuel start : Nat} {ps : List Placed} (h : piecesFrom? fuel start [] = some ps) : ps = [] := by
  cases fuel with
  | zero => cases h
  | succ fuel => exact (Option.some.inj h).symm

end Cuts

/-! ## The start tags of what was written -/

/-- A start tag that declares nothing, or nothing but the namespace of instructions. -/
inductive Sparing : TagName × List RawAttribute → Prop
  | plain {n : TagName} {as : List (TagName × List Char)} :
      n.Fit → (∀ a ∈ as, PlainAttribute a) → Sparing (n, as.map rawAttribute)
  | declaring {n : TagName} {as : List (TagName × List Char)} :
      n.Fit → (∀ a ∈ as, PlainAttribute a) → Sparing (n, (declaring :: as).map rawAttribute)

theorem Sparing.fit {tag : TagName × List RawAttribute} (h : Sparing tag) : tag.1.Fit := by
  cases h <;> assumption

/-- The start tags of the text have these names, and declare no more than the namespace of instructions. -/
def Tagged (text : List Char) (names : List String) : Prop :=
  ∃ tags, CutsInto text tags ∧ tags.map (·.1.chars) = names.map String.toList ∧ ∀ tag ∈ tags, Sparing tag

namespace Tagged

variable {text text' : List Char} {names names' : List String} {indent : Option Nat} {depth : Nat}

theorem nil : Tagged [] [] := ⟨[], cutsInto_nil, rfl, nofun⟩

theorem append (h : Tagged text names) (h' : Tagged text' names') : Tagged (text ++ text') (names ++ names') := by
  obtain ⟨tags, hcuts, hnames, hsparing⟩ := h
  obtain ⟨tags', hcuts', hnames', hsparing'⟩ := h'
  refine ⟨tags ++ tags', hcuts.append hcuts', ?_, fun tag htag => ?_⟩
  · rw [List.map_append, List.map_append, hnames, hnames']
  · exact (List.mem_append.1 htag).elim (hsparing tag) (hsparing' tag)

/-- **The start tags of an element** are its own and those of its children. -/
theorem element {name : String} {n : TagName} {as : List (TagName × List Char)} {attributes : List (String × String)}
    {children : List Element} (hname : name.toList = n.chars) (has : ∀ a ∈ as, a.1.Fit)
    (hattributes : (attributes.map Element.writeAttribute).flatMap String.toList = as.flatMap attributeChars)
    (hsparing : Sparing (n, as.map rawAttribute))
    (h : Tagged (Element.writeAll indent (depth + 1) children).toList (Element.namesOfAll children)) :
    Tagged (Element.write indent depth (.mk name attributes children)).toList
      (name :: Element.namesOfAll children) := by
  obtain ⟨tags, hcuts, hnames, hall⟩ := h
  have opening : ∀ closed, CutsInto (tagChars n as closed) [(n, as.map rawAttribute)] := fun closed =>
    cutsInto_piece (Piece.next?_opening hsparing.fit has closed) (List.cons_ne_nil _ _)
  have closing : CutsInto (endTagChars n) [] := cutsInto_piece (Piece.next?_closing hsparing.fit) (List.cons_ne_nil _ _)
  refine ⟨(n, as.map rawAttribute) :: tags, ?_, ?_, List.forall_mem_cons.2 ⟨hsparing, hall⟩⟩
  · rw [Element.write_toList hname hattributes]
    cases children with
    | nil =>
      have none : tags = [] := List.map_eq_nil_iff.1 hnames
      subst none
      exact ((opening true).append cutsInto_nil).line indent depth
    | cons c cs =>
      have behind := hcuts.append (closing.line indent depth)
      rw [List.append_nil] at behind
      exact ((opening false).append behind).line indent depth
  · rw [List.map_cons, List.map_cons, hname, hnames]

theorem all {children : List Element} (h : ∀ c ∈ children, Tagged (Element.write indent depth c).toList c.names) :
    Tagged (Element.writeAll indent depth children).toList (Element.namesOfAll children) := by
  induction children with
  | nil => exact nil
  | cons c cs ih =>
    rw [Element.writeAll, String.toList_append]
    exact (h c List.mem_cons_self).append (ih fun d hd => h d (List.mem_cons_of_mem c hd))

theorem write {e : Element} (h : e.Writable) : ∀ depth, Tagged (Element.write indent depth e).toList e.names := by
  induction h with
  | @mk name attributes children hname hattributes _ ih =>
    intro depth
    obtain ⟨n, hn, hchars⟩ := hname
    have plain := Assembly.fit_written hattributes
    rw [Element.names]
    exact element hchars (fun a ha => (plain a ha).fit) (Element.flatMap_written attributes) (.plain hn plain)
      (all fun c hc => ih c hc (depth + 1))

end Tagged

/-! ## What is in scope -/

namespace Tag

variable {scope inherited : List Binding} {n : TagName} {raw : List RawAttribute} {t : Tag}

/-- No namespace is in scope, or only that of instructions. -/
def Narrow (scope : List Binding) : Prop := scope = [] ∨ scope = instructionScope

theorem known_of_elementUri? (h : Narrow scope) {uri : Option String} (huri : elementUri? scope n = some uri) :
    n.qualifier = [] ∨ n.qualifier = instructionQualifier := by
  unfold elementUri? at huri
  split at huri
  · next hempty => exact .inl (List.isEmpty_iff.1 hempty)
  · split at huri
    · cases huri
    · obtain ⟨uri, hbound, -⟩ := Option.map_eq_some_iff.1 huri
      obtain ⟨b, hb, -⟩ := Option.map_eq_some_iff.1 hbound
      have found := List.find?_some hb
      have same : b.qualifier = some (String.ofList n.qualifier) := of_decide_eq_true found
      have member := List.mem_of_find?_eq_some hb
      rcases h with rfl | rfl
      · cases member
      · rw [List.mem_singleton.1 member] at same
        exact .inr (String.ofList_injective (Option.some.inj same).symm)

/-- What is in scope behind a start tag that was read. -/
theorem narrow_of_ofRaw? (h : Narrow inherited) (hsparing : Sparing (n, raw)) (ht : ofRaw? inherited n raw = some t) :
    Narrow t.scope ∧ (n.qualifier = [] ∨ n.qualifier = instructionQualifier) := by
  obtain ⟨written, hwritten, ht⟩ := Option.bind_eq_some_iff.1 ht
  obtain ⟨own, hown, ht⟩ := Option.bind_eq_some_iff.1 ht
  obtain ⟨uri, huri, ht⟩ := Option.bind_eq_some_iff.1 ht
  obtain ⟨attributes, -, rfl⟩ := Option.map_eq_some_iff.1 ht
  have narrow : Narrow (scopeOf own inherited) := by
    cases hsparing with
    | plain _ has =>
      rw [values?_written] at hwritten
      cases hwritten
      rw [declared?_plain has] at hown
      cases hown
      exact h
    | declaring _ has =>
      rw [values?_written] at hwritten
      cases hwritten
      rw [declared?_declaring has] at hown
      cases hown
      rcases h with rfl | rfl <;> exact .inr rfl
  exact ⟨narrow, known_of_elementUri? narrow huri⟩

end Tag

namespace Assembly

/-- Nowhere but the namespace of instructions is in scope. -/
def Narrow (a : Assembly) : Prop := ∀ o ∈ a.opened, Tag.Narrow o.tag.scope

variable {a b : Assembly} {p : Placed}

theorem narrow_empty : Assembly.empty.Narrow := List.forall_mem_nil _

theorem Narrow.scope (h : a.Narrow) : Tag.Narrow a.scope := by
  unfold Assembly.scope
  split
  · exact .inl rfl
  · next o outer heq => exact h o (by rw [heq]; exact List.mem_cons_self)

theorem opened_addText (a : Assembly) (start : Nat) (value : String) : (a.addText start value).opened = a.opened := by
  unfold addText
  split <;> rfl

/-- **Placing a piece** brings no other namespace into scope, and the qualifier of a start tag is bound in it. -/
theorem Narrow.place? (h : a.Narrow) (hp : ∀ tag ∈ p.opening?, Sparing tag) (hb : a.place? p = some b) :
    b.Narrow ∧ ∀ tag ∈ p.opening?, tag.1.qualifier = [] ∨ tag.1.qualifier = instructionQualifier := by
  have same {c : Assembly} (hopened : c.opened = a.opened) : c.Narrow := by
    intro o ho
    rw [hopened] at ho
    exact h o ho
  have other : ∀ tag ∈ (none : Option (TagName × List RawAttribute)),
      tag.1.qualifier = [] ∨ tag.1.qualifier = instructionQualifier := fun tag htag => absurd htag (Option.not_mem_none tag)
  obtain ⟨start, piece⟩ := p
  rw [Assembly.place?] at hb
  cases piece with
  | comment body =>
    cases hb
    exact ⟨same rfl, other⟩
  | instruction target value =>
    cases hb
    exact ⟨same rfl, other⟩
  | text raw =>
    dsimp only at hb
    refine ⟨?_, other⟩
    split at hb
    · split at hb <;> cases hb
      exact h
    · obtain ⟨value, -, rfl⟩ := Option.map_eq_some_iff.1 hb
      exact same (opened_addText ..)
  | cdata raw =>
    dsimp only at hb
    split at hb <;> cases hb
    exact ⟨same (opened_addText ..), other⟩
  | opening name raw closed =>
    dsimp only at hb
    split at hb
    · cases hb
    · obtain ⟨t, ht, rfl⟩ := Option.map_eq_some_iff.1 hb
      obtain ⟨narrow, known⟩ := Tag.narrow_of_ofRaw? h.scope (hp _ rfl) ht
      refine ⟨?_, fun tag htag => by cases htag; exact known⟩
      split
      · exact same rfl
      · exact List.forall_mem_cons.2 ⟨narrow, h⟩
  | closing name =>
    dsimp only at hb
    refine ⟨?_, other⟩
    split at hb
    · cases hb
    · next o outer heq =>
      split at hb <;> cases hb
      intro o' ho'
      exact h o' (by rw [heq]; exact List.mem_cons_of_mem o ho')

/-- **There was a namespace for the qualifier of every start tag** in a document that was put together. -/
theorem known_of_foldlM : ∀ {ps : List Placed} {a : Assembly}, a.Narrow → (∀ tag ∈ ps.filterMap Placed.opening?, Sparing tag) →
    ps.foldlM Assembly.place? a = some b →
      ∀ tag ∈ ps.filterMap Placed.opening?, tag.1.qualifier = [] ∨ tag.1.qualifier = instructionQualifier
  | [], _, _, _, _ => nofun
  | p :: ps, a, h, hps, hb => by
    rw [List.foldlM_cons] at hb
    obtain ⟨a', hplace, hrest⟩ := Option.bind_eq_some_iff.1 hb
    have members : ∀ tag, tag ∈ (p :: ps).filterMap Placed.opening? ↔
        tag ∈ p.opening? ∨ tag ∈ ps.filterMap Placed.opening? := by
      intro tag
      simp [List.mem_filterMap]
    obtain ⟨narrow, known⟩ := h.place? (fun tag htag => hps tag ((members tag).2 (.inl htag))) hplace
    have more := known_of_foldlM narrow (fun tag htag => hps tag ((members tag).2 (.inr htag))) hrest
    exact fun tag htag => ((members tag).1 htag).elim (known tag) (more tag)

end Assembly

/-! ## Documents -/

/-- The pieces of a document behind the declaration. -/
theorem pieces_of_parse? {text : String} {body : List Char} {d : XmlDocument} (h : XmlDocument.parse? text = some d)
    (htext : text.toList = Element.declaration.toList ++ body) : ∃ fuel start ps a,
      piecesFrom? fuel start body = some ps ∧ ps.foldlM Assembly.place? .empty = some a := by
  obtain ⟨nodes, hnodes, -⟩ := Option.map_eq_some_iff.1 h
  obtain ⟨ps, hps, hnodes⟩ := Option.bind_eq_some_iff.1 hnodes
  obtain ⟨a, ha, -⟩ := Option.bind_eq_some_iff.1 hnodes
  have prolog : prolog? text.toList = some body := by
    rw [htext]
    rfl
  unfold pieces? at hps
  split at hps
  · rw [prolog, Option.bind_some] at hps
    exact ⟨_, _, ps, a, hps, ha⟩
  · cases hps

namespace Element

/-- **A document that declares the namespace of instructions can be read** exactly if no name of an element in it has
another qualifier. -/
theorem isSome_parse?_iff {root : String} {attributes : List (String × String)} {children : List Element}
    (h : (Element.mk root attributes children).Writable) (indent : Option Nat) :
    (XmlDocument.parse? (writeDocument indent
        (some (.mk root (("xmlns:xsl", Instruction.uri) :: attributes) children)))).isSome ↔
      ∀ name ∈ names (.mk root attributes children), Known name := by
  constructor
  · intro hread
    obtain ⟨d, hd⟩ := Option.isSome_iff_exists.1 hread
    obtain ⟨⟨n, hn, hroot⟩, hattributes, hchildren⟩ : IsWritten root ∧ FitAttributes attributes ∧
        ∀ c ∈ children, c.Writable := by
      cases h with
      | mk hname hattributes hchildren => exact ⟨hname, hattributes, hchildren⟩
    have plain := Assembly.fit_written hattributes
    have fit : ∀ a ∈ declaring :: attributes.map written, a.1.Fit :=
      List.forall_mem_cons.2 ⟨declaring_fit, fun a ha => (plain a ha).fit⟩
    have tagged : Tagged (write indent 0 (.mk root (("xmlns:xsl", Instruction.uri) :: attributes) children)).toList
        (root :: namesOfAll children) :=
      Tagged.element hroot fit (flatMap_declaring attributes) (.declaring hn plain)
        (Tagged.all fun c hc => Tagged.write (hchildren c hc) 1)
    obtain ⟨tags, hcuts, hnames, hsparing⟩ := tagged
    obtain ⟨fuel, start, ps, a, hps, ha⟩ := pieces_of_parse? hd String.toList_append
    rw [← List.append_nil (String.toList _)] at hps
    obtain ⟨fuel, start, front, more, rfl, htags, hmore⟩ := hcuts fuel start [] ps hps
    rw [piecesFrom?_nil hmore, List.append_nil] at ha
    rw [← htags] at hnames hsparing
    have known := Assembly.known_of_foldlM Assembly.narrow_empty hsparing ha
    intro name hname
    rw [names] at hname
    have written : name.toList ∈ (root :: namesOfAll children).map String.toList := List.mem_map_of_mem hname
    rw [← hnames] at written
    obtain ⟨tag, htag, hchars⟩ := List.mem_map.1 written
    exact (TagName.known_iff (hsparing tag htag).fit hchars.symm).2 (known tag htag)
  · intro known
    have fit := h.fit known
    obtain ⟨d, node, hd, -⟩ := parse?_writeDocument fit indent
    rw [hd]
    rfl

end Element

end StylesheetReversal.Xml
