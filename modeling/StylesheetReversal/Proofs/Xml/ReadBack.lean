import StylesheetReversal.Proofs.Xml.StartTags
/-!
# Reading back what was written

An element that is written as a document is read back as the same tree (`Element.parse?_writeDocument`).
Reading goes on behind every piece that was written as if it had started there (`Assembly.Reads`), which is
what the induction over the tree needs.
-/
namespace StylesheetReversal.Xml

/-! ## What is read for an element -/

/-- An attribute as it is read back: in no namespace, and with spaces for the blanks in its value. -/
def Element.readAttribute (a : String × String) : Attribute :=
  ⟨a.1, none, String.ofList (normalized a.2.toList)⟩

mutual

/-- The node is the element read back: it has the same name, in the namespace of its qualifier, the same
attributes in the same order, and children for the children. -/
inductive Shows (indent : Option Nat) : Element → Node → Prop
  | element {name : String} {attributes : List (String × String)} {children : List Element} {start : Nat} {tag : Tag}
      {nodes : List Node} (q : QName) :
      (Node.element start tag nodes).name = some q → q.display = name →
      (q.qualifier = none ∧ tag.uri = none ∨ q.qualifier = some "xsl" ∧ tag.uri = some Instruction.uri) →
      tag.attributes = attributes.map Element.readAttribute → ShowsAll indent children nodes →
      Shows indent (.mk name attributes children) (.element start tag nodes)

/-- The nodes are the elements read back.  If they were written with an indentation, there may be white
space between them. -/
inductive ShowsAll (indent : Option Nat) : List Element → List Node → Prop
  | nil : ShowsAll indent [] []
  | cons {c : Element} {n : Node} {cs : List Element} {ns : List Node} :
      Shows indent c n → ShowsAll indent cs ns → ShowsAll indent (c :: cs) (n :: ns)
  | space {start : Nat} {value : String} {cs : List Element} {ns : List Node} :
      indent.isSome = true → (∀ c ∈ value.toList, Text.isSpace c = true) → ShowsAll indent cs ns →
      ShowsAll indent cs (.text start value :: ns)

end

theorem ShowsAll.append {indent : Option Nat} {cs ds : List Element} {ns ms : List Node} (h : ShowsAll indent cs ns)
    (h' : ShowsAll indent ds ms) : ShowsAll indent (cs ++ ds) (ns ++ ms) := by
  induction ns generalizing cs with
  | nil => cases h; exact h'
  | cons n ns ih =>
    cases h with
    | cons hn h => exact .cons hn (ih h)
    | space hs hb h => exact .space hs hb (ih h)

/-! ## Reading on -/

namespace Assembly

/-- The text, read from here on, comes to `result`. -/
def Reads (start : Nat) (text : List Char) (a result : Assembly) : Prop :=
  ∀ fuel, text.length < fuel → ((piecesFrom? fuel start text).bind fun ps => ps.foldlM place? a) = some result

variable {a a' result : Assembly} {start : Nat} {rest : List Char}

theorem Reads.nil (start : Nat) (a : Assembly) : Reads start [] a a := by
  intro fuel hf
  obtain ⟨i, rfl⟩ : ∃ i, fuel = i + 1 := ⟨fuel - 1, by omega⟩
  rfl

theorem Reads.piece {front : List Char} {p : Piece} (hnext : Piece.next? (front ++ rest) = some (p, rest))
    (hfront : front ≠ []) (hplace : a.place? ⟨start, p⟩ = some a')
    (h : Reads (start + front.length) rest a' result) : Reads start (front ++ rest) a result := by
  intro fuel hf
  obtain ⟨i, rfl⟩ : ∃ i, fuel = i + 1 := ⟨fuel - 1, by omega⟩
  have length := List.length_pos_iff.2 hfront
  rw [List.length_append] at hf
  have more := h i (by omega)
  have notEmpty : ¬ (front ++ rest).isEmpty = true := by
    rw [List.isEmpty_iff]
    exact fun he => hfront (List.append_eq_nil_iff.1 he).1
  have taken : start + ((front ++ rest).length - rest.length) = start + front.length := by
    rw [List.length_append, Nat.add_sub_cancel]
  rw [piecesFrom?, if_neg notEmpty, hnext, Option.bind_some]
  dsimp only
  rw [taken]
  cases hps : piecesFrom? i (start + front.length) rest with
  | none => rw [hps] at more; cases more
  | some ps =>
    rw [hps, Option.bind_some] at more
    simp only [Option.map_some, Option.bind_some, List.foldlM_cons, hplace]
    exact more

/-- The last node is no text, so that text makes a node of its own. -/
def Ready (a : Assembly) : Prop := ∀ s v before, a.nodes ≠ .text s v :: before

theorem addText_of_ready (h : a.Ready) (start : Nat) (value : String) : a.addText start value = a.add (.text start value) := by
  unfold addText
  split
  · next heq => exact absurd heq (h _ _ _)
  · rfl

/-- Adds nodes behind the others. -/
def extend (a : Assembly) (nodes : List Node) : Assembly := { a with nodes := nodes.reverse ++ a.nodes }

/-! ## Line starts -/

theorem lineStart_cases (indent : Option Nat) (depth : Nat) :
    (Element.lineStart indent depth).toList = [] ∨ (indent.isSome = true ∧
      (Element.lineStart indent depth).toList ≠ [] ∧
      ∀ c ∈ (Element.lineStart indent depth).toList, c = '\n' ∨ c = ' ') := by
  cases indent with
  | none => exact .inl rfl
  | some width =>
    have chars : (Element.lineStart (some width) depth).toList = '\n' :: List.replicate (width * depth) ' ' := by
      simp [Element.lineStart]
    rw [chars]
    refine .inr ⟨rfl, List.cons_ne_nil _ _, fun c hc => ?_⟩
    rcases List.mem_cons.1 hc with rfl | hc
    · exact .inl rfl
    · exact .inr (List.eq_of_mem_replicate hc)

theorem isSpace_of_lineStart {c : Char} (h : c = '\n' ∨ c = ' ') : Text.isSpace c = true := by
  rcases h with rfl | rfl <;> decide

theorem written?_blanks : ∀ {blanks : List Char}, (∀ c ∈ blanks, c = '\n' ∨ c = ' ') →
    written? blanks = some (blanks.map .plain)
  | [], _ => rfl
  | c :: cs, h => by
    have rest := written?_blanks fun d hd => h d (List.mem_cons_of_mem c hd)
    have noReference : c ≠ '&' := by
      rcases h c List.mem_cons_self with rfl | rfl <;> decide
    unfold written? at rest ⊢
    rw [writtenFrom?, if_neg noReference, rest]
    rfl

theorem lineEnds_blanks : ∀ {blanks : List Char}, (∀ c ∈ blanks, c = '\n' ∨ c = ' ') →
    lineEnds false (blanks.map .plain) = blanks
  | [], _ => rfl
  | c :: cs, h => by
    have rest := lineEnds_blanks fun d hd => h d (List.mem_cons_of_mem c hd)
    rcases h c List.mem_cons_self with rfl | rfl
    · exact congrArg ('\n' :: ·) rest
    · exact congrArg (' ' :: ·) rest

/-- Line feeds and spaces are read as they are. -/
theorem textValue_blanks {blanks : List Char} (h : ∀ c ∈ blanks, c = '\n' ∨ c = ' ') : textValue blanks = some blanks := by
  rw [textValue, written?_blanks h, Option.map_some, lineEnds_blanks h]

/-- The start of a line inside an element is read as a text, if there is anything. -/
theorem reads_lineStart (indent : Option Nat) (depth start : Nat) (hopened : a.opened ≠ []) (ha : a.Ready) :
    ∃ texts, ShowsAll indent [] texts ∧ ∀ rest result,
      Reads (start + (Element.lineStart indent depth).toList.length) ('<' :: rest) (a.extend texts) result →
        Reads start ((Element.lineStart indent depth).toList ++ '<' :: rest) a result := by
  rcases lineStart_cases indent depth with hnil | ⟨hindent, hne, hblank⟩
  · rw [hnil]
    exact ⟨[], .nil, fun rest result h => h⟩
  · have spaces : ∀ c ∈ (Element.lineStart indent depth).toList, Text.isSpace c = true :=
      fun c hc => isSpace_of_lineStart (hblank c hc)
    have open? : ¬ a.opened.isEmpty = true := by
      rw [List.isEmpty_iff]
      exact hopened
    refine ⟨[.text start (Element.lineStart indent depth)], .space hindent spaces .nil, fun rest result h => ?_⟩
    refine .piece (Piece.next?_blanks hne spaces rest) hne ?_ h
    rw [place?]
    dsimp only
    rw [if_neg open?, textValue_blanks hblank, Option.map_some, String.ofList_toList, addText_of_ready ha]
    rfl

/-- In front of the outermost element it is passed over. -/
theorem reads_lineStart_outside (indent : Option Nat) (depth start : Nat) (hopened : a.opened = []) {rest : List Char}
    (h : Reads (start + (Element.lineStart indent depth).toList.length) ('<' :: rest) a result) :
    Reads start ((Element.lineStart indent depth).toList ++ '<' :: rest) a result := by
  rcases lineStart_cases indent depth with hnil | ⟨-, hne, hblank⟩
  · rw [hnil] at h ⊢
    exact h
  · have spaces : ∀ c ∈ (Element.lineStart indent depth).toList, Text.isSpace c = true :=
      fun c hc => isSpace_of_lineStart (hblank c hc)
    refine .piece (Piece.next?_blanks hne spaces rest) hne ?_ h
    rw [place?]
    dsimp only
    rw [hopened, if_pos (by rfl), if_pos (List.all_eq_true.2 spaces)]

end Assembly

/-! ## Elements that can be read back -/

namespace Element

/-- An attribute that can be written and read back. -/
structure FitAttribute (a : String × String) : Prop where
  name : Text.isName a.1.toList = true
  noDeclaration : a.1 ≠ "xmlns"
  value : Proper a.2.toList

/-- The names of these attributes differ. -/
structure FitAttributes (attributes : List (String × String)) : Prop where
  fit : ∀ a ∈ attributes, FitAttribute a
  distinct : (attributes.map Prod.fst).Nodup

theorem FitAttributes.nil : FitAttributes [] := ⟨nofun, .nil⟩

theorem FitAttributes.single {a : String × String} (h : FitAttribute a) : FitAttributes [a] :=
  ⟨List.forall_mem_singleton.2 h, List.pairwise_singleton _ _⟩

/-- An element that can be written and read back. -/
inductive Fit : Element → Prop
  | mk {name : String} {attributes : List (String × String)} {children : List Element} (n : TagName) :
      n.Known → name.toList = n.chars → FitAttributes attributes → (∀ c ∈ children, Fit c) →
      Fit (.mk name attributes children)

/-- An attribute without a qualifier, as the reader sees it. -/
def written (a : String × String) : TagName × List Char := (⟨[], a.1.toList⟩, a.2.toList)

theorem chars_written (a : String × String) : (written a).1.chars = a.1.toList := if_pos rfl

theorem writeAttribute_toList (a : String × String) : (writeAttribute a).toList = attributeChars (written a) := by
  obtain ⟨name, value⟩ := a
  rw [attributeChars, chars_written]
  simp [writeAttribute, escape, written]

theorem writeDeclaring_toList : (writeAttribute ("xmlns:xsl", Instruction.uri)).toList = attributeChars declaring := by
  decide

theorem plain_written {a : String × String} (h : FitAttribute a) : PlainAttribute (written a) where
  name := h.name
  qualifier := rfl
  noDeclaration hsame := h.noDeclaration (String.toList_injective hsame)

theorem distinct_written {attributes : List (String × String)} (h : FitAttributes attributes) :
    ((attributes.map written).map fun a => a.1.base).Nodup := by
  rw [List.map_map]
  have := h.distinct
  rw [List.Nodup, List.pairwise_map] at this ⊢
  exact this.imp fun hne hsame => hne (String.toList_injective hsame)

theorem readAttribute_written (a : String × String) : Tag.readAttribute (written a) = readAttribute a := by
  rw [Tag.readAttribute, readAttribute, written, String.ofList_toList]

/-- An element is written as a start tag in a line of its own, and if there are children, these and an end
tag. -/
theorem write_toList {name : String} {n : TagName} (hname : name.toList = n.chars) {as : List (TagName × List Char)}
    {attributes : List (String × String)} (has : (attributes.map writeAttribute).flatMap String.toList =
      as.flatMap attributeChars) (indent : Option Nat) (depth : Nat) (children : List Element) :
    (write indent depth (.mk name attributes children)).toList = (lineStart indent depth).toList ++
      (tagChars n as children.isEmpty ++ if children.isEmpty then [] else
        (writeAll indent (depth + 1) children).toList ++ ((lineStart indent depth).toList ++ endTagChars n)) := by
  rw [write]
  cases children <;> simp [tagChars, endTagChars, tagEnd, String.toList_join, hname, has]

theorem flatMap_written (attributes : List (String × String)) :
    (attributes.map writeAttribute).flatMap String.toList = (attributes.map written).flatMap attributeChars := by
  rw [List.flatMap_map, List.flatMap_map]
  exact congrArg (attributes.flatMap ·) (funext writeAttribute_toList)

/-- The declaration of instructions is written in front of the attributes. -/
theorem flatMap_declaring (attributes : List (String × String)) :
    ((("xmlns:xsl", Instruction.uri) :: attributes).map writeAttribute).flatMap String.toList =
      (declaring :: attributes.map written).flatMap attributeChars := by
  rw [List.map_cons, List.flatMap_cons, List.flatMap_cons, writeDeclaring_toList, flatMap_written]

end Element

/-! ## Reading elements -/

namespace Assembly

variable {a result : Assembly} {indent : Option Nat}

/-- Inside an element the text is read as these elements. -/
def ReadsAs (indent : Option Nat) (text : List Char) (cs : List Element) : Prop :=
  ∀ (a : Assembly) (start : Nat), a.opened ≠ [] → a.scope = Tag.instructionScope → a.Ready →
    ∃ nodes, ShowsAll indent cs nodes ∧ (a.extend nodes).Ready ∧ ∀ rest result,
      Reads (start + text.length) rest (a.extend nodes) result → Reads start (text ++ rest) a result

theorem ReadsAs.nil : ReadsAs indent [] [] := fun _ _ _ _ ha => ⟨[], .nil, ha, fun _ _ h => h⟩

theorem extend_extend (a : Assembly) (ns ms : List Node) : (a.extend ns).extend ms = a.extend (ns ++ ms) := by
  simp [extend]

theorem ReadsAs.append {text text' : List Char} {cs ds : List Element} (h : ReadsAs indent text cs)
    (h' : ReadsAs indent text' ds) : ReadsAs indent (text ++ text') (cs ++ ds) := by
  intro a start hopened hscope ha
  obtain ⟨nodes, hshows, hready, hreads⟩ := h a start hopened hscope ha
  obtain ⟨more, hshows', hready', hreads'⟩ := h' (a.extend nodes) (start + text.length) hopened hscope hready
  rw [extend_extend] at hready' hreads'
  refine ⟨nodes ++ more, hshows.append hshows', hready', fun rest result hrest => ?_⟩
  rw [List.length_append, ← Nat.add_assoc] at hrest
  rw [List.append_assoc]
  exact hreads _ _ (hreads' _ _ hrest)

/-- **Reading an element**, behind the start of its line, when its children are read. -/
theorem reads_element {n : TagName} {as plain : List (TagName × List Char)} {children : List Element} {all : List Char}
    (hn : n.Known) (has : ∀ x ∈ as, x.1.Fit)
    (htag : Tag.ofRaw? a.scope n (as.map rawAttribute) = some (Tag.readAs n plain))
    (hroom : ¬ (a.opened.isEmpty = true ∧ a.hasElement = true)) (hall : ReadsAs indent all children) (depth start : Nat) :
    ∃ nodes, ShowsAll indent children nodes ∧ ∀ text rest result,
      text = tagChars n as children.isEmpty ++ (if children.isEmpty then [] else
        all ++ ((Element.lineStart indent depth).toList ++ endTagChars n)) →
      Reads (start + text.length) rest (a.add (.element start (Tag.readAs n plain) nodes)) result →
        Reads start (text ++ rest) a result := by
  have opening : ∀ closed, a.place? ⟨start, .opening n (as.map rawAttribute) closed⟩ =
      some (if closed then a.add (.element start (Tag.readAs n plain) [])
        else ⟨[], ⟨start, n, Tag.readAs n plain, a.nodes⟩ :: a.opened⟩) := by
    intro closed
    rw [place?]
    dsimp only
    rw [if_neg hroom, htag]
    rfl
  cases children with
  | nil =>
    refine ⟨[], .nil, fun text rest result htext h => ?_⟩
    simp only [List.isEmpty_nil, if_true, List.append_nil] at htext
    subst htext
    exact .piece (Piece.next?_opening hn.toFit has true rest) (List.cons_ne_nil _ _) (opening true) h
  | cons c cs =>
    let inside : Assembly := ⟨[], ⟨start, n, Tag.readAs n plain, a.nodes⟩ :: a.opened⟩
    have hopened : inside.opened ≠ [] := List.cons_ne_nil _ _
    obtain ⟨nodes, hshows, hready, hreads⟩ := hall inside (start + (tagChars n as false).length) hopened rfl nofun
    obtain ⟨texts, hblank, hline⟩ := reads_lineStart (a := inside.extend nodes) indent depth
      (start + (tagChars n as false).length + all.length) hopened hready
    have shows := hshows.append hblank
    rw [List.append_nil] at shows
    refine ⟨nodes ++ texts, shows, fun text rest result htext h => ?_⟩
    simp only [List.isEmpty_cons, Bool.false_eq_true, if_false] at htext
    subst htext
    have closing : ((inside.extend nodes).extend texts).place? ⟨start + (tagChars n as false).length + all.length +
        (Element.lineStart indent depth).toList.length, .closing n⟩ =
          some (a.add (.element start (Tag.readAs n plain) (nodes ++ texts))) := by
      rw [extend_extend]
      simp [place?, inside, extend, add]
    have behind : start + (tagChars n as false ++ (all ++ ((Element.lineStart indent depth).toList ++
        endTagChars n))).length = start + (tagChars n as false).length + all.length +
          (Element.lineStart indent depth).toList.length + (endTagChars n).length := by
      simp only [List.length_append]
      omega
    rw [behind] at h
    have last := Reads.piece (Piece.next?_closing hn.toFit rest) (List.cons_ne_nil _ _) closing h
    have line := hline _ _ last
    have inner := hreads _ _ line
    have first := Reads.piece (Piece.next?_opening hn.toFit has false _) (List.cons_ne_nil _ _) (opening false) inner
    simp only [List.append_assoc]
    exact first

theorem shows_readAs {name : String} {n : TagName} {attributes : List (String × String)} {children : List Element}
    {nodes : List Node} (hn : n.Known) (hname : name.toList = n.chars) (h : ShowsAll indent children nodes) (start : Nat) :
    Shows indent (.mk name attributes children)
      (.element start (Tag.readAs n (attributes.map Element.written)) nodes) := by
  have kept : (Tag.readAs n (attributes.map Element.written)).attributes = attributes.map Element.readAttribute := by
    show (attributes.map Element.written).map Tag.readAttribute = _
    rw [List.map_map]
    exact List.map_congr_left fun a _ => Element.readAttribute_written a
  rcases hn.known with hq | hq
  · have reported : (Node.element start (Tag.readAs n (attributes.map Element.written)) nodes).name =
        some ⟨none, String.ofList n.base⟩ := by
      simp only [Node.name, Tag.readAs, if_pos hq, Option.bind_none]
    refine .element _ reported ?_ (.inl ⟨rfl, if_pos hq⟩) kept h
    have : n.chars = n.base := if_pos hq
    rw [QName.display, ← this, ← hname, String.ofList_toList]
  · have hne : n.qualifier ≠ [] := by
      rw [hq]
      decide
    have reported : (Node.element start (Tag.readAs n (attributes.map Element.written)) nodes).name =
        some ⟨some "xsl", String.ofList n.base⟩ := by
      simp only [Node.name, Tag.readAs, if_neg hne, Option.bind_some]
      rfl
    refine .element _ reported ?_ (.inr ⟨rfl, if_neg hne⟩) kept h
    have : n.chars = n.qualifier ++ ':' :: n.base := if_neg hne
    rw [this, hq] at hname
    refine String.toList_injective ?_
    rw [hname, QName.display]
    simp [instructionQualifier]

theorem fit_written {attributes : List (String × String)} (h : Element.FitAttributes attributes) :
    ∀ x ∈ attributes.map Element.written, PlainAttribute x := by
  intro x hx
  obtain ⟨a, ha, rfl⟩ := List.mem_map.1 hx
  exact Element.plain_written (h.fit a ha)

theorem readsAs_writeAll {cs : List Element} {depth : Nat}
    (h : ∀ c ∈ cs, ReadsAs indent (Element.write indent depth c).toList [c]) :
    ReadsAs indent (Element.writeAll indent depth cs).toList cs := by
  induction cs with
  | nil => exact .nil
  | cons c cs ih =>
    rw [Element.writeAll, String.toList_append]
    exact (h c List.mem_cons_self).append (ih fun d hd => h d (List.mem_cons_of_mem c hd))

/-- **What is written for an element is read as that element**, at any depth inside another one. -/
theorem readsAs_write {e : Element} (h : e.Fit) :
    ∀ depth, ReadsAs indent (Element.write indent depth e).toList [e] := by
  induction h with
  | @mk name attributes children n hn hname hattributes hchildren ih =>
    intro depth a start hopened hscope ha
    have all := readsAs_writeAll fun c hc => ih c hc (depth + 1)
    have plain := fit_written hattributes
    have inScope := Tag.ofRaw?_inner hn plain (Element.distinct_written hattributes)
    obtain ⟨texts, hblank, hline⟩ := reads_lineStart indent depth start hopened ha
    rw [← hscope] at inScope
    have open? : ¬ (a.opened.isEmpty = true ∧ (a.extend texts).hasElement = true) := by
      rw [List.isEmpty_iff]
      exact fun hno => hopened hno.1
    obtain ⟨nodes, hshows, hreads⟩ := reads_element (a := a.extend texts) hn (fun x hx => (plain x hx).fit) inScope
      open? all depth (start + (Element.lineStart indent depth).toList.length)
    refine ⟨texts ++ [.element (start + (Element.lineStart indent depth).toList.length)
      (Tag.readAs n (attributes.map Element.written)) nodes], ?_, ?_, fun rest result hrest => ?_⟩
    · exact hblank.append (.cons (shows_readAs hn hname hshows _) .nil)
    · intro s v before
      simp [extend]
    · rw [Element.write_toList hname (Element.flatMap_written attributes)] at hrest ⊢
      rw [List.append_assoc]
      refine hline _ _ (hreads _ _ _ rfl ?_)
      rw [List.length_append, ← Nat.add_assoc] at hrest
      rw [← extend_extend] at hrest
      exact hrest

end Assembly

/-! ## Documents -/

/-- The text behind the declaration is read from where it stands. -/
theorem parse?_declaration {text : String} {body : List Char} {result : Assembly} {nodes : List Node}
    (htext : text.toList = Element.declaration.toList ++ body) (hproper : Proper body)
    (h : Assembly.Reads Element.declaration.toList.length body .empty result) (hresult : result.complete? = some nodes) :
    XmlDocument.parse? text = some ⟨text.toList, nodes⟩ := by
  have proper : Proper text.toList := by
    rw [htext]
    exact Proper.append (by decide) hproper
  have behind : text.toList.length - body.length = Element.declaration.toList.length := by
    rw [htext, List.length_append, Nat.add_sub_cancel]
  have read := h (body.length + 1) (Nat.lt_succ_self _)
  have prolog : prolog? text.toList = some body := by
    rw [htext]
    rfl
  cases hpieces : piecesFrom? (body.length + 1) Element.declaration.toList.length body with
  | none => rw [hpieces] at read; cases read
  | some pieces =>
    rw [hpieces, Option.bind_some] at read
    rw [XmlDocument.parse?, pieces?, if_pos (List.all_eq_true.2 proper), prolog, Option.bind_some, behind, hpieces,
      Option.bind_some, Node.ofPieces?, read, Option.bind_some, hresult, Option.map_some]

namespace Element

variable {n : TagName} {as : List (TagName × List Char)} {indent : Option Nat}

theorem proper_lineStart (depth : Nat) : Proper (lineStart indent depth).toList := by
  rcases Assembly.lineStart_cases indent depth with hnil | ⟨-, -, hblank⟩
  · rw [hnil]
    exact .nil
  · exact fun c hc => isChar_of_isSpace (Assembly.isSpace_of_lineStart (hblank c hc))

theorem proper_attributeChars {a : TagName × List Char} (hname : a.1.Fit) (hvalue : Proper a.2) :
    Proper (attributeChars a) := by
  have quoted := (proper_escape hvalue).append (.cons (by decide : isChar '"' = true) .nil)
  have value := (quoted.cons (by decide : isChar '"' = true)).cons (by decide : isChar '=' = true)
  exact ((TagName.proper_chars hname).append value).cons (by decide)

theorem proper_tagChars (hn : n.Fit) (has : ∀ a ∈ as, a.1.Fit ∧ Proper a.2) (closed : Bool) :
    Proper (tagChars n as closed) := by
  have ending : Proper (tagEnd closed) := by
    cases closed <;> decide
  have attributes : Proper (as.flatMap attributeChars) := by
    intro c hc
    obtain ⟨a, ha, hc⟩ := List.mem_flatMap.1 hc
    exact proper_attributeChars (has a ha).1 (has a ha).2 c hc
  exact ((TagName.proper_chars hn).append (attributes.append ending)).cons (by decide)

theorem proper_endTagChars (hn : n.Fit) : Proper (endTagChars n) :=
  (((TagName.proper_chars hn).append (.cons (by decide) .nil)).cons (by decide)).cons (by decide)

theorem proper_written {attributes : List (String × String)} (h : FitAttributes attributes) :
    ∀ a ∈ attributes.map written, a.1.Fit ∧ Proper a.2 := by
  intro a ha
  obtain ⟨b, hb, rfl⟩ := List.mem_map.1 ha
  exact ⟨(plain_written (h.fit b hb)).fit, (h.fit b hb).value⟩

theorem proper_writeAll {cs : List Element} {depth : Nat} (h : ∀ c ∈ cs, Proper (write indent depth c).toList) :
    Proper (writeAll indent depth cs).toList := by
  induction cs with
  | nil => exact .nil
  | cons c cs ih =>
    rw [writeAll, String.toList_append]
    exact (h c List.mem_cons_self).append (ih fun d hd => h d (List.mem_cons_of_mem c hd))

/-- An element is written in proper characters if its attributes and its children are. -/
theorem proper_write_of {name : String} {attributes : List (String × String)} {children : List Element} {depth : Nat}
    (hn : n.Fit) (hname : name.toList = n.chars) (has : ∀ a ∈ as, a.1.Fit ∧ Proper a.2)
    (hattributes : (attributes.map writeAttribute).flatMap String.toList = as.flatMap attributeChars)
    (hchildren : ∀ c ∈ children, Proper (write indent (depth + 1) c).toList) :
    Proper (write indent depth (.mk name attributes children)).toList := by
  rw [write_toList hname hattributes]
  refine (proper_lineStart depth).append ((proper_tagChars hn has _).append ?_)
  split
  · exact .nil
  · exact (proper_writeAll hchildren).append ((proper_lineStart depth).append (proper_endTagChars hn))

theorem proper_write {e : Element} (h : e.Fit) : ∀ depth, Proper (write indent depth e).toList := by
  induction h with
  | mk n hn hname hattributes hchildren ih =>
    intro depth
    exact proper_write_of hn.toFit hname (proper_written hattributes) (flatMap_written _)
      fun c hc => ih c hc (depth + 1)

/-- **A document that declares the namespace of instructions is read back as the element that was
written**, and nothing else. -/
theorem parse?_writeDocument {name : String} {attributes : List (String × String)} {children : List Element}
    (h : (Element.mk name attributes children).Fit) (indent : Option Nat) :
    ∃ d node, XmlDocument.parse? (writeDocument indent
        (some (.mk name (("xmlns:xsl", Instruction.uri) :: attributes) children))) = some d ∧
      d.nodes = [node] ∧ Shows indent (.mk name attributes children) node := by
  obtain ⟨n, hn, hname, hattributes, hchildren⟩ := h
  have plain := Assembly.fit_written hattributes
  have texts := flatMap_declaring attributes
  have fit : ∀ a ∈ declaring :: attributes.map written, a.1.Fit ∧ Proper a.2 := by
    intro a ha
    rcases List.mem_cons.1 ha with rfl | ha
    · exact ⟨declaring_fit, by decide⟩
    · exact proper_written hattributes a ha
  have all : Assembly.ReadsAs indent (writeAll indent 1 children).toList children :=
    Assembly.readsAs_writeAll fun c hc => Assembly.readsAs_write (hchildren c hc) 1
  have outer := Tag.ofRaw?_outer hn plain (distinct_written hattributes)
  have proper : Proper (write indent 0 (.mk name (("xmlns:xsl", Instruction.uri) :: attributes) children)).toList :=
    proper_write_of hn.toFit hname fit texts fun c hc => proper_write (hchildren c hc) 1
  let start := declaration.toList.length + (lineStart indent 0).toList.length
  obtain ⟨nodes, hshows, hreads⟩ := Assembly.reads_element (a := .empty) hn (fun a ha => (fit a ha).1) outer
    (by decide) all 0 start
  have element := hreads _ [] _ rfl (.nil _ _)
  rw [List.append_nil] at element
  have reads : Assembly.Reads declaration.toList.length
      (write indent 0 (.mk name (("xmlns:xsl", Instruction.uri) :: attributes) children)).toList .empty
      (Assembly.empty.add (.element start (Tag.readAs n (attributes.map written)) nodes)) := by
    rw [write_toList hname texts]
    exact Assembly.reads_lineStart_outside indent 0 declaration.toList.length rfl element
  refine ⟨_, _, parse?_declaration ?_ proper reads rfl, rfl, Assembly.shows_readAs hn hname hshows _⟩
  rw [writeDocument, String.toList_append]

end Element

end StylesheetReversal.Xml
