import StylesheetReversal.Proofs.Xml.Assembly
import StylesheetReversal.Proofs.Xml.Names
/-!
# Elements and attributes have names

Whatever is read as the name of an element or of an attribute is a name with at most one colon, and what is behind
the colon is a name as well.  So all elements and attributes of a document have names (`XmlDocument.isName_element`,
`XmlDocument.isName_attribute`).
-/
namespace StylesheetReversal.Xml

theorem TagName.isName_next? {text rest : List Char} {n : TagName} (h : next? text = some (n, rest)) :
    Text.isName n.base = true := by
  obtain ⟨name, hname, hpair⟩ := Option.map_eq_some_iff.1 h
  cases hpair
  have fit : ∀ n' : TagName, (if Text.isName n'.base && (n'.qualifier.isEmpty || Text.isName n'.qualifier)
      then some n' else none) = some n → Text.isName n.base = true := by
    intro n' h'
    split at h'
    · next hn =>
      cases h'
      exact (Bool.and_eq_true _ _ ▸ hn).1
    · cases h'
  unfold ofChars? at hname
  exact fit _ hname

theorem RawAttribute.isName_next? {text rest : List Char} {a : RawAttribute} (h : next? text = some (a, rest)) :
    Text.isName a.name.base = true := by
  obtain ⟨⟨name, behind⟩, hname, h⟩ := Option.bind_eq_some_iff.1 h
  dsimp only at h
  split at h
  · obtain ⟨⟨raw, rest'⟩, -, hpair⟩ := Option.map_eq_some_iff.1 h
    cases hpair
    exact TagName.isName_next? hname
  · cases h

/-! ## Pieces -/

namespace Piece

/-- The element that a start tag opens and its attributes have names. -/
def Named : Piece → Prop
  | .opening name attributes _ => Text.isName name.base = true ∧ ∀ a ∈ attributes, Text.isName a.name.base = true
  | _ => True

theorem isName_attributes? : ∀ {fuel : Nat} {cs rest : List Char} {as : List RawAttribute} {closed : Bool},
    attributes? fuel cs = some (as, closed, rest) → ∀ a ∈ as, Text.isName a.name.base = true
  | 0, _, _, _, _, h => by cases h
  | fuel + 1, cs, rest, as, closed, h => by
    rw [attributes?] at h
    split at h
    · cases h
      exact nofun
    · cases h
      exact nofun
    · split at h
      · obtain ⟨⟨first, behind⟩, hfirst, h⟩ := Option.bind_eq_some_iff.1 h
        obtain ⟨⟨more, closed', rest'⟩, hmore, hpair⟩ := Option.map_eq_some_iff.1 h
        cases hpair
        intro a ha
        rcases List.mem_cons.1 ha with rfl | ha
        · exact RawAttribute.isName_next? hfirst
        · exact isName_attributes? hmore a ha
      · cases h

theorem named_opening? {text rest : List Char} {p : Piece} (h : opening? text = some (p, rest)) : p.Named := by
  obtain ⟨⟨name, behind⟩, hname, h⟩ := Option.bind_eq_some_iff.1 h
  obtain ⟨⟨as, closed, rest'⟩, has, hpair⟩ := Option.map_eq_some_iff.1 h
  cases hpair
  exact ⟨TagName.isName_next? hname, isName_attributes? has⟩

/-- **A piece that is a start tag** names the element and its attributes. -/
theorem named_next? {text rest : List Char} {p : Piece} (h : next? text = some (p, rest)) : p.Named := by
  unfold next? at h
  split at h
  · obtain ⟨⟨body, behind⟩, -, h⟩ := Option.bind_eq_some_iff.1 h
    dsimp only at h
    split at h <;> cases h
    trivial
  · obtain ⟨⟨raw, behind⟩, -, h⟩ := Option.map_eq_some_iff.1 h
    cases h
    trivial
  · unfold instruction? at h
    dsimp only at h
    split at h
    · cases h
    · obtain ⟨⟨value, behind⟩, -, h⟩ := Option.map_eq_some_iff.1 h
      cases h
      trivial
  · obtain ⟨⟨name, behind⟩, -, h⟩ := Option.bind_eq_some_iff.1 h
    dsimp only at h
    split at h <;> cases h
    trivial
  · exact named_opening? h
  · unfold text? at h
    dsimp only at h
    split at h <;> cases h
    trivial

end Piece

theorem named_piecesFrom? : ∀ {fuel start : Nat} {text : List Char} {ps : List Placed},
    piecesFrom? fuel start text = some ps → ∀ p ∈ ps, p.piece.Named
  | 0, _, _, _, h => by cases h
  | fuel + 1, start, text, ps, h => by
    rw [piecesFrom?] at h
    split at h
    · cases h
      exact nofun
    · obtain ⟨⟨piece, rest⟩, hnext, h⟩ := Option.bind_eq_some_iff.1 h
      obtain ⟨more, hmore, rfl⟩ := Option.map_eq_some_iff.1 h
      intro p hp
      rcases List.mem_cons.1 hp with rfl | hp
      · exact Piece.named_next? hnext
      · exact named_piecesFrom? hmore p hp

theorem named_pieces? {text : List Char} {ps : List Placed} (h : pieces? text = some ps) : ∀ p ∈ ps, p.piece.Named := by
  unfold pieces? at h
  split at h
  · obtain ⟨body, -, h⟩ := Option.bind_eq_some_iff.1 h
    exact named_piecesFrom? h
  · cases h

/-! ## Tags -/

/-- The element and its attributes have names. -/
structure Tag.Named (t : Tag) : Prop where
  base : Text.isName t.base.toList = true
  attributes : ∀ a ∈ t.attributes, Text.isName a.base.toList = true

theorem Tag.named_ofRaw? {inherited : List Binding} {name : TagName} {raw : List RawAttribute} {t : Tag}
    (hname : Text.isName name.base = true) (hraw : ∀ a ∈ raw, Text.isName a.name.base = true)
    (h : ofRaw? inherited name raw = some t) : t.Named := by
  obtain ⟨hbase, hattributes⟩ := written_of_ofRaw? h
  refine ⟨?_, fun a ha => ?_⟩
  · rw [hbase, String.toList_ofList]
    exact hname
  · obtain ⟨r, hr, hbase, -⟩ := hattributes a ha
    rw [hbase, String.toList_ofList]
    exact hraw r hr

/-! ## Nodes -/

/-- The node, if it is an element, and all elements inside it have names, and so have their attributes. -/
inductive Node.Named : Node → Prop
  | element {start : Nat} {tag : Tag} {children : List Node} :
      tag.Named → (∀ n ∈ children, Named n) → Named (.element start tag children)
  | text {start : Nat} {value : String} : Named (.text start value)
  | comment {start : Nat} {value : String} : Named (.comment start value)
  | instruction {start : Nat} {target value : String} : Named (.instruction start target value)

theorem Node.Named.children {n : Node} (h : n.Named) : ∀ m ∈ n.children, m.Named := by
  cases h with
  | element _ hchildren => exact hchildren
  | text => exact nofun
  | comment => exact nofun
  | instruction => exact nofun

/-- **Names stay names** when the nodes are put together. -/
theorem Node.named_built : Built Piece.Named Tag.Named Node.Named where
  text _ _ := .text
  cdata _ := .text
  append _ _ := .text
  comment _ := .comment
  instruction _ := .instruction
  tag _ h := Tag.named_ofRaw? h.1 h.2
  element := .element
  children := Named.children

/-! ## Documents -/

namespace XmlDocument

variable {d : XmlDocument}

/-- All elements of the document have names, and so have their attributes. -/
def Named (d : XmlDocument) : Prop := ∀ n ∈ d.nodes, n.Named

theorem named_parse? {text : String} (h : parse? text = some d) : d.Named :=
  Node.named_built.parse? (fun _ => named_pieces?) h

theorem Named.node? (h : d.Named) {address : List Nat} {n : Node} (hn : d.node? address = some n) : n.Named :=
  Node.named_built.node? h hn

/-- **Elements have names.** -/
theorem Named.isName_element (h : d.Named) : ∀ {n : Ref}, d.kind n = .element →
    Text.isName (d.document.baseName n).toList = true
  | .attribute .., hn => by cases hn
  | .node address, hn => by
    cases hnode : d.node? address with
    | none => simp [XmlDocument.kind, hnode] at hn
    | some node =>
      cases h.node? hnode with
      | @element start tag children htag _ =>
        have base : d.document.baseName (.node address) = tag.base := by
          simp [Document.baseName, document, name, hnode, Node.name]
        rw [base]
        exact htag.base
      | text => simp [XmlDocument.kind, hnode, Node.kind] at hn
      | comment => simp [XmlDocument.kind, hnode, Node.kind] at hn
      | instruction => simp [XmlDocument.kind, hnode, Node.kind] at hn

/-- **Attributes have names.** -/
theorem Named.isName_attribute (h : d.Named) : ∀ {n a : Ref}, a ∈ d.attributes n →
    Text.isName (d.document.baseName a).toList = true
  | .attribute .., _, ha => by cases ha
  | .node address, a, ha => by
    cases hnode : d.node? address with
    | none => simp [attributes, hnode] at ha
    | some node =>
      simp only [attributes, hnode, List.mem_map, List.mem_range] at ha
      obtain ⟨i, hi, rfl⟩ := ha
      cases h.node? hnode with
      | @element start tag children htag _ =>
        have here : tag.attributes[i]? = some (tag.attributes.get ⟨i, hi⟩) := List.getElem?_eq_getElem hi
        have base : d.document.baseName (.attribute address i) = (tag.attributes.get ⟨i, hi⟩).base := by
          simp [Document.baseName, document, name, hnode, here]
        rw [base]
        exact htag.attributes _ (List.getElem_mem hi)
      | text => cases hi
      | comment => cases hi
      | instruction => cases hi

end XmlDocument

end StylesheetReversal.Xml
