import StylesheetReversal.Proofs.Xml.Assembly
import StylesheetReversal.Proofs.Xml.ProperPieces
/-!
# The nodes of a document are proper

References only stand for characters that may stand in a document, so all that a document says is made of such
characters: the names and the values of its nodes (`XmlDocument.proper_value`, `XmlDocument.proper_baseName`).
-/
namespace StylesheetReversal.Xml

/-! ## References -/

theorem isChar_of_numbered? {n : Nat} {c : Char} (h : numbered? n = some c) : isChar c = true := by
  unfold numbered? at h
  split at h
  · dsimp only at h
    by_cases hc : isChar (if n.isValidChar then Char.ofNat n else Char.ofNat 0xFFFD) = true
    · rw [if_pos hc] at h
      cases h
      exact hc
    · rw [if_neg hc] at h
      cases h
  · cases h

theorem isChar_of_spelled? {base : Nat} {digits : List Char} {c : Char} (h : spelled? base digits = some c) :
    isChar c = true := by
  unfold spelled? at h
  split at h
  · cases h
  · obtain ⟨n, -, hn⟩ := Option.bind_eq_some_iff.1 h
    exact isChar_of_numbered? hn

theorem isChar_of_referent? {name : List Char} {c : Char} (h : referent? name = some c) : isChar c = true := by
  unfold referent? at h
  split at h
  · cases h; decide
  · cases h; decide
  · cases h; decide
  · cases h; decide
  · cases h; decide
  · exact isChar_of_spelled? h
  · exact isChar_of_spelled? h
  · cases h

/-- The character that a text is written with, whichever way. -/
def Written.char : Written → Char
  | .plain c => c
  | .referred c => c

theorem writtenFrom?_proper : ∀ {cs : List Char} {reference : Option (List Char)} {ws : List Written}, Proper cs →
    writtenFrom? reference cs = some ws → Proper (ws.map Written.char)
  | [], reference, ws, _, h => by
    unfold writtenFrom? at h
    split at h
    · cases h
      exact .nil
    · cases h
  | c :: cs, none, ws, hcs, h => by
    rw [writtenFrom?] at h
    split at h
    · exact writtenFrom?_proper hcs.tail h
    · obtain ⟨more, hmore, rfl⟩ := Option.map_eq_some_iff.1 h
      exact (writtenFrom?_proper hcs.tail hmore).cons hcs.head
  | c :: cs, some read, ws, hcs, h => by
    rw [writtenFrom?] at h
    split at h
    · obtain ⟨d, hd, h⟩ := Option.bind_eq_some_iff.1 h
      obtain ⟨more, hmore, rfl⟩ := Option.map_eq_some_iff.1 h
      exact (writtenFrom?_proper hcs.tail hmore).cons (isChar_of_referent? hd)
    · exact writtenFrom?_proper hcs.tail h

theorem proper_spaced {ws : List Written} (h : Proper (ws.map Written.char)) : Proper (spaced ws) := by
  fun_induction spaced ws with
  | case1 => exact .nil
  | case2 c cs ih => exact (ih h.tail).cons h.head
  | case3 cs ih => exact (ih h.tail.tail).cons (by decide)
  | case4 c cs _ ih =>
    refine (ih h.tail).cons ?_
    split
    · decide
    · exact h.head

theorem isChar_carriageReturn (behind : Bool) (ws : List Written) : isChar (carriageReturn behind ws) = true := by
  unfold carriageReturn
  split
  · split <;> decide
  · decide
  · decide

theorem proper_lineEnds {behind : Bool} {ws : List Written} (h : Proper (ws.map Written.char)) :
    Proper (lineEnds behind ws) := by
  fun_induction lineEnds behind ws with
  | case1 => exact .nil
  | case2 _ c cs ih => exact (ih h.tail).cons h.head
  | case3 _ cs ih => exact (ih h.tail.tail).cons (by decide)
  | case4 behind c cs _ ih =>
    refine (ih h.tail).cons ?_
    split
    · exact isChar_carriageReturn behind cs
    · exact h.head

theorem textValue_proper {raw value : List Char} (hraw : Proper raw) (h : textValue raw = some value) : Proper value := by
  obtain ⟨ws, hws, rfl⟩ := Option.map_eq_some_iff.1 h
  exact proper_lineEnds (writtenFrom?_proper hraw hws)

theorem attributeValue_proper {raw value : List Char} (hraw : Proper raw) (h : attributeValue raw = some value) :
    Proper value := by
  obtain ⟨ws, hws, rfl⟩ := Option.map_eq_some_iff.1 h
  exact proper_spaced (writtenFrom?_proper hraw hws)

theorem cdataValue_proper {raw : List Char} (hraw : Proper raw) : Proper (cdataValue raw) := by
  refine proper_lineEnds ?_
  rw [List.map_map]
  have same : Written.char ∘ Written.plain = id := rfl
  rw [same, List.map_id]
  exact hraw

/-! ## Tags -/

/-- An attribute that was read from a proper text. -/
structure Attribute.Proper (a : Attribute) : Prop where
  base : Xml.Proper a.base.toList
  value : Xml.Proper a.value.toList

structure Tag.Proper (t : Tag) : Prop where
  base : Xml.Proper t.base.toList
  attributes : ∀ a ∈ t.attributes, a.Proper

theorem Tag.ofRaw?_proper {inherited : List Binding} {name : TagName} {raw : List RawAttribute} {t : Tag}
    (hname : name.Proper) (hraw : ∀ a ∈ raw, a.Proper) (h : ofRaw? inherited name raw = some t) : t.Proper := by
  obtain ⟨hbase, hattributes⟩ := written_of_ofRaw? h
  refine ⟨?_, fun a ha => ?_⟩
  · rw [hbase, String.toList_ofList]
    exact hname
  · obtain ⟨r, hr, hbase, value, hvalue, ha⟩ := hattributes a ha
    obtain ⟨proper, written⟩ := hraw r hr
    refine ⟨?_, ?_⟩
    · rw [hbase, String.toList_ofList]
      exact proper
    · rw [ha, String.toList_ofList]
      exact attributeValue_proper written hvalue

/-! ## Nodes -/

/-- All that the node and the nodes inside it say is proper. -/
inductive Node.Proper : Node → Prop
  | element {start : Nat} {tag : Tag} {children : List Node} :
      tag.Proper → (∀ n ∈ children, Proper n) → Proper (.element start tag children)
  | text {start : Nat} {value : String} : Xml.Proper value.toList → Proper (.text start value)
  | comment {start : Nat} {value : String} : Xml.Proper value.toList → Proper (.comment start value)
  | instruction {start : Nat} {target value : String} :
      Xml.Proper target.toList → Xml.Proper value.toList → Proper (.instruction start target value)

namespace Node

theorem Proper.children {n : Node} (h : n.Proper) : ∀ m ∈ n.children, m.Proper := by
  cases h with
  | element _ hchildren => exact hchildren
  | text _ => exact nofun
  | comment _ => exact nofun
  | instruction _ _ => exact nofun

/-- **Proper pieces make up proper nodes.** -/
theorem proper_built : Built Piece.Proper Tag.Proper Node.Proper where
  text hraw hvalue := by
    refine .text ?_
    rw [String.toList_ofList]
    exact textValue_proper hraw hvalue
  cdata hraw := by
    refine .text ?_
    rw [String.toList_ofList]
    exact cdataValue_proper hraw
  append hu hv := by
    cases hu with
    | text hu =>
      cases hv with
      | text hv =>
        refine .text ?_
        rw [String.toList_append]
        exact hu.append hv
  comment hbody := by
    refine .comment ?_
    rw [String.toList_ofList]
    exact hbody
  instruction h := by
    refine .instruction ?_ ?_
    · rw [String.toList_ofList]
      exact h.1
    · rw [String.toList_ofList]
      exact h.2
  tag _ h := Tag.ofRaw?_proper h.1 h.2
  element := .element
  children := Proper.children

end Node

/-! ## Documents -/

namespace Node

mutual

theorem Proper.innerText : ∀ {n : Node}, n.Proper → Xml.Proper n.innerText.toList
  | .element _ _ _, .element _ h => by
    rw [Node.innerText]
    exact proper_textOf h
  | .text _ _, .text h => by
    rw [Node.innerText]
    exact h
  | .comment _ _, _ => by
    rw [Node.innerText]
    exact .nil
  | .instruction _ _ _, _ => by
    rw [Node.innerText]
    exact .nil

theorem proper_textOf : ∀ {ns : List Node}, (∀ n ∈ ns, n.Proper) → Xml.Proper (textOf ns).toList
  | [], _ => by
    rw [textOf]
    exact .nil
  | n :: ns, h => by
    rw [textOf, String.toList_append]
    have first := (h n List.mem_cons_self).innerText
    exact first.append (proper_textOf fun m hm => h m (List.mem_cons_of_mem n hm))

end

theorem Proper.value {n : Node} (h : n.Proper) : Xml.Proper n.value.toList := by
  cases h with
  | element _ hchildren => exact proper_textOf hchildren
  | text hv => exact hv
  | comment hv => exact hv
  | instruction _ hv => exact hv

theorem Proper.attributes {n : Node} (h : n.Proper) : ∀ a ∈ n.attributes, a.Proper := by
  cases h with
  | element htag _ => exact htag.attributes
  | text _ => exact nofun
  | comment _ => exact nofun
  | instruction _ _ => exact nofun

theorem Proper.base {n : Node} (h : n.Proper) {q : QName} (hq : n.name = some q) : Xml.Proper q.base.toList := by
  cases h with
  | element htag _ => cases hq; exact htag.base
  | text _ => cases hq
  | comment _ => cases hq
  | instruction htarget _ => cases hq; exact htarget

end Node

namespace XmlDocument

/-- All that the document says is proper. -/
def Proper (d : XmlDocument) : Prop := ∀ n ∈ d.nodes, n.Proper

variable {d : XmlDocument}

theorem proper_parse? {text : String} (h : parse? text = some d) : d.Proper :=
  Node.proper_built.parse? (fun _ => pieces?_proper) h

theorem Proper.node? (h : d.Proper) {address : List Nat} {n : Node} (hn : d.node? address = some n) : n.Proper :=
  Node.proper_built.node? h hn

theorem Proper.attribute? (h : d.Proper) {address : List Nat} {i : Nat} {a : Attribute}
    (ha : d.attribute? address i = some a) : a.Proper := by
  obtain ⟨n, hn, ha⟩ := Option.bind_eq_some_iff.1 ha
  exact (h.node? hn).attributes a (List.mem_of_getElem? ha)

/-- **The values in a document are proper.** -/
theorem Proper.value (h : d.Proper) (n : Ref) : Xml.Proper (d.document.value n).toList := by
  show Xml.Proper (XmlDocument.value d n).toList
  unfold XmlDocument.value
  split
  · exact Node.proper_textOf h
  · next i up =>
    cases hn : d.node? (i :: up) with
    | none => exact .nil
    | some n => exact (h.node? hn).value
  · next address i =>
    cases ha : d.attribute? address i with
    | none => exact .nil
    | some a => exact (h.attribute? ha).value

/-- **The names in a document are proper.** -/
theorem Proper.baseName (h : d.Proper) (n : Ref) : Xml.Proper (d.document.baseName n).toList := by
  have base : ∀ q, d.name n = some q → Xml.Proper q.base.toList := by
    intro q hq
    unfold XmlDocument.name at hq
    split at hq
    · obtain ⟨node, hnode, hq⟩ := Option.bind_eq_some_iff.1 hq
      exact (h.node? hnode).base hq
    · split at hq
      · next tag _ heq =>
        obtain ⟨a, ha, rfl⟩ := Option.map_eq_some_iff.1 hq
        exact ((h.node? heq).attributes a (List.mem_of_getElem? ha)).base
      · cases hq
  unfold Document.baseName
  split
  · next q hq => exact base q hq
  · exact .nil

end XmlDocument

end StylesheetReversal.Xml
