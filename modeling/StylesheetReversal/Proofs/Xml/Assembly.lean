import StylesheetReversal.Xml.Document
/-!
# What holds of all nodes of a document

A document is put together piece by piece.  A property of nodes is `Built` from a property of the pieces if every piece
adds only nodes that have it, and an element has it whose tag and children are right.  It holds of all nodes of a
document then (`Built.parse?`), wherever they stand (`Built.nodesAt`).
-/
namespace StylesheetReversal.Xml

/-! ## Tags -/

namespace Tag

theorem exists_of_values? : ∀ {raw : List RawAttribute} {written : List (TagName × String)}, values? raw = some written →
    ∀ w ∈ written, ∃ r ∈ raw, r.name = w.1 ∧ ∃ value, attributeValue r.raw = some value ∧ w.2 = String.ofList value
  | [], _, h => by
    cases h
    intro w hw
    cases hw
  | r :: raw, written, h => by
    obtain ⟨value, hvalue, h⟩ := Option.bind_eq_some_iff.1 h
    obtain ⟨more, hmore, rfl⟩ := Option.map_eq_some_iff.1 h
    intro w hw
    rcases List.mem_cons.1 hw with rfl | hw
    · exact ⟨r, List.mem_cons_self, rfl, value, hvalue, rfl⟩
    · obtain ⟨r', hr', hw'⟩ := exists_of_values? hmore w hw
      exact ⟨r', List.mem_cons_of_mem r hr', hw'⟩

theorem exists_of_attributes? {scope : List Binding} : ∀ {written : List (TagName × String)} {before as : List Attribute},
    attributes? scope written before = some as →
      ∀ a ∈ as, ∃ w ∈ written, a.base = String.ofList w.1.base ∧ a.value = w.2 ∧ attributeUri? scope w.1 = some a.uri
  | [], _, _, h => by
    cases h
    intro a ha
    cases ha
  | w :: rest, before, as, h => by
    have others : ∀ {before as}, attributes? scope rest before = some as →
        ∀ a ∈ as, ∃ w' ∈ w :: rest, a.base = String.ofList w'.1.base ∧ a.value = w'.2 ∧
          attributeUri? scope w'.1 = some a.uri := by
      intro before as h a ha
      obtain ⟨w', hw', same⟩ := exists_of_attributes? h a ha
      exact ⟨w', List.mem_cons_of_mem w hw', same⟩
    rw [attributes?] at h
    split at h
    · exact others h
    · obtain ⟨uri, huri, h⟩ := Option.bind_eq_some_iff.1 h
      dsimp only at h
      split at h
      · cases h
      · obtain ⟨more, hmore, rfl⟩ := Option.map_eq_some_iff.1 h
        intro a ha
        rcases List.mem_cons.1 ha with rfl | ha
        · exact ⟨w, List.mem_cons_self, rfl, rfl, huri⟩
        · exact others hmore a ha

/-- **What a start tag says is written in it**: the name of the element, and the names and values of its attributes. -/
theorem written_of_ofRaw? {inherited : List Binding} {name : TagName} {raw : List RawAttribute} {t : Tag}
    (h : ofRaw? inherited name raw = some t) : t.base = String.ofList name.base ∧
      ∀ a ∈ t.attributes, ∃ r ∈ raw, a.base = String.ofList r.name.base ∧
        ∃ value, attributeValue r.raw = some value ∧ a.value = String.ofList value := by
  obtain ⟨written, hwritten, h⟩ := Option.bind_eq_some_iff.1 h
  obtain ⟨own, -, h⟩ := Option.bind_eq_some_iff.1 h
  obtain ⟨uri, -, h⟩ := Option.bind_eq_some_iff.1 h
  obtain ⟨attributes, hattributes, rfl⟩ := Option.map_eq_some_iff.1 h
  refine ⟨rfl, fun a ha => ?_⟩
  obtain ⟨w, hw, hbase, hvalue, -⟩ := exists_of_attributes? hattributes a ha
  obtain ⟨r, hr, hname, value, hraw, hw⟩ := exists_of_values? hwritten w hw
  exact ⟨r, hr, hname ▸ hbase, value, hraw, hvalue.trans hw⟩

end Tag

/-! ## Nodes -/

/-- What is in scope around a tag: nothing, or what is in scope inside a tag with the property. -/
def Around (T : Tag → Prop) (inherited : List Binding) : Prop := inherited = [] ∨ ∃ t, T t ∧ t.scope = inherited

/-- A property of nodes that comes from a property of pieces, and from a property of tags. -/
structure Built (Q : Piece → Prop) (T : Tag → Prop) (P : Node → Prop) : Prop where
  text : ∀ {start : Nat} {raw value : List Char}, Q (.text raw) → textValue raw = some value →
    P (.text start (String.ofList value))
  cdata : ∀ {start : Nat} {raw : List Char}, Q (.cdata raw) → P (.text start (String.ofList (cdataValue raw)))
  append : ∀ {start start' : Nat} {u v : String}, P (.text start u) → P (.text start' v) → P (.text start (u ++ v))
  comment : ∀ {start : Nat} {body : List Char}, Q (.comment body) → P (.comment start (String.ofList body))
  instruction : ∀ {start : Nat} {target value : List Char}, Q (.instruction target value) →
    P (.instruction start (String.ofList target) (String.ofList value))
  tag : ∀ {inherited : List Binding} {name : TagName} {raw : List RawAttribute} {closed : Bool} {t : Tag},
    Around T inherited → Q (.opening name raw closed) → Tag.ofRaw? inherited name raw = some t → T t
  element : ∀ {start : Nat} {t : Tag} {children : List Node}, T t → (∀ n ∈ children, P n) →
    P (.element start t children)
  children : ∀ {n : Node}, P n → ∀ m ∈ n.children, P m

/-- All tags and nodes that were put together so far have their properties. -/
structure Assembly.All (T : Tag → Prop) (P : Node → Prop) (a : Assembly) : Prop where
  nodes : ∀ n ∈ a.nodes, P n
  opened : ∀ o ∈ a.opened, T o.tag ∧ ∀ n ∈ o.before, P n

theorem Assembly.All.around {T : Tag → Prop} {P : Node → Prop} {a : Assembly} (h : a.All T P) : Around T a.scope := by
  unfold Assembly.scope
  split
  · exact .inl rfl
  · next o outer heq => exact .inr ⟨o.tag, (h.opened o (by rw [heq]; exact List.mem_cons_self)).1, rfl⟩

namespace Built

variable {Q : Piece → Prop} {T : Tag → Prop} {P : Node → Prop}

section Pieces

variable {a b : Assembly}

theorem add (h : a.All T P) {n : Node} (hn : P n) : (a.add n).All T P := by
  refine ⟨fun m hm => ?_, h.opened⟩
  rcases List.mem_cons.1 hm with rfl | hm
  · exact hn
  · exact h.nodes m hm

theorem addText (built : Built Q T P) (h : a.All T P) {start : Nat} {value : String} (hv : P (.text start value)) :
    (a.addText start value).All T P := by
  unfold Assembly.addText
  split
  · next s v before heq =>
    have nodes := h.nodes
    rw [heq] at nodes
    refine ⟨fun m hm => ?_, h.opened⟩
    rcases List.mem_cons.1 hm with rfl | hm
    · exact built.append (nodes _ List.mem_cons_self) hv
    · exact nodes m (List.mem_cons_of_mem _ hm)
  · exact add h hv

/-- **One more piece** adds only nodes that have the property. -/
theorem place? (built : Built Q T P) (h : a.All T P) {p : Placed} (hp : Q p.piece) (hb : a.place? p = some b) :
    b.All T P := by
  obtain ⟨start, piece⟩ := p
  unfold Assembly.place? at hb
  cases piece with
  | text raw =>
    dsimp only at hb
    split at hb
    · split at hb <;> cases hb
      exact h
    · obtain ⟨value, hvalue, rfl⟩ := Option.map_eq_some_iff.1 hb
      exact built.addText h (built.text hp hvalue)
  | cdata raw =>
    dsimp only at hb
    split at hb <;> cases hb
    exact built.addText h (built.cdata hp)
  | comment body =>
    cases hb
    exact add h (built.comment hp)
  | instruction target value =>
    cases hb
    exact add h (built.instruction hp)
  | opening name raw closed =>
    dsimp only at hb
    split at hb
    · cases hb
    · obtain ⟨t, ht, rfl⟩ := Option.map_eq_some_iff.1 hb
      have tag : T t := built.tag h.around hp ht
      split
      · exact add h (built.element tag (List.forall_mem_nil P))
      · refine ⟨List.forall_mem_nil P, fun o ho => ?_⟩
        rcases List.mem_cons.1 ho with rfl | ho
        · exact ⟨tag, h.nodes⟩
        · exact h.opened o ho
  | closing name =>
    dsimp only at hb
    split at hb
    · cases hb
    · next o outer heq =>
      have opened := h.opened
      rw [heq] at opened
      obtain ⟨tag, before⟩ := opened o List.mem_cons_self
      split at hb <;> cases hb
      refine ⟨fun n hn => ?_, fun o' ho' => opened o' (List.mem_cons_of_mem o ho')⟩
      rcases List.mem_cons.1 hn with rfl | hn
      · exact built.element tag fun m hm => h.nodes m (List.mem_reverse.1 hm)
      · exact before n hn

theorem foldlM (built : Built Q T P) : ∀ {ps : List Placed} {a b : Assembly}, a.All T P → (∀ p ∈ ps, Q p.piece) →
    ps.foldlM Assembly.place? a = some b → b.All T P
  | [], _, _, h, _, hb => by
    cases hb
    exact h
  | p :: ps, a, b, h, hps, hb => by
    rw [List.foldlM_cons] at hb
    obtain ⟨a', hplace, hrest⟩ := Option.bind_eq_some_iff.1 hb
    have step := built.place? h (hps p List.mem_cons_self) hplace
    exact built.foldlM step (fun q hq => hps q (List.mem_cons_of_mem p hq)) hrest

end Pieces

variable {d : XmlDocument}

/-- **All outermost nodes of a document** have the property, if its pieces have theirs. -/
theorem parse? (built : Built Q T P) {text : String} (hpieces : ∀ ps, pieces? text.toList = some ps → ∀ p ∈ ps, Q p.piece)
    (h : XmlDocument.parse? text = some d) : ∀ n ∈ d.nodes, P n := by
  obtain ⟨nodes, hnodes, rfl⟩ := Option.map_eq_some_iff.1 h
  obtain ⟨ps, hps, hnodes⟩ := Option.bind_eq_some_iff.1 hnodes
  obtain ⟨a, ha, hcomplete⟩ := Option.bind_eq_some_iff.1 hnodes
  have empty : Assembly.empty.All T P := ⟨List.forall_mem_nil P, List.forall_mem_nil _⟩
  have all := built.foldlM empty (hpieces ps hps) ha
  unfold Assembly.complete? at hcomplete
  split at hcomplete <;> cases hcomplete
  exact fun n hn => all.nodes n (List.mem_reverse.1 hn)

/-- The nodes inside the outermost ones have the property too. -/
theorem nodesAt (built : Built Q T P) (h : ∀ n ∈ d.nodes, P n) : ∀ address : List Nat, ∀ n ∈ d.nodesAt address, P n
  | [] => h
  | i :: up => by
    rw [XmlDocument.nodesAt]
    split
    · next n hn => exact built.children (built.nodesAt h up n (List.mem_of_getElem? hn))
    · exact List.forall_mem_nil P

theorem node? (built : Built Q T P) (h : ∀ n ∈ d.nodes, P n) {address : List Nat} {n : Node}
    (hn : d.node? address = some n) : P n := by
  cases address with
  | nil => cases hn
  | cons i up => exact built.nodesAt h up n (List.mem_of_getElem? hn)

end Built

end StylesheetReversal.Xml
