import StylesheetReversal.Document.Outline
import StylesheetReversal.Proofs.Document.Lookalike
import StylesheetReversal.Proofs.Xml.NamedNodes
import StylesheetReversal.Proofs.Xml.Order
/-!
# Documents copied by hand

The nodes of a document that was read can be added one after another, in document order, to one that is put together by
hand: `XmlDocument.mirror`.  There the nodes are named by the numbers under which they were added, which are their numbers
in the list of all nodes, and each entry shows its node (`XmlDocument.copies_mirror`).  From that the two documents agree
in all that can be asked of their nodes (`XmlDocument.mirror_agrees`).
-/
namespace StylesheetReversal.Xml

namespace Node

mutual

/-- Adds a node below the one numbered `parent`: itself, then its attributes and then what is inside it.  There is no way
to add a processing instruction. -/
def addTo (parent : Nat) : Node → Outline → Outline
  | .element _ tag cs, o =>
    addAllTo o.size cs
      (tag.attributes.foldl (fun more a => more.addAttribute o.size a.base a.value) (o.addElement parent tag.base tag.uri))
  | .text _ value, o => o.addText parent value
  | .comment _ value, o => o.addComment parent value
  | .instruction .., o => o

def addAllTo (parent : Nat) : List Node → Outline → Outline
  | [], o => o
  | n :: ns, o => addAllTo parent ns (addTo parent n o)

end

theorem textOf_eq (ns : List Node) : textOf ns = String.join (ns.map innerText) := by
  induction ns with
  | nil => rfl
  | cons n ns ih => rw [textOf, List.map_cons, String.join_cons, ih]

end Node

namespace XmlDocument

/-- The document put together by hand. -/
def mirror (x : XmlDocument) : Outline := Node.addAllTo 0 x.nodes Outline.empty

/-- An entry says of a node what can be said of it alone, and has the number of its parent. -/
structure Shows (x : XmlDocument) (e : Outline.Entry) (r : Ref) : Prop where
  kind : e.kind = x.kind r
  name : e.name.map QName.base = (x.name r).map QName.base
  uri : x.kind r = .element → e.uri = x.uri r
  value : x.kind r ≠ .root → x.kind r ≠ .element → e.value = x.value r
  parent : Option.Rel x.Numbered e.parent r.parent

/-- Nodes without a name and without anything inside them need no more than their value. -/
theorem Shows.leaf {x : XmlDocument} {n : Node} {i : Nat} {up : List Nat} {p : Nat} (hn : x.node? (i :: up) = some n)
    (hp : x.Numbered p (.node up)) (hkind : n.kind ≠ .element) (hname : n.name = none) :
    x.Shows ⟨n.kind, none, none, n.value, some p⟩ (.node (i :: up)) where
  kind := by simp [XmlDocument.kind, hn]
  name := by simp [XmlDocument.name, hn, hname]
  uri hk := by
    rw [XmlDocument.kind, hn] at hk
    exact absurd hk hkind
  value _ _ := by simp [XmlDocument.value, hn]
  parent := .some hp

/-- The nodes added so far, one entry for each. -/
def Copies (x : XmlDocument) (o : Outline) (done : List Ref) : Prop := List.Forall₂ x.Shows o.entries.toList done

variable {x : XmlDocument} {o : Outline} {done : List Ref}

/-! ## Adding the nodes -/

namespace Copies

theorem add (h : x.Copies o done) {e : Outline.Entry} {r : Ref} (he : x.Shows e r) : x.Copies (o.add e) (done ++ [r]) := by
  rw [Copies, Outline.add, Array.toList_push]
  exact List.rel_append h (.cons he .nil)

/-- The number of the next entry is that of the next node. -/
theorem numbered (h : x.Copies o done) {r : Ref} {more : List Ref} (hlisted : done ++ r :: more <+: x.refs) :
    x.Numbered o.size r := by
  have size : o.size = done.length := h.length_eq
  obtain ⟨behind, whole⟩ := hlisted
  rw [Numbered, size, ← whole, List.append_assoc, List.getElem?_append_right (Nat.le_refl _), Nat.sub_self]
  rfl

theorem attributes {a : List Nat} {start : Nat} {tag : Tag} {cs : List Node} {p : Nat}
    (hn : x.node? a = some (.element start tag cs)) (hp : x.Numbered p (.node a)) :
    ∀ {as : List Attribute} {i : Nat} {o : Outline} {done : List Ref}, tag.attributes.drop i = as → x.Copies o done →
      x.Copies (as.foldl (fun more a => more.addAttribute p a.base a.value) o)
        (done ++ (List.range' i as.length).map (.attribute a))
  | [], _, _, _, _, h => by
    rw [List.length_nil, List.range'_zero, List.map_nil, List.append_nil]
    exact h
  | b :: as, i, o, done, has, h => by
    obtain ⟨here, behind⟩ := getElem?_of_drop has
    have known : x.attribute? a i = some b := by
      rw [attribute?, hn]
      exact here
    have shown : x.Shows ⟨.attribute, some ⟨none, b.base⟩, none, b.value, some p⟩ (.attribute a i) := {
      kind := rfl
      name := by simp [XmlDocument.name, hn, here]
      uri := nofun
      value := fun _ _ => by simp [XmlDocument.value, known]
      parent := .some hp }
    have further := attributes hn hp behind (h.add shown)
    rw [List.append_assoc, List.singleton_append] at further
    exact further

mutual

/-- **Adding a node** copies it, its attributes and what is inside it. -/
theorem addTo (hnamed : x.Named) (hnone : ∀ r ∈ x.refs, x.kind r ≠ .instruction) :
    ∀ {n : Node} {i : Nat} {up : List Nat} {p : Nat} {o : Outline} {done : List Ref},
    x.node? (i :: up) = some n → x.Numbered p (.node up) → done ++ n.refs (i :: up) <+: x.refs → x.Copies o done →
      x.Copies (n.addTo p o) (done ++ n.refs (i :: up))
  | .element start tag cs, i, up, p, o, done, hn, hp, hlisted, h => by
    have inside : (x.nodesAt (i :: up)).drop 0 = cs := nodesAt_of_node? hn
    have base : Outline.splitName tag.base = ⟨none, tag.base⟩ := by
      cases hnamed.node? hn with
      | element htag _ => rw [Outline.splitName, Text.splitColon?_of_isName htag.base]
    have shown : x.Shows ⟨.element, some (Outline.splitName tag.base), tag.uri, "", some p⟩ (.node (i :: up)) := {
      kind := by simp [XmlDocument.kind, hn, Node.kind]
      name := by simp [XmlDocument.name, hn, Node.name, base]
      uri := fun _ => by simp [XmlDocument.uri, hn, Node.uri]
      value := fun _ hk => absurd (by simp [XmlDocument.kind, hn, Node.kind]) hk
      parent := .some hp }
    -- attributes and children name their parent by the number under which it has just been added
    have number : x.Numbered o.size (.node (i :: up)) := h.numbered hlisted
    rw [Node.refs, List.range_eq_range', ← List.append_assoc, ← List.singleton_append, ← List.append_assoc] at hlisted ⊢
    exact addAllTo hnamed hnone inside number hlisted (attributes hn number rfl (h.add shown))
  | .text .., _, _, _, _, _, hn, hp, _, h => h.add (.leaf hn hp nofun rfl)
  | .comment .., _, _, _, _, _, hn, hp, _, h => h.add (.leaf hn hp nofun rfl)
  | .instruction start target value, i, up, _, _, _, hn, _, hlisted, _ => by
    have listed : Ref.node (i :: up) ∈ x.refs := hlisted.subset (List.mem_append_right _ List.mem_cons_self)
    have kind : x.kind (.node (i :: up)) = .instruction := by simp [XmlDocument.kind, hn, Node.kind]
    exact absurd kind (hnone _ listed)

theorem addAllTo (hnamed : x.Named) (hnone : ∀ r ∈ x.refs, x.kind r ≠ .instruction) :
    ∀ {ns : List Node} {up : List Nat} {i p : Nat} {o : Outline} {done : List Ref},
    (x.nodesAt up).drop i = ns → x.Numbered p (.node up) → done ++ Node.refsFrom up i ns <+: x.refs → x.Copies o done →
      x.Copies (Node.addAllTo p ns o) (done ++ Node.refsFrom up i ns)
  | [], _, _, _, _, _, _, _, _, h => by
    rw [Node.refsFrom, List.append_nil]
    exact h
  | n :: ns, up, i, p, o, done, hns, hp, hlisted, h => by
    obtain ⟨first, behind⟩ := node?_of_drop hns
    rw [Node.refsFrom, ← List.append_assoc] at hlisted ⊢
    exact addAllTo hnamed hnone behind hp hlisted (addTo hnamed hnone first hp ((List.prefix_append _ _).trans hlisted) h)

end

end Copies

/-- **Every entry of the copy shows its node.** -/
theorem copies_mirror (hnamed : x.Named) (hnone : ∀ r ∈ x.refs, x.kind r ≠ .instruction) : x.Copies x.mirror x.refs := by
  have root : x.Shows ⟨.root, none, none, "", none⟩ (.node []) := {
    kind := rfl
    name := rfl
    uri := nofun
    value := fun hk => absurd rfl hk
    parent := .none }
  have start : x.Copies Outline.empty [.node []] := .cons root .nil
  have first : x.Numbered 0 (.node []) := rfl
  have nodes : (x.nodesAt []).drop 0 = x.nodes := rfl
  exact Copies.addAllTo hnamed hnone nodes first (List.prefix_refl _) start

/-! ## Asking the copy -/

/-- The text inside a node, as it counts for the nodes above. -/
def inside (x : XmlDocument) : Ref → String
  | .node [] => Node.textOf x.nodes
  | .node a => ((x.node? a).map Node.innerText).getD ""
  | .attribute .. => ""

theorem join_inside (a : List Nat) : String.join ((x.children (.node a)).map x.inside) = Node.textOf (x.nodesAt a) := by
  have children : (x.children (.node a)).map x.inside = (x.nodesAt a).map Node.innerText := by
    rw [children, List.map_map]
    refine List.ext_getElem (by simp) fun i hi hi' => ?_
    have within : i < (x.nodesAt a).length := by
      rw [List.length_map] at hi'
      exact hi'
    simp [inside, node?, List.getElem?_eq_getElem within]
  rw [Node.textOf_eq, children]

theorem inside_eq (x : XmlDocument) : ∀ r : Ref, x.inside r =
    match x.kind r with
    | .text => x.value r
    | .root | .element => String.join ((x.children r).map x.inside)
    | _ => ""
  | .attribute .. => rfl
  | .node [] => (join_inside []).symm
  | .node (i :: up) => by
    rw [join_inside]
    cases h : x.node? (i :: up) with
    | none => simp [kind, inside, h, nodesAt_eq_nil h, Node.textOf]
    | some n =>
      rw [nodesAt_of_node? h]
      cases n <;> simp [kind, inside, value, h, Node.kind, Node.innerText, Node.children, Node.value]

theorem value_eq_inside : ∀ {r : Ref}, x.kind r = .root ∨ x.kind r = .element → x.value r = x.inside r
  | .attribute .., hk => by rcases hk with hk | hk <;> cases hk
  | .node [], _ => rfl
  | .node (i :: up), hk => by
    cases h : x.node? (i :: up) with
    | none => simp [value, inside, h]
    | some n =>
      cases n <;> simp [kind, h, Node.kind] at hk
      simp [value, inside, h, Node.value, Node.innerText]

namespace Copies

variable (h : x.Copies o x.refs) {i j : Nat} {r s : Ref}

include h

theorem size : o.size = x.refs.length := h.length_eq

theorem shown (hr : x.Numbered i r) : ∃ e, o.entries[i]? = some e ∧ x.Shows e r := by
  obtain ⟨inside, rfl⟩ := List.getElem?_eq_some_iff.1 hr
  have within : i < o.entries.size := by
    rw [← h.size] at inside
    exact inside
  exact ⟨o.entries[i], Array.getElem?_eq_getElem within, h.get within inside⟩

theorem kind (hr : x.Numbered i r) : o.kind i = x.kind r := by
  obtain ⟨e, he, hshows⟩ := h.shown hr
  rw [Outline.kind, he]
  exact hshows.kind

theorem parent (hr : x.Numbered i r) : Option.Rel x.Numbered (o.parent i) r.parent := by
  obtain ⟨e, he, hshows⟩ := h.shown hr
  have parents := hshows.parent
  rw [Outline.parent, he]
  dsimp only
  generalize e.parent = p at parents ⊢
  generalize hq : r.parent = q at parents ⊢
  cases parents with
  | none => exact .none
  | @some k _ hk =>
    have smaller : k < i := lt_of_parent hr hk hq
    rw [Option.filter_some, if_pos (decide_eq_true smaller)]
    exact .some hk

theorem parent_iff (hr : x.Numbered i r) (hs : x.Numbered j s) : o.parent j = some i ↔ s.parent = some r := by
  have parents := h.parent hs
  generalize o.parent j = p at parents ⊢
  generalize s.parent = q at parents ⊢
  cases parents with
  | none => exact iff_of_false nofun nofun
  | some hk => rw [Option.some_inj, Option.some_inj, numbered_unique hk hr]

/-- The entries below a node are numbers of nodes below it. -/
theorem below (hr : x.Numbered i r) (attributes : Bool) : List.Forall₂ x.Numbered (o.below attributes i)
    (x.refs.filter fun s => s.parent = some r ∧ (x.kind s = .attribute) = attributes) := by
  have all : List.Forall₂ x.Numbered (List.range o.size) x.refs := by
    refine List.forall₂_iff_get.2 ⟨by rw [List.length_range, h.size], fun k hk hk' => ?_⟩
    rw [List.get_eq_getElem, List.getElem_range]
    exact List.getElem?_eq_getElem hk'
  refine List.rel_filter (fun j s hs => ?_) all
  simp only [Bool.and_eq_true, decide_eq_true_eq, h.kind hs, h.parent_iff hr hs]

theorem attributesOf (hr : x.Numbered i r) : List.Forall₂ x.Numbered (o.below true i) (x.attributes r) := by
  have below := h.below hr true
  have same : (x.refs.filter fun s => s.parent = some r ∧ (x.kind s = .attribute) = (true = true)) = x.attributes r := by
    rw [← filter_attributes]
    exact List.filter_congr fun s _ => by simp
  rwa [same] at below

theorem childrenOf (hr : x.Numbered i r) : List.Forall₂ x.Numbered (o.children i) (x.children r) := by
  have below := h.below hr false
  have same : (x.refs.filter fun s => s.parent = some r ∧ (x.kind s = .attribute) = (false = true)) = x.children r := by
    rw [← filter_children]
    exact List.filter_congr fun s _ => by simp
  rwa [same] at below

/-- The text inside a node is the same, if the search for it goes deep enough: numbers grow on the way down. -/
theorem text : ∀ {depth i : Nat} {r : Ref}, x.Numbered i r → o.size < i + depth → o.text depth i = x.inside r
  | 0, i, r, hr, hdepth => by
    obtain ⟨e, he, -⟩ := h.shown hr
    have within : i < o.size := (Array.getElem?_eq_some_iff.1 he).1
    omega
  | depth + 1, i, r, hr, hdepth => by
    have children : ((o.children i).map (o.text depth)) = (x.children r).map x.inside := by
      have deeper : ∀ j ∈ o.children i, i < j := fun j hj => by
        have below := (List.mem_filter.1 hj).2
        rw [Bool.and_eq_true, decide_eq_true_eq] at below
        exact Outline.parent_lt below.1
      rw [← List.forall₂_eq_eq_eq]
      refine List.rel_map (fun j s hs => ?_) ((List.forall₂_and_left _ _).2 ⟨deeper, h.childrenOf hr⟩)
      exact text hs.2 (by have := hs.1; omega)
    obtain ⟨e, he, hshows⟩ := h.shown hr
    rw [Outline.text, h.kind hr, children, he, inside_eq]
    match hk : x.kind r with
    | .text => exact hshows.value (by rw [hk]; exact nofun) (by rw [hk]; exact nofun)
    | .root => rfl
    | .element => rfl
    | .attribute => rfl
    | .comment => rfl
    | .instruction => rfl

theorem value (hr : x.Numbered i r) : o.value i = x.value r := by
  obtain ⟨e, he, hshows⟩ := h.shown hr
  by_cases hk : x.kind r = .root ∨ x.kind r = .element
  · have text : o.text (o.size + 1) i = x.value r := by
      rw [value_eq_inside hk]
      exact h.text hr (by omega)
    rw [Outline.value, h.kind hr]
    rcases hk with hk | hk <;> rw [hk] <;> exact text
  · have own := hshows.value (not_or.1 hk).1 (not_or.1 hk).2
    rw [Outline.value, h.kind hr, he]
    split
    · next hroot => exact absurd (.inl hroot) hk
    · next helement => exact absurd (.inr helement) hk
    · exact own

/-- **The copy agrees with the document** in all that can be asked of a node. -/
theorem agrees : o.document.Agrees x.document x.Numbered where
  unique := numbered_unique
  kind := h.kind
  name hr := by
    obtain ⟨e, he, hshows⟩ := h.shown hr
    change (o.entries[_]?.bind Outline.Entry.name).map QName.base = _
    rw [he]
    exact hshows.name
  uri hr hk := by
    obtain ⟨e, he, hshows⟩ := h.shown hr
    change o.entries[_]?.bind Outline.Entry.uri = _
    rw [he]
    exact hshows.uri ((h.kind hr).symm.trans hk)
  value := h.value
  parent := h.parent
  attributes := h.attributesOf
  children := h.childrenOf

end Copies

/-- **A document and its copy agree.**  Every node of a document without processing instructions has a number, and under
this number the copy gives the same answers; nodes are in the order of their numbers, and of every place the same is
said, whatever counts as a wrapper. -/
theorem mirror_agrees {text : String} (hx : parse? text = some x) (hnone : ∀ r ∈ x.refs, x.kind r ≠ .instruction) :
    (∀ i, i < x.mirror.size ↔ ∃ r, x.Numbered i r) ∧ (∀ r, (∃ i, x.Numbered i r) ↔ x.Has r) ∧
      x.mirror.document.Agrees x.document x.Numbered ∧
      (∀ {i j r s}, x.Numbered i r → x.Numbered j s → Ord.compare i j = Ord.compare r s) ∧
      ∀ (wrapper : Option String → Bool) {i j r s}, x.Numbered i r → x.Numbered j s →
        x.mirror.document.surroundings wrapper i j = x.document.surroundings wrapper r s := by
  have copies : x.Copies x.mirror x.refs := copies_mirror (named_parse? hx) hnone
  refine ⟨fun i => ?_, fun r => ?_, copies.agrees, compare_numbers, fun wrapper => copies.agrees.surroundings wrapper⟩
  · rw [copies.size]
    exact ⟨fun hi => ⟨_, List.getElem?_eq_getElem hi⟩, fun ⟨r, hr⟩ => (List.getElem?_eq_some_iff.1 hr).1⟩
  · rw [← mem_refs_iff]
    exact List.mem_iff_getElem?.symm

/-- A text inside two elements, the inner one with an attribute, and a comment. -/
def marked : String := "<a xmlns='urn:a'><b k='1'>t</b><!--c--></a>"

theorem mirror_agrees_marked : ∃ x, parse? marked = some x ∧ (∀ r ∈ x.refs, x.kind r ≠ .instruction) ∧
    x.Numbered 4 (.node [0, 0, 0]) ∧ x.document.value (.node [0, 0, 0]) = "t" ∧ x.mirror.document.value 4 = "t" ∧
    x.mirror.document.surroundings (fun _ => false) 4 0 =
      "parent::node()[name()='b' and @k='1' and parent::node()[name()='a']]" := by
  have run : ((parse? marked).map fun x => (decide (∀ r ∈ x.refs, x.kind r ≠ .instruction), x.refs[4]?,
      x.value (.node [0, 0, 0]), x.document.surroundings (fun _ => false) (.node [0, 0, 0]) (.node []))) =
      some (true, some (.node [0, 0, 0]), "t", "parent::node()[name()='b' and @k='1' and parent::node()[name()='a']]") := by
    have chars : marked.toList = _ := String.toList_ofList
    rw [parse?, chars]
    decide +kernel
  obtain ⟨x, hx, hrun⟩ := Option.map_eq_some_iff.1 run
  obtain ⟨hnone, hrun⟩ := Prod.mk.inj hrun
  obtain ⟨hnumber, hrun⟩ := Prod.mk.inj hrun
  obtain ⟨hvalue, hsaid⟩ := Prod.mk.inj hrun
  obtain ⟨-, -, agrees, -, said⟩ := mirror_agrees hx (of_decide_eq_true hnone)
  have root : x.Numbered 0 (.node []) := rfl
  exact ⟨x, hx, of_decide_eq_true hnone, hnumber, hvalue, (agrees.value hnumber).trans hvalue, (said _ hnumber root).trans hsaid⟩

end XmlDocument

end StylesheetReversal.Xml
