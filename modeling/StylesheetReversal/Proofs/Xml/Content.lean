import StylesheetReversal.Proofs.Document.Lookalike
import StylesheetReversal.Proofs.Xml.Inside
/-!
# What a node holds

A node is made of more than what it holds: it starts somewhere in a text, and the names in it have a scope.
`Node.bare` leaves these out.  Where two documents hold the same below two nodes, all that is asked about nodes
further down has the same answers (`Shared`), up to the way down to the two nodes, which `Ref.graft` puts in front.
-/
namespace StylesheetReversal.Xml

namespace Node

mutual

/-- The node without its position and without the scopes of its elements. -/
def bare : Node → Node
  | .element _ tag cs => .element 0 { tag with scope := [] } (bareAll cs)
  | .text _ value => .text 0 value
  | .comment _ value => .comment 0 value
  | .instruction _ target value => .instruction 0 target value

def bareAll : List Node → List Node
  | [] => []
  | n :: ns => bare n :: bareAll ns

end

theorem bareAll_eq : ∀ ns : List Node, bareAll ns = ns.map bare
  | [] => rfl
  | n :: ns => congrArg (bare n :: ·) (bareAll_eq ns)

@[simp] theorem kind_bare (n : Node) : n.bare.kind = n.kind := by cases n <;> rfl

@[simp] theorem uri_bare (n : Node) : n.bare.uri = n.uri := by cases n <;> rfl

@[simp] theorem attributes_bare (n : Node) : n.bare.attributes = n.attributes := by cases n <;> rfl

@[simp] theorem isElement_bare (n : Node) : n.bare.isElement = n.isElement := by cases n <;> rfl

/-- Whether a node is an element with this name. -/
def isNamed (uri base : String) : Node → Bool
  | .element _ tag _ => tag.base = base && tag.uri = some uri
  | _ => false

theorem isNamed_bare (uri base : String) (n : Node) : n.bare.isNamed uri base = n.isNamed uri base := by
  cases n <;> rfl

theorem children_bare (n : Node) : n.bare.children = n.children.map bare := by
  cases n with
  | element start tag cs => exact bareAll_eq cs
  | text => rfl
  | comment => rfl
  | instruction => rfl

theorem base_bare (n : Node) : n.bare.name.map QName.base = n.name.map QName.base := by cases n <;> rfl

/-- What can be asked without positions and scopes has the same answer for nodes that hold the same. -/
theorem eq_of_bare {α : Type} {f : Node → α} (hf : ∀ n, f n.bare = f n) {n m : Node} (h : n.bare = m.bare) : f n = f m := by
  rw [← hf, h, hf]

mutual

theorem innerText_bare : ∀ n : Node, n.bare.innerText = n.innerText
  | .element _ _ cs => by
    rw [bare, innerText, innerText, textOf_bareAll]
  | .text .. => rfl
  | .comment .. => rfl
  | .instruction .. => rfl

theorem textOf_bareAll : ∀ ns : List Node, textOf (bareAll ns) = textOf ns
  | [] => rfl
  | n :: ns => by
    rw [bareAll, textOf, textOf, innerText_bare, textOf_bareAll]

end

@[simp] theorem value_bare (n : Node) : n.bare.value = n.value := by
  cases n with
  | element start tag cs => exact textOf_bareAll cs
  | text => rfl
  | comment => rfl
  | instruction => rfl

mutual

theorem elements_bare (a : List Nat) : ∀ n : Node, n.bare.elements a = n.elements a
  | .element _ _ cs => by
    rw [bare, elements, elements, elementsFrom_bareAll]
  | .text .. => rfl
  | .comment .. => rfl
  | .instruction .. => rfl

theorem elementsFrom_bareAll (up : List Nat) : ∀ (i : Nat) (ns : List Node),
    elementsFrom up i (bareAll ns) = elementsFrom up i ns
  | _, [] => rfl
  | i, n :: ns => by
    rw [bareAll, elementsFrom, elementsFrom, elements_bare, elementsFrom_bareAll]

end

/-! ### Comparing nodes -/

mutual

/-- Whether two nodes are the same. -/
def same : Node → Node → Bool
  | .element i t cs, .element j u ds => i = j && t = u && sameAll cs ds
  | .text i v, .text j w => i = j && v = w
  | .comment i v, .comment j w => i = j && v = w
  | .instruction i t v, .instruction j u w => i = j && t = u && v = w
  | _, _ => false

def sameAll : List Node → List Node → Bool
  | [], [] => true
  | n :: ns, m :: ms => same n m && sameAll ns ms
  | _, _ => false

end

mutual

theorem same_iff : ∀ n m : Node, n.same m = true ↔ n = m
  | .element _ _ cs, m => by cases m <;> simp [same, sameAll_iff cs, and_assoc]
  | .text .., m => by cases m <;> simp [same]
  | .comment .., m => by cases m <;> simp [same]
  | .instruction .., m => by cases m <;> simp [same, and_assoc]

theorem sameAll_iff : ∀ ns ms : List Node, sameAll ns ms = true ↔ ns = ms
  | [], ms => by cases ms <;> simp [sameAll]
  | n :: ns, ms => by cases ms <;> simp [sameAll, same_iff n, sameAll_iff ns]

end

instance : DecidableEq Node := fun n m => decidable_of_iff _ (same_iff n m)

end Node

/-! ## Ways down -/

/-- A node, seen from the node at address `a`. -/
def Ref.graft (a : List Nat) : Ref → Ref
  | .node b => .node (b ++ a)
  | .attribute b i => .attribute (b ++ a) i

namespace Node

mutual

theorem elements_graft (a : List Nat) : ∀ {b : List Nat} {n : Node}, n.elements (b ++ a) = (n.elements b).map (Ref.graft a)
  | b, .element _ _ cs => by
    rw [elements, elements, List.map_cons, elementsFrom_graft]
    rfl
  | _, .text .. => rfl
  | _, .comment .. => rfl
  | _, .instruction .. => rfl

theorem elementsFrom_graft (a : List Nat) : ∀ {b : List Nat} {i : Nat} {ns : List Node},
    elementsFrom (b ++ a) i ns = (elementsFrom b i ns).map (Ref.graft a)
  | _, _, [] => rfl
  | b, i, n :: ns => by
    rw [elementsFrom, elementsFrom, List.map_append, ← elementsFrom_graft, ← elements_graft]
    rfl

end

end Node

/-! ## The same below two nodes -/

/-- The node at address `a` of `x` and the node at address `b` of `y` hold the same. -/
structure Shared (x : XmlDocument) (a : List Nat) (y : XmlDocument) (b : List Nat) : Prop where
  left : a ≠ []
  right : b ≠ []
  bare : (x.node? a).map Node.bare = (y.node? b).map Node.bare

namespace Shared

variable {x y : XmlDocument} {a b : List Nat}

/-- Either there is no node at both addresses, or there are two that hold the same. -/
theorem cases (h : Shared x a y b) : (x.node? a = none ∧ y.node? b = none) ∨
    ∃ n m, x.node? a = some n ∧ y.node? b = some m ∧ n.bare = m.bare := by
  have bare := h.bare
  cases hx : x.node? a with
  | none =>
    rw [hx, Option.map_none, eq_comm, Option.map_eq_none_iff] at bare
    exact .inl ⟨rfl, bare⟩
  | some n =>
    rw [hx, Option.map_some, eq_comm, Option.map_eq_some_iff] at bare
    obtain ⟨m, hm, hbare⟩ := bare
    exact .inr ⟨n, m, rfl, hm, hbare.symm⟩

theorem nodesAt_eq (x : XmlDocument) {a : List Nat} (ha : a ≠ []) :
    x.nodesAt a = ((x.node? a).map Node.children).getD [] := by
  cases a with
  | nil => exact absurd rfl ha
  | cons i up =>
    rw [XmlDocument.nodesAt, XmlDocument.node?]
    cases (x.nodesAt up)[i]? <;> rfl

theorem nodesAt (h : Shared x a y b) : (x.nodesAt a).map Node.bare = (y.nodesAt b).map Node.bare := by
  rw [nodesAt_eq x h.left, nodesAt_eq y h.right]
  rcases h.cases with ⟨hx, hy⟩ | ⟨n, m, hx, hy, hbare⟩
  · rw [hx, hy]
  · rw [hx, hy, Option.map_some, Option.map_some, Option.getD_some, Option.getD_some, ← Node.children_bare, hbare,
      Node.children_bare]

theorem child (h : Shared x a y b) (i : Nat) : Shared x (i :: a) y (i :: b) := by
  have children := congrArg (·[i]?) h.nodesAt
  rw [List.getElem?_map, List.getElem?_map] at children
  exact ⟨nofun, nofun, children⟩

/-- What holds the same below two nodes holds the same below all that is further down. -/
theorem below (h : Shared x a y b) : ∀ c : List Nat, Shared x (c ++ a) y (c ++ b)
  | [] => h
  | i :: c => (h.below c).child i

theorem length_nodesAt (h : Shared x a y b) : (x.nodesAt a).length = (y.nodesAt b).length := by
  have := congrArg List.length h.nodesAt
  simpa using this

theorem attribute? (h : Shared x a y b) (i : Nat) : x.attribute? a i = y.attribute? b i := by
  unfold XmlDocument.attribute?
  rcases h.cases with ⟨hx, hy⟩ | ⟨n, m, hx, hy, hbare⟩
  · rw [hx, hy]
  · simp [hx, hy, Node.eq_of_bare Node.attributes_bare hbare]

theorem kind (h : Shared x a y b) : ∀ r : Ref, x.kind (r.graft a) = y.kind (r.graft b)
  | .attribute .. => rfl
  | .node c => by
    rcases (h.below c).cases with ⟨hx, hy⟩ | ⟨n, m, hx, hy, hbare⟩
    · simp [Ref.graft, XmlDocument.kind, hx, hy]
    · simp [Ref.graft, XmlDocument.kind, hx, hy, Node.eq_of_bare Node.kind_bare hbare]

theorem uri (h : Shared x a y b) : ∀ r : Ref, x.uri (r.graft a) = y.uri (r.graft b)
  | .attribute c i => by
    simp [Ref.graft, XmlDocument.uri, (h.below c).attribute? i]
  | .node c => by
    rcases (h.below c).cases with ⟨hx, hy⟩ | ⟨n, m, hx, hy, hbare⟩
    · simp [Ref.graft, XmlDocument.uri, hx, hy]
    · simp [Ref.graft, XmlDocument.uri, hx, hy, Node.eq_of_bare Node.uri_bare hbare]

theorem value_of_ne {a : List Nat} (x : XmlDocument) (ha : a ≠ []) :
    x.value (.node a) = ((x.node? a).map Node.value).getD "" := by
  cases a with
  | nil => exact absurd rfl ha
  | cons i up => rfl

theorem value (h : Shared x a y b) : ∀ r : Ref, x.value (r.graft a) = y.value (r.graft b)
  | .attribute c i => by
    simp [Ref.graft, XmlDocument.value, (h.below c).attribute? i]
  | .node c => by
    rw [Ref.graft, Ref.graft, value_of_ne x (h.below c).left, value_of_ne y (h.below c).right]
    rcases (h.below c).cases with ⟨hx, hy⟩ | ⟨n, m, hx, hy, hbare⟩
    · rw [hx, hy]
    · simp [hx, hy, Node.eq_of_bare Node.value_bare hbare]

theorem baseName_node (x : XmlDocument) (a : List Nat) :
    x.document.baseName (.node a) = ((x.node? a).bind fun n => n.name.map QName.base).getD "" := by
  unfold Document.baseName XmlDocument.document XmlDocument.name
  dsimp only
  cases x.node? a with
  | none => rfl
  | some n => cases hn : n.name <;> simp [hn]

theorem baseName_attribute (x : XmlDocument) (a : List Nat) (i : Nat) :
    x.document.baseName (.attribute a i) = ((x.attribute? a i).map Attribute.base).getD "" := by
  unfold Document.baseName XmlDocument.document XmlDocument.name XmlDocument.attribute?
  dsimp only
  cases x.node? a with
  | none => rfl
  | some n =>
    cases n with
    | element start tag cs => cases ha : tag.attributes[i]? <;> simp [ha, Node.attributes]
    | text => rfl
    | comment => rfl
    | instruction => rfl

theorem baseName (h : Shared x a y b) : ∀ r : Ref, x.document.baseName (r.graft a) = y.document.baseName (r.graft b)
  | .attribute c i => by
    rw [Ref.graft, Ref.graft, baseName_attribute, baseName_attribute, (h.below c).attribute?]
  | .node c => by
    rw [Ref.graft, Ref.graft, baseName_node, baseName_node]
    rcases (h.below c).cases with ⟨hx, hy⟩ | ⟨n, m, hx, hy, hbare⟩
    · rw [hx, hy]
    · have base : n.name.map QName.base = m.name.map QName.base := by
        rw [← Node.base_bare, hbare, Node.base_bare]
      simp [hx, hy, base]

/-- The same attributes stand at matching nodes. -/
theorem attributes (h : Shared x a y b) : ∀ r : Ref, ∃ as : List Ref,
    x.attributes (r.graft a) = as.map (Ref.graft a) ∧ y.attributes (r.graft b) = as.map (Ref.graft b)
  | .attribute .. => ⟨[], rfl, rfl⟩
  | .node c => by
    rcases (h.below c).cases with ⟨hx, hy⟩ | ⟨n, m, hx, hy, hbare⟩
    · exact ⟨[], by simp [Ref.graft, XmlDocument.attributes, hx, hy]⟩
    · refine ⟨(List.range n.attributes.length).map (.attribute c), ?_⟩
      have same := Node.eq_of_bare Node.attributes_bare hbare
      simp [Ref.graft, XmlDocument.attributes, hx, hy, ← same]

/-- The same is said of attributes of matching nodes. -/
theorem attributeTests (h : Shared x a y b) (r : Ref) : (x.attributes (r.graft a)).map x.document.attributeTest =
    (y.attributes (r.graft b)).map y.document.attributeTest := by
  obtain ⟨as, hx, hy⟩ := h.attributes r
  have test (s : Ref) : x.document.attributeTest (s.graft a) = y.document.attributeTest (s.graft b) := by
    have value : x.document.value (s.graft a) = y.document.value (s.graft b) := h.value s
    unfold Document.attributeTest
    rw [h.baseName, value]
  rw [hx, hy, List.map_map, List.map_map]
  exact List.map_congr_left fun s _ => test s

/-- Matching nodes are mentioned in the same words. -/
theorem mention (h : Shared x a y b) (r : Ref) : x.document.mention (r.graft a) = y.document.mention (r.graft b) :=
  Document.mention_congr (h.kind r) (fun _ => h.value r) (h.baseName r) (h.attributeTests r)

theorem mentions (h : Shared x a y b) (rs : List Ref) :
    (rs.map (Ref.graft a)).filterMap x.document.mention = (rs.map (Ref.graft b)).filterMap y.document.mention := by
  rw [List.filterMap_map, List.filterMap_map]
  exact List.filterMap_congr fun r _ => h.mention r

/-- The same is asked of matching elements, those at the two addresses apart. -/
theorem conditions (h : Shared x a y b) {r : Ref} (hr : r ≠ .node []) (hk : x.kind (r.graft a) = .element) :
    x.document.conditions (r.graft a) = y.document.conditions (r.graft b) := by
  have hk' : y.kind (r.graft b) = .element := (h.kind r).symm.trans hk
  match r with
  | .attribute .. => cases hk
  | .node [] => exact absurd rfl hr
  | .node (i :: c) =>
    have before := h.mentions ((List.range i).reverse.map fun j => .node (j :: c))
    have after := h.mentions ((List.range' (i + 1) ((x.nodesAt (c ++ a)).length - (i + 1))).map fun j => .node (j :: c))
    rw [List.map_map, List.map_map] at before after
    refine Document.conditions_congr (h.baseName _) (h.attributeTests (.node (i :: c))) ?_ ?_
    · rw [XmlDocument.siblings_eq hk, XmlDocument.siblings_eq hk']
      exact before
    · rw [XmlDocument.siblings_eq hk, XmlDocument.siblings_eq hk']
      simp only [Ref.graft, XmlDocument.following, List.cons_append, ← (h.below c).length_nodesAt]
      exact after

theorem graft_eq {a : List Nat} : ∀ {r : Ref}, r.graft a = .node a ↔ r = .node []
  | .node c => by simp [Ref.graft]
  | .attribute .. => by simp [Ref.graft]

/-- **The same is said** about matching places, as far up as the two addresses. -/
theorem surroundings (h : Shared x a y b) (wrapper : Option String → Bool) (r : Ref) :
    x.document.surroundings wrapper (r.graft a) (.node a) = y.document.surroundings wrapper (r.graft b) (.node b) := by
  have described (r : Ref) : x.document.isDescribed wrapper (r.graft a) = y.document.isDescribed wrapper (r.graft b) := by
    have kind : x.document.kind (r.graft a) = y.document.kind (r.graft b) := h.kind r
    have uri : x.document.uri (r.graft a) = y.document.uri (r.graft b) := h.uri r
    unfold Document.isDescribed
    rw [kind, uri]
  have alike : Document.Lookalike x.document y.document wrapper (.node a) (.node b)
      fun n m => ∃ r : Ref, n = r.graft a ∧ m = r.graft b := by
    constructor
    · rintro _ _ ⟨r, rfl, rfl⟩
      rw [graft_eq, graft_eq]
    · rintro _ _ ⟨r, rfl, rfl⟩
      exact h.kind r
    · rintro _ _ ⟨r, rfl, rfl⟩
      exact described r
    · rintro _ _ ⟨r, rfl, rfl⟩ hr hdescribed
      have element : x.kind (r.graft a) = .element :=
        of_decide_eq_true (Bool.and_eq_true _ _ ▸ hdescribed).1
      exact h.conditions (hr ∘ graft_eq.2) element
    · rintro _ _ ⟨r, rfl, rfl⟩ hr -
      match r with
      | .node [] => exact absurd (graft_eq.2 rfl) hr
      | .node (i :: c) => exact .some ⟨.node c, rfl, rfl⟩
      | .attribute c i => exact .some ⟨.node c, rfl, rfl⟩
  exact alike.surroundings ⟨r, rfl, rfl⟩

/-! ## Elements -/

theorem isNamed_node (x : XmlDocument) (uri base : String) (a : List Nat) :
    x.isNamed uri base (.node a) = ((x.node? a).map (Node.isNamed uri base)).getD false := by
  unfold XmlDocument.isNamed
  dsimp only
  cases x.node? a with
  | none => rfl
  | some n => cases n <;> rfl

theorem isNamed (h : Shared x a y b) (uri base : String) : ∀ r : Ref,
    x.isNamed uri base (r.graft a) = y.isNamed uri base (r.graft b)
  | .attribute .. => rfl
  | .node c => by
    rw [Ref.graft, Ref.graft, isNamed_node, isNamed_node]
    rcases (h.below c).cases with ⟨hx, hy⟩ | ⟨n, m, hx, hy, hbare⟩
    · rw [hx, hy]
    · simp [hx, hy, Node.eq_of_bare (Node.isNamed_bare uri base) hbare]

theorem attributeValue? (h : Shared x a y b) (base : String) :
    x.attributeValue? base (.node a) = y.attributeValue? base (.node b) := by
  unfold XmlDocument.attributeValue?
  dsimp only
  rcases h.cases with ⟨hx, hy⟩ | ⟨n, m, hx, hy, hbare⟩
  · rw [hx, hy]
  · simp [hx, hy, Node.eq_of_bare Node.attributes_bare hbare]

/-- The same elements are inside the nodes at the two addresses. -/
theorem elementsIn (h : Shared x a y b) : ∃ rs : List Ref,
    x.elementsIn (.node a) = rs.map (Ref.graft a) ∧ y.elementsIn (.node b) = rs.map (Ref.graft b) := by
  refine ⟨Node.elementsFrom [] 0 (x.nodesAt a), Node.elementsFrom_graft a (b := []), ?_⟩
  have same : Node.elementsFrom [] 0 (x.nodesAt a) = Node.elementsFrom [] 0 (y.nodesAt b) := by
    rw [← Node.elementsFrom_bareAll, Node.bareAll_eq, h.nodesAt, ← Node.bareAll_eq, Node.elementsFrom_bareAll]
  rw [same]
  exact Node.elementsFrom_graft b (b := [])

end Shared

end StylesheetReversal.Xml
