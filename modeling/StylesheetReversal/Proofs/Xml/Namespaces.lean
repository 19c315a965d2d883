import StylesheetReversal.Proofs.Xml.Assembly
import StylesheetReversal.Proofs.Xml.Order
/-!
# The namespaces of reported names

A name is reported with the qualifier of the first declaration of its namespace in scope, and a default declaration has
none.  The name of an element is then that of the default namespace, but the name of an attribute is in no namespace.  So
a reported name stands for the namespace of its node exactly if it has a qualifier, or that of an element for which no
other default declaration comes first (`XmlDocument.denotes_iff`).

What is in scope at an element is in order (`Tag.Orderly`), since a qualifier is declared once and then hides what is
around the element.
-/
namespace StylesheetReversal.Xml

namespace Tag

variable {scope own inherited : List Binding} {b : Binding} {q u : String} {t : Tag}

/-! ## Scopes -/

/-- What is in scope at an element: one declaration for each qualifier, and none for `xml` and its namespace.  There can be
more than one default declaration. -/
structure Orderly (scope : List Binding) : Prop where
  distinct : scope.Pairwise fun b c => b.qualifier.isSome → c.qualifier ≠ b.qualifier
  foreign : ∀ b ∈ scope, b.uri ≠ xmlUri ∧ b.qualifier ≠ some "xml"

theorem orderly_nil : Orderly [] := ⟨.nil, nofun⟩

/-- A qualifier stands for the namespace that it is declared for. -/
theorem Orderly.bound?_of_mem (h : Orderly scope) (hb : b ∈ scope) (hq : b.qualifier = some q) :
    bound? scope (some q) = some b.uri := by
  induction scope with
  | nil => cases hb
  | cons c scope ih =>
    obtain ⟨first, distinct⟩ := List.pairwise_cons.1 h.distinct
    rcases List.mem_cons.1 hb with rfl | hb
    · simp [bound?, hq]
    · have other : ¬ c.qualifier = some q := by
        intro hc
        exact first b hb (by rw [hc]; rfl) (hq.trans hc.symm)
      rw [bound?, List.find?_cons_of_neg (by simpa using other)]
      exact ih ⟨distinct, fun b hb => h.foreign b (List.mem_cons_of_mem c hb)⟩ hb

theorem mem_of_bound? {qualifier : Option String} (h : bound? scope qualifier = some u) :
    ∃ b ∈ scope, b.qualifier = qualifier ∧ b.uri = u := by
  obtain ⟨b, hb, rfl⟩ := Option.map_eq_some_iff.1 h
  have found := List.find?_some hb
  exact ⟨b, List.mem_of_find?_eq_some hb, of_decide_eq_true found, rfl⟩

/-! ### Declarations -/

theorem foreign_of_binding? {name : TagName} (h : binding? name u = some b) (hu : u ≠ xmlUri) :
    b.uri = u ∧ b.qualifier ≠ some "xml" := by
  unfold binding? at h
  dsimp only at h
  generalize (if name.qualifier = "xmlns".toList then some (String.ofList name.base) else none) = qualifier at h
  split at h
  · cases h
  · split at h
    · next hxml =>
      cases h
      exact ⟨rfl, fun hq => hu (hxml.1 hq)⟩
    · cases h

theorem orderly_of_declared? : ∀ {written : List (TagName × String)} {before own : List Binding},
    declared? written before = some own →
      Orderly own ∧ ∀ b ∈ before, ∀ c ∈ own, c.qualifier.isSome → c.qualifier ≠ b.qualifier
  | [], _, _, h => by
    cases h
    exact ⟨orderly_nil, fun _ _ => nofun⟩
  | (name, uri) :: rest, before, own, h => by
    rw [declared?] at h
    split at h
    · obtain ⟨binding, hbinding, h⟩ := Option.bind_eq_some_iff.1 h
      split at h
      · cases h
      · next fresh =>
        split at h
        · exact orderly_of_declared? h
        · next hu =>
          obtain ⟨own, hown, rfl⟩ := Option.map_eq_some_iff.1 h
          obtain ⟨orderly, apart⟩ := orderly_of_declared? hown
          obtain ⟨rfl, hxml⟩ := foreign_of_binding? hbinding hu
          refine ⟨⟨List.pairwise_cons.2 ⟨fun c hc hq heq => ?_, orderly.distinct⟩, List.forall_mem_cons.2
            ⟨⟨hu, hxml⟩, orderly.foreign⟩⟩, fun b hb => List.forall_mem_cons.2 ⟨fun hq heq => ?_, ?_⟩⟩
          · exact apart binding List.mem_cons_self c hc (heq ▸ hq) heq
          · exact fresh ⟨hq, List.any_eq_true.2 ⟨b, hb, decide_eq_true heq.symm⟩⟩
          · exact apart b (List.mem_cons_of_mem _ hb)
    · exact orderly_of_declared? h

theorem Orderly.takeOver (h : Orderly scope) (hb : b.uri ≠ xmlUri ∧ b.qualifier ≠ some "xml") :
    Orderly (takeOver scope b) := by
  unfold Tag.takeOver
  split
  · exact h
  · next hidden =>
    refine ⟨List.pairwise_append.2 ⟨h.distinct, List.pairwise_singleton _ _, fun c hc d hd _ heq => ?_⟩, fun c hc => ?_⟩
    · rw [List.mem_singleton.1 hd] at heq
      exact hidden (List.any_eq_true.2 ⟨c, hc, decide_eq_true heq.symm⟩)
    · rcases List.mem_append.1 hc with hc | hc
      · exact h.foreign c hc
      · rw [List.mem_singleton.1 hc]
        exact hb

theorem Orderly.foldl (hinherited : ∀ b ∈ inherited, b.uri ≠ xmlUri ∧ b.qualifier ≠ some "xml") (h : Orderly own) :
    Orderly (inherited.foldl Tag.takeOver own) := by
  induction inherited generalizing own with
  | nil => exact h
  | cons b inherited ih =>
    obtain ⟨hb, hinherited⟩ := List.forall_mem_cons.1 hinherited
    exact ih hinherited (h.takeOver hb)

/-- **The scope of an element is in order** if that around it is. -/
theorem Orderly.scopeOf (hown : Orderly own) (hinherited : Orderly inherited) : Orderly (scopeOf own inherited) := by
  unfold Tag.scopeOf
  split
  · exact hinherited
  · exact hown.foldl hinherited.foreign

/-! ## Names in a scope -/

/-- The namespace that a qualifier stands for, if any.  That of `xml` needs no declaration. -/
def standsFor? (scope : List Binding) (q : String) : Option String :=
  if q = "xml" then some xmlUri else bound? scope (some q)

/-- The namespace of a name, where those without a qualifier are in the namespace `plain`.  Fails for a qualifier that stands
for nothing. -/
def expand? (scope : List Binding) (plain : Option String) (n : QName) : Option (Option String) :=
  match n.qualifier with
  | none => some plain
  | some q => (standsFor? scope q).map some

/-- Names of elements without a qualifier are in the default namespace. -/
def elementNamespace? (scope : List Binding) (n : QName) : Option (Option String) :=
  expand? scope (bound? scope none) n

/-- Names of attributes without a qualifier are in none. -/
def attributeNamespace? (scope : List Binding) (n : QName) : Option (Option String) := expand? scope none n

/-- The namespaces of an element and its attributes are declared. -/
structure Declared (t : Tag) : Prop where
  orderly : Orderly t.scope
  element : ∃ name, elementUri? t.scope name = some t.uri
  attributes : ∀ a ∈ t.attributes, ∃ name, attributeUri? t.scope name = some a.uri

theorem declared_ofRaw? (hinherited : Orderly inherited) {name : TagName} {raw : List RawAttribute}
    (h : ofRaw? inherited name raw = some t) : t.Declared := by
  obtain ⟨written, -, h⟩ := Option.bind_eq_some_iff.1 h
  obtain ⟨own, hown, h⟩ := Option.bind_eq_some_iff.1 h
  obtain ⟨uri, huri, h⟩ := Option.bind_eq_some_iff.1 h
  obtain ⟨attributes, hattributes, rfl⟩ := Option.map_eq_some_iff.1 h
  refine ⟨(orderly_of_declared? hown).1.scopeOf hinherited, ⟨name, huri⟩, fun a ha => ?_⟩
  obtain ⟨w, -, -, -, hw⟩ := exists_of_attributes? hattributes a ha
  exact ⟨w.1, hw⟩

/-- An element in no namespace is in the scope of no default declaration, and any other namespace is declared. -/
theorem Declared.uri_cases (h : t.Declared) :
    t.uri = none ∧ bound? t.scope none = none ∨ ∃ b ∈ t.scope, t.uri = some b.uri := by
  obtain ⟨name, huri⟩ := h.element
  unfold elementUri? at huri
  split at huri
  · cases hdefault : bound? t.scope none with
    | none =>
      rw [hdefault] at huri
      exact .inl ⟨(Option.some.inj huri).symm, rfl⟩
    | some u =>
      obtain ⟨b, hb, -, rfl⟩ := mem_of_bound? hdefault
      rw [hdefault] at huri
      exact .inr ⟨b, hb, (Option.some.inj huri).symm⟩
  · split at huri
    · cases huri
    · obtain ⟨u, hu, huri⟩ := Option.map_eq_some_iff.1 huri
      obtain ⟨b, hb, -, rfl⟩ := mem_of_bound? hu
      exact .inr ⟨b, hb, huri.symm⟩

theorem Declared.attribute_cases (h : t.Declared) {a : Attribute} (ha : a ∈ t.attributes) :
    a.uri = none ∨ a.uri = some xmlUri ∨ ∃ b ∈ t.scope, a.uri = some b.uri := by
  obtain ⟨name, huri⟩ := h.attributes a ha
  unfold attributeUri? at huri
  split at huri
  · exact .inl (Option.some.inj huri).symm
  · split at huri
    · exact .inr (.inl (Option.some.inj huri).symm)
    · obtain ⟨u, hu, huri⟩ := Option.map_eq_some_iff.1 huri
      obtain ⟨b, hb, -, rfl⟩ := mem_of_bound? hu
      exact .inr (.inr ⟨b, hb, huri.symm⟩)

/-- **A declared namespace is reported by its first declaration.**  If that has a qualifier, it stands for the namespace. -/
theorem expand?_qualifierOf (h : Orderly t.scope) (hb : b ∈ t.scope) (plain : Option String) (base : String) :
    expand? t.scope plain ⟨t.qualifierOf b.uri, base⟩ = some (some b.uri) ↔
      (t.scope.find? (·.uri = b.uri) = some ⟨none, b.uri⟩ → plain = some b.uri) := by
  have notXml := (h.foreign b hb).1
  obtain ⟨⟨qualifier, uri⟩, hfirst⟩ : ∃ c, t.scope.find? (·.uri = b.uri) = some c :=
    Option.isSome_iff_exists.1 (List.find?_isSome.2 ⟨b, hb, decide_eq_true rfl⟩)
  have found := List.find?_some hfirst
  obtain rfl : uri = b.uri := of_decide_eq_true found
  have member := List.mem_of_find?_eq_some hfirst
  rw [qualifierOf, if_neg notXml, hfirst, expand?]
  cases qualifier with
  | none => exact ⟨fun hsame _ => Option.some.inj hsame, fun hsame => congrArg some (hsame rfl)⟩
  | some q =>
    have foreign : q ≠ "xml" := fun hq => (h.foreign _ member).2 (congrArg some hq)
    have stands : standsFor? t.scope q = some b.uri := by
      rw [standsFor?, if_neg foreign]
      exact h.bound?_of_mem (b := ⟨some q, b.uri⟩) member rfl
    exact iff_of_true (congrArg (Option.map some) stands) nofun

/-- The reported name of an element. -/
theorem Declared.elementNamespace?_iff (h : t.Declared) (base : String) :
    elementNamespace? t.scope ⟨t.uri.bind t.qualifierOf, base⟩ = some t.uri ↔
      ∀ u, t.uri = some u → t.scope.find? (·.uri = u) = some ⟨none, u⟩ → bound? t.scope none = some u := by
  rw [elementNamespace?]
  rcases h.uri_cases with ⟨huri, hdefault⟩ | ⟨b, hb, huri⟩
  · rw [huri, Option.bind_none]
    exact iff_of_true (congrArg some hdefault) nofun
  · rw [huri, Option.bind_some, expand?_qualifierOf h.orderly hb]
    constructor
    · intro hsame u hu
      cases hu
      exact hsame
    · exact fun hsame => hsame b.uri rfl

/-- The reported name of an attribute. -/
theorem Declared.attributeNamespace?_iff (h : t.Declared) {a : Attribute} (ha : a ∈ t.attributes) (base : String) :
    attributeNamespace? t.scope ⟨a.uri.bind t.qualifierOf, base⟩ = some a.uri ↔
      ∀ u, a.uri = some u → t.scope.find? (·.uri = u) ≠ some ⟨none, u⟩ := by
  rw [attributeNamespace?]
  rcases h.attribute_cases ha with huri | huri | ⟨b, hb, huri⟩
  · rw [huri]
    exact iff_of_true rfl nofun
  · rw [huri, Option.bind_some, qualifierOf, if_pos rfl]
    refine iff_of_true rfl fun u hu hfirst => ?_
    cases hu
    exact (h.orderly.foreign _ (List.mem_of_find?_eq_some hfirst)).1 rfl
  · rw [huri, Option.bind_some, expand?_qualifierOf h.orderly hb]
    constructor
    · intro hsame u hu hfirst
      cases hu
      cases hsame hfirst
    · exact fun hother hfirst => absurd hfirst (hother b.uri rfl)

end Tag

/-! ## Nodes -/

/-- The namespaces of an element and of the elements inside it are declared. -/
inductive Node.Declared : Node → Prop
  | element {start : Nat} {tag : Tag} {children : List Node} :
      tag.Declared → (∀ n ∈ children, Declared n) → Declared (.element start tag children)
  | text {start : Nat} {value : String} : Declared (.text start value)
  | comment {start : Nat} {value : String} : Declared (.comment start value)
  | instruction {start : Nat} {target value : String} : Declared (.instruction start target value)

theorem Node.Declared.children {n : Node} (h : n.Declared) : ∀ m ∈ n.children, m.Declared := by
  cases h with
  | element _ hchildren => exact hchildren
  | text => exact nofun
  | comment => exact nofun
  | instruction => exact nofun

/-- **Namespaces are declared** wherever the nodes are put together. -/
theorem Node.declared_built : Built (fun _ => True) Tag.Declared Node.Declared where
  text _ _ := .text
  cdata _ := .text
  append _ _ := .text
  comment _ := .comment
  instruction _ := .instruction
  tag haround _ h := by
    refine Tag.declared_ofRaw? ?_ h
    rcases haround with rfl | ⟨outer, houter, rfl⟩
    · exact Tag.orderly_nil
    · exact houter.orderly
  element := .element
  children := Declared.children

/-! ## Documents -/

namespace XmlDocument

variable {x : XmlDocument} {text : String} {r : Ref}

/-- What is in scope at an element and its attributes. -/
def scope (x : XmlDocument) (r : Ref) : List Binding :=
  match x.node? r.address with
  | some (.element _ tag _) => tag.scope
  | _ => []

/-- The namespace that the reported name of an element or an attribute stands for. -/
def denoted? (x : XmlDocument) (r : Ref) : Option (Option String) :=
  (x.name r).bind fun n =>
    match r with
    | .node _ => Tag.elementNamespace? (x.scope r) n
    | .attribute .. => Tag.attributeNamespace? (x.scope r) n

theorem exists_tag_of_kind {a : List Nat} (h : x.kind (.node a) = .element) :
    ∃ start tag children, x.node? a = some (.element start tag children) := by
  rw [kind] at h
  split at h
  · next n hn =>
    cases n with
    | element start tag children => exact ⟨start, tag, children, hn⟩
    | _ => cases h
  · cases h

theorem exists_tag_of_has {a : List Nat} {i : Nat} (h : x.Has (.attribute a i)) :
    ∃ start tag children written, x.node? a = some (.element start tag children) ∧ tag.attributes[i]? = some written := by
  obtain ⟨n, hn, hi⟩ := h
  cases n with
  | element start tag children => exact ⟨start, tag, children, _, hn, List.getElem?_eq_getElem hi⟩
  | _ => cases hi

/-- **Which names stand for the namespace of their node**: all but those that are reported by a default declaration, if they
are names of attributes, or if another default declaration comes first. -/
theorem denotes_iff (h : parse? text = some x) (hr : x.Has r) (hkind : x.kind r = .element ∨ x.kind r = .attribute) :
    x.denoted? r = some (x.uri r) ↔
      ∀ u, x.uri r = some u → (x.scope r).find? (·.uri = u) = some ⟨none, u⟩ →
        x.kind r = .element ∧ Tag.bound? (x.scope r) none = some u := by
  have declared {a : List Nat} {start : Nat} {tag : Tag} {children : List Node}
      (hn : x.node? a = some (.element start tag children)) : tag.Declared := by
    have all := Node.declared_built.parse? (fun _ _ _ _ => trivial) h
    cases Node.declared_built.node? all hn with
    | element htag _ => exact htag
  match r with
  | .node a =>
    have element := hkind.resolve_right (kind_node_ne a)
    obtain ⟨start, tag, children, hn⟩ := exists_tag_of_kind element
    have uri : x.uri (.node a) = tag.uri := by rw [XmlDocument.uri, hn]; rfl
    have scope : x.scope (.node a) = tag.scope := by rw [XmlDocument.scope, Ref.address, hn]
    have reported : x.name (.node a) = some ⟨tag.uri.bind tag.qualifierOf, tag.base⟩ := by rw [name, hn]; rfl
    rw [denoted?, reported, uri, scope, element]
    refine ((declared hn).elementNamespace?_iff tag.base).trans ?_
    exact ⟨fun ok u hu hfirst => ⟨rfl, ok u hu hfirst⟩, fun ok u hu hfirst => (ok u hu hfirst).2⟩
  | .attribute a i =>
    obtain ⟨start, tag, children, written, hn, ha⟩ := exists_tag_of_has hr
    have uri : x.uri (.attribute a i) = written.uri := by
      rw [XmlDocument.uri, attribute?, hn, Option.bind_some, Node.attributes, ha]
      rfl
    have scope : x.scope (.attribute a i) = tag.scope := by rw [XmlDocument.scope, Ref.address, hn]
    have reported : x.name (.attribute a i) = some ⟨written.uri.bind tag.qualifierOf, written.base⟩ := by
      rw [name, hn]
      dsimp only
      rw [ha]
      rfl
    rw [denoted?, reported, uri, scope]
    refine ((declared hn).attributeNamespace?_iff (List.mem_of_getElem? ha) written.base).trans ?_
    exact ⟨fun ok u hu hfirst => absurd hfirst (ok u hu), fun ok u hu hfirst => by cases (ok u hu hfirst).1⟩

/-- An element and its attribute in one namespace, which is the default one and has a qualifier as well. -/
def twoDeclarations : String := "<a xmlns='u' xmlns:p='u'><p:b p:k='1'/></a>"

theorem denotes_iff_element : ∃ x, parse? twoDeclarations = some x ∧ x.Has (.node [0, 0]) ∧
    (x.kind (.node [0, 0]) = .element ∨ x.kind (.node [0, 0]) = .attribute) ∧
    (x.denoted? (.node [0, 0]) = some (x.uri (.node [0, 0])) ↔
      ∀ u, x.uri (.node [0, 0]) = some u → (x.scope (.node [0, 0])).find? (·.uri = u) = some ⟨none, u⟩ →
        x.kind (.node [0, 0]) = .element ∧ Tag.bound? (x.scope (.node [0, 0])) none = some u) := by
  have run : (parse? twoDeclarations).map (fun x => (x.kind (.node [0, 0]), (x.node? [0, 0]).isSome)) =
      some (.element, true) := by
    have chars : twoDeclarations.toList = _ := String.toList_ofList
    rw [parse?, chars]
    decide +kernel
  obtain ⟨x, hx, hrun⟩ := Option.map_eq_some_iff.1 run
  obtain ⟨hkind, hnode⟩ := Prod.mk.inj hrun
  have has : x.Has (.node [0, 0]) := .inr (Option.isSome_iff_exists.1 hnode)
  exact ⟨x, hx, has, .inl hkind, denotes_iff hx has (.inl hkind)⟩

/-- An attribute that is reported by a default declaration seems to be in no namespace. -/
theorem defaulted_attribute : ¬ ∀ text x, parse? text = some x → ∀ r, x.Has r →
    (x.kind r = .element ∨ x.kind r = .attribute) → x.denoted? r = some (x.uri r) := by
  intro denotes
  have run : (parse? twoDeclarations).map (fun x => ((x.attribute? [0, 0] 0).isSome, x.denoted? (.attribute ([0, 0]) 0),
      x.uri (.attribute ([0, 0]) 0))) = some (true, some none, some "u") := by
    have chars : twoDeclarations.toList = _ := String.toList_ofList
    rw [parse?, chars]
    decide +kernel
  obtain ⟨x, hx, hrun⟩ := Option.map_eq_some_iff.1 run
  obtain ⟨hattribute, hpair⟩ := Prod.mk.inj hrun
  obtain ⟨hdenoted, huri⟩ := Prod.mk.inj hpair
  have has : x.Has (.attribute ([0, 0]) 0) := by
    obtain ⟨a, ha⟩ := Option.isSome_iff_exists.1 hattribute
    obtain ⟨n, hn, hget⟩ := Option.bind_eq_some_iff.1 ha
    exact ⟨n, hn, (List.getElem?_eq_some_iff.1 hget).1⟩
  have same := denotes _ x hx _ has (.inr rfl)
  rw [hdenoted, huri] at same
  cases same

end XmlDocument

end StylesheetReversal.Xml
