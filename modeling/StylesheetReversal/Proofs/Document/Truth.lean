import StylesheetReversal.Proofs.Document.Evaluation
import StylesheetReversal.Proofs.Document.Predicate
/-!
# Descriptions are true

What is said about the place of an element is true of every node right below it, as long as all that is named there is
in no namespace: each test that is asked is true of the element it is asked of (`Document.holds_equality`,
`Document.holds_siblingTest`), the elements stand one above the other, and so the place holds from the outermost of
them inwards (`XmlDocument.holds_place`).
-/
namespace StylesheetReversal

open StylesheetReversal.Path StylesheetReversal.Xml

namespace Document

variable {ν : Type} [DecidableEq ν] {d : Document ν} {first l r : Expr} {others : List Expr} {along : Axis} {n m a : ν}
  {ns : List ν}

/-! ## One test -/

theorem holds_conjunction (hfirst : d.Holds first n) (h : ∀ t ∈ others, d.Holds t n) :
    d.Holds (.conjunction first others) n := by
  induction others generalizing first with
  | nil => exact hfirst
  | cons t others ih =>
    exact ih (hfirst.and (h t List.mem_cons_self)) fun u hu => h u (List.mem_cons_of_mem t hu)

theorem decided_conjunction (hfirst : d.Decided first) (h : ∀ t ∈ others, d.Decided t) :
    d.Decided (.conjunction first others) := by
  induction others generalizing first with
  | nil => exact hfirst
  | cons t others ih =>
    exact ih (hfirst.and (h t List.mem_cons_self)) fun u hu => h u (List.mem_cons_of_mem t hu)

omit [DecidableEq ν] in
theorem qualifiedName_of_plain (h : d.Plain n) : d.qualifiedName n = d.baseName n := by
  unfold qualifiedName baseName
  cases d.name n with
  | none => rfl
  | some name => exact if_pos h

/-- An element in no namespace has its base name for a name. -/
theorem holds_name (h : d.Plain n) : d.Holds (.binary .eq (.function none "name" []) (.string (d.baseName n))) n := by
  refine ⟨.truth (decide (d.qualifiedName n = d.baseName n)), rfl, ?_⟩
  rw [qualifiedName_of_plain h]
  exact decide_eq_true rfl

theorem eval_equality (a n : ν) : d.eval (d.equality a) n = some (.truth
    (((d.attributes n).filter (d.keeps .attribute (some (d.baseName a)))).any fun m => d.value m = d.value a)) := rfl

/-- An element has the attributes that it is asked for. -/
theorem holds_equality (ha : a ∈ d.attributes n) (hk : d.kind a = .attribute) (hp : d.Plain a) :
    d.Holds (d.equality a) n := by
  refine ⟨_, eval_equality a n, ?_⟩
  rw [Value.holds, List.any_eq_true]
  refine ⟨a, List.mem_filter.2 ⟨ha, ?_⟩, decide_eq_true rfl⟩
  simp [keeps, hk, hp]

theorem decided_equality (a : ν) : d.Decided (d.equality a) := fun n => ⟨_, eval_equality a n⟩

theorem eval_contains (words : List Char) (n : ν) :
    d.eval (.function none "contains" [.axis .self .all none none, .string (String.ofList words)]) n =
      some (.truth (decide (words <:+: (d.value n).toList))) := by
  have whole : d.eval (.axis .self .all none none) n = some (.nodes [n]) := rfl
  rw [eval, whole]
  simp [eval, Value.said]

omit [DecidableEq ν] in
theorem said_within (n : ν) : d.said n <:+: (d.value n).toList := by
  have front := List.dropWhile_suffix (l := ((d.value n).toList.dropWhile Text.isBlank).reverse) Text.isBlank
  have back := List.dropWhile_suffix (l := (d.value n).toList) Text.isBlank
  rw [← List.reverse_prefix, List.reverse_reverse] at front
  exact front.isInfix.trans back.isInfix

/-- **A sibling that is asked for is there**, if it is one of those along the axis. -/
theorem holds_siblingTest (ha : d.along? n along = some ns) (hm : m ∈ ns)
    (hplain : d.kind m = .element → d.Plain m ∧ ∀ a ∈ d.attributes m, d.kind a = .attribute ∧ d.Plain a)
    {t : Expr} (ht : d.siblingTest along m = some t) : d.Holds t n := by
  unfold siblingTest at ht
  cases hk : d.kind m with
  | text =>
    rw [hk] at ht
    dsimp only at ht
    split at ht
    · cases ht
    · cases ht
      have kept : m ∈ ns.filter (d.keeps .text none) := List.mem_filter.2 ⟨hm, by simp [keeps, hk]⟩
      refine .predicate (eval_axis ha .text none) (fun m _ => ⟨_, eval_contains _ m⟩) kept ?_ _
      exact ⟨_, eval_contains _ m, decide_eq_true (said_within m)⟩
  | element =>
    obtain ⟨hm', hattributes⟩ := hplain hk
    have kept : m ∈ ns.filter (d.keeps .element (some (d.baseName m))) :=
      List.mem_filter.2 ⟨hm, by simp [keeps, hk, hm']⟩
    have decided : ∀ t ∈ (d.attributes m).map d.equality, d.Decided t := by
      intro t ht
      obtain ⟨a, -, rfl⟩ := List.mem_map.1 ht
      exact decided_equality a
    have holds : ∀ t ∈ (d.attributes m).map d.equality, d.Holds t m := by
      intro t ht
      obtain ⟨a, ha, rfl⟩ := List.mem_map.1 ht
      exact holds_equality ha (hattributes a ha).1 (hattributes a ha).2
    rw [hk] at ht
    dsimp only at ht
    cases htests : (d.attributes m).map d.equality with
    | nil =>
      rw [htests] at ht
      cases ht
      exact ⟨_, eval_axis ha .element _, by simp [Value.holds, List.ne_nil_of_mem kept]⟩
    | cons first others =>
      rw [htests] at ht decided holds
      cases ht
      have all := decided_conjunction (decided first List.mem_cons_self) fun t ht =>
        decided t (List.mem_cons_of_mem first ht)
      refine .predicate (eval_axis ha .element _) (fun m _ => all m) kept ?_ _
      exact holds_conjunction (holds first List.mem_cons_self) fun t ht => holds t (List.mem_cons_of_mem first ht)
  | _ => rw [hk] at ht; cases ht

end Document

namespace Xml.XmlDocument

variable {x : XmlDocument} {wrapper : Option String → Bool} {source boundary n m c : Ref}

/-! ## The elements of a place -/

/-- The element is the source or above it, and below the boundary, or below the root if the boundary is not above. -/
structure Between (x : XmlDocument) (source boundary n : Ref) : Prop where
  above : n ∈ source.lineage
  element : x.kind n = .element
  below : boundary ∈ source.lineage → n ≠ boundary ∧ boundary ∈ n.lineage

/-- The elements right below the parent of an element, itself among them, are in no namespace, and neither are their
attributes. -/
def Unqualified (x : XmlDocument) (n : Ref) : Prop :=
  ∀ p ∈ n.parent, ∀ m ∈ x.children p, x.kind m = .element →
    x.document.Plain m ∧ ∀ a ∈ x.attributes m, x.document.Plain a

instance (x : XmlDocument) (n : Ref) : Decidable (x.Unqualified n) :=
  inferInstanceAs (Decidable (∀ p ∈ n.parent, ∀ m ∈ x.children p, x.kind m = .element →
    x.document.Plain m ∧ ∀ a ∈ x.attributes m, x.document.Plain a))

theorem kind_of_mem_attributes {a : Ref} (ha : a ∈ x.attributes n) : x.kind a = .attribute := by
  unfold attributes at ha
  split at ha
  · split at ha
    · obtain ⟨i, -, rfl⟩ := List.mem_map.1 ha
      rfl
    · cases ha
  · cases ha

theorem Unqualified.plain (h : x.Unqualified n) (hn : x.kind n = .element)
    (hm : m ∈ preceding n ∨ m = n ∨ m ∈ x.following n) (hk : x.kind m = .element) :
    x.document.Plain m ∧ ∀ a ∈ x.attributes m, x.kind a = .attribute ∧ x.document.Plain a := by
  obtain ⟨i, up, rfl, hi⟩ := element_address hn
  have child : m ∈ x.children (.node up) := by
    rw [children_eq hi, List.mem_append, List.mem_reverse, List.mem_cons]
    exact hm
  obtain ⟨plain, attributes⟩ := h (.node up) rfl m child hk
  exact ⟨plain, fun a ha => ⟨kind_of_mem_attributes ha, attributes a ha⟩⟩

/-- **All that is asked of an element is true** of it. -/
theorem holds_tests (hn : x.kind n = .element) (h : x.Unqualified n) :
    ∀ t ∈ (x.attributes n).map x.document.equality ++ (preceding n).filterMap (x.document.siblingTest .precedingSibling) ++
      (x.following n).filterMap (x.document.siblingTest .followingSibling), x.document.Holds t n := by
  obtain ⟨earlier, later⟩ := sides_eq hn
  have before : x.document.along? n .precedingSibling = some (preceding n).reverse := by rw [Document.along?, earlier]
  have after : x.document.along? n .followingSibling = some (x.following n) := by rw [Document.along?, later]
  intro t ht
  rcases List.mem_append.1 ht with ht | ht
  · rcases List.mem_append.1 ht with ht | ht
    · obtain ⟨a, ha, rfl⟩ := List.mem_map.1 ht
      obtain ⟨hka, hpa⟩ := (h.plain hn (.inr (.inl rfl)) hn).2 a ha
      exact Document.holds_equality ha hka hpa
    · obtain ⟨m, hm, htest⟩ := List.mem_filterMap.1 ht
      exact Document.holds_siblingTest before (List.mem_reverse.2 hm) (h.plain hn (.inl hm)) htest
  · obtain ⟨m, hm, htest⟩ := List.mem_filterMap.1 ht
    exact Document.holds_siblingTest after hm (h.plain hn (.inr (.inr hm))) htest

/-- **A place holds** for what is right below the innermost of its elements. -/
theorem holds_place : ∀ {ns : List Ref} {c : Ref} {p : Expr}, (c :: ns).IsChain (fun m n => m.parent = some n) →
    (∀ n ∈ ns, x.kind n = .element ∧ x.Unqualified n) → x.place ns = some p → x.document.Holds p c
  | [], _, _, _, _, hp => by cases hp
  | n :: above, c, p, hchain, hns, hp => by
    cases hp
    obtain ⟨hparent, hchain⟩ := List.isChain_cons_cons.1 hchain
    obtain ⟨hn, hplain⟩ := hns n List.mem_cons_self
    have upwards : x.document.along? c .parent = some [n] := by
      rw [Document.along?]
      exact congrArg (fun p : Option Ref => some p.toList) hparent
    have holds : x.document.Holds (.conjunction (.binary .eq (.function none "name" [])
        (.string (x.document.baseName n))) ((x.attributes n).map x.document.equality ++
          (preceding n).filterMap (x.document.siblingTest .precedingSibling) ++
            (x.following n).filterMap (x.document.siblingTest .followingSibling) ++ (x.place above).toList)) n := by
      refine Document.holds_conjunction (Document.holds_name (hplain.plain hn (.inr (.inl rfl)) hn).1) fun t ht => ?_
      rcases List.mem_append.1 ht with ht | ht
      · exact holds_tests hn hplain t ht
      · exact holds_place hchain (fun m hm => hns m (List.mem_cons_of_mem n hm)) (Option.mem_toList.1 ht)
    refine .predicate (Document.eval_axis upwards .all none) (fun m hm => ?_) (List.mem_singleton.2 rfl) holds false
    obtain ⟨v, hv, -⟩ := holds
    rw [List.mem_singleton.1 (List.mem_filter.1 hm).1]
    exact ⟨v, hv⟩

/-! ## The way up -/

theorem lineage_node (i : Nat) (up : List Nat) : (Ref.node (i :: up)).lineage = .node (i :: up) :: (Ref.node up).lineage :=
  Ref.lineage_of_parent rfl

theorem isChain_lineage : ∀ address : List Nat, (Ref.node address).lineage.IsChain fun m n => m.parent = some n
  | [] => .singleton _
  | [i] => .cons_cons rfl (.singleton _)
  | i :: j :: up => by
    have above := isChain_lineage (j :: up)
    rw [lineage_node] at above ⊢
    exact .cons_cons rfl above

/-- What has something below it is an element or the root, and so is all that is above. -/
theorem kind_lineage : ∀ {address : List Nat}, x.nodesAt address ≠ [] → ∀ n ∈ (Ref.node address).lineage,
    x.kind n = .element ∨ x.kind n = .root
  | [], _, n, hn => by
    rw [List.mem_singleton.1 hn]
    exact .inr rfl
  | i :: up, h, n, hn => by
    unfold nodesAt at h
    cases hnode : (x.nodesAt up)[i]? with
    | none =>
      rw [hnode] at h
      exact absurd rfl h
    | some node =>
      have here : x.node? (i :: up) = some node := hnode
      have above : x.nodesAt up ≠ [] := List.ne_nil_of_mem (List.mem_of_getElem? hnode)
      rw [lineage_node] at hn
      rcases List.mem_cons.1 hn with rfl | hn
      · rw [hnode] at h
        cases node with
        | element => exact .inl (by rw [kind, here]; rfl)
        | _ => exact absurd rfl h
      · exact kind_lineage above n hn

theorem element_lineage (h : x.kind source = .element) : ∀ n ∈ source.lineage, x.kind n = .element ∨ x.kind n = .root := by
  obtain ⟨i, up, rfl, hi⟩ := element_address h
  have above : x.nodesAt up ≠ [] := List.ne_nil_of_length_pos (by omega)
  rw [lineage_node]
  intro n hn
  rcases List.mem_cons.1 hn with rfl | hn
  · exact .inl h
  · exact kind_lineage above n hn

/-- What is met on the way up before the boundary has the boundary above it, if it is there. -/
theorem mem_lineage_of_takeWhile {p : Ref → Bool} (hp : p boundary = false) : ∀ {address : List Nat},
    n ∈ (Ref.node address).lineage.takeWhile p → boundary ∈ (Ref.node address).lineage → boundary ∈ n.lineage
  | [], hn, hb => by
    have root := List.mem_singleton.1 ((List.takeWhile_sublist p).subset hn)
    rw [root]
    exact hb
  | i :: up, hn, hb => by
    rw [lineage_node] at hn hb
    by_cases hgo : p (.node (i :: up)) = true
    · rw [List.takeWhile_cons_of_pos hgo] at hn
      rcases List.mem_cons.1 hn with rfl | hn
      · rw [lineage_node]
        exact hb
      · rcases List.mem_cons.1 hb with rfl | hb
        · rw [hp] at hgo
          cases hgo
        · exact mem_lineage_of_takeWhile hp hn hb
    · rw [List.takeWhile_cons_of_neg hgo] at hn
      cases hn

/-- **Where there are no wrappers, all elements on the way up are described.** -/
theorem described_eq (hsource : x.kind source = .element)
    (h : ∀ n, x.Between source boundary n → wrapper (x.uri n) = false) :
    x.described wrapper source boundary = source.lineage.takeWhile (fun n => n ≠ boundary ∧ x.kind n ≠ .root) ∧
      ∀ n ∈ x.described wrapper source boundary, x.Between source boundary n := by
  have between : ∀ n ∈ source.lineage.takeWhile (fun n => decide (n ≠ boundary ∧ x.kind n ≠ .root)),
      x.Between source boundary n := by
    intro n hn
    have go := List.mem_takeWhile_imp (p := fun n => decide (n ≠ boundary ∧ x.kind n ≠ .root)) hn
    obtain ⟨hne, hroot⟩ := of_decide_eq_true go
    have above := (List.takeWhile_sublist _).subset hn
    refine ⟨above, (element_lineage hsource n above).resolve_right hroot, fun hb => ⟨hne, ?_⟩⟩
    obtain ⟨i, up, rfl, -⟩ := element_address hsource
    exact mem_lineage_of_takeWhile (by simp) hn hb
  have all : x.described wrapper source boundary =
      source.lineage.takeWhile (fun n => decide (n ≠ boundary ∧ x.kind n ≠ .root)) := by
    refine List.filter_eq_self.2 fun n hn => ?_
    exact decide_eq_true ⟨(between n hn).element, h n (between n hn)⟩
  exact ⟨all, all.symm ▸ between⟩

end Xml.XmlDocument

/-- **What is said about the place of an element is true of all that is right below it.**  So it is if there are no
wrappers on the way up to the boundary, if the elements there, those beside them and the attributes of all these are in
no namespace, and if no value with an apostrophe is written down. -/
theorem Xml.XmlDocument.surroundings_hold {text : String} {x : XmlDocument} (hx : XmlDocument.parse? text = some x)
    (wrapper : Option String → Bool) {source boundary : Ref} (hsource : x.kind source = .element)
    (hne : boundary ≠ source) (hwrapper : ∀ n, x.Between source boundary n → wrapper (x.uri n) = false)
    (hplain : ∀ n, x.Between source boundary n → x.Unqualified n)
    (hw : ∀ n, x.Between source boundary n → ∀ v ∈ x.written n, '\'' ∉ v.toList) :
    ∃ p, Expr.parse (x.document.surroundings wrapper source boundary) = .ok p ∧
      ∀ c ∈ x.document.children source, x.document.Holds p c := by
  obtain ⟨hdescribed, between⟩ := XmlDocument.described_eq hsource hwrapper
  obtain ⟨i, up, rfl, -⟩ := XmlDocument.element_address hsource
  have first : decide (Ref.node (i :: up) ≠ boundary ∧ x.kind (.node (i :: up)) ≠ .root) = true := by
    simp [hsource, hne.symm]
  obtain ⟨p, hp⟩ : ∃ p, x.place (x.described wrapper (.node (i :: up)) boundary) = some p := by
    rw [hdescribed, XmlDocument.lineage_node, List.takeWhile_cons, if_pos first]
    exact ⟨_, rfl⟩
  have reads := (XmlDocument.named_parse? hx).reads_place (fun n hn => (between n hn).element)
    (fun n hn => hw n (between n hn)) hp
  refine ⟨p, ?_, fun c hc => ?_⟩
  · rw [XmlDocument.surroundings_eq]
    exact (reads.loosen (by omega) (by omega)).parse
  · obtain ⟨j, -, rfl⟩ := List.mem_map.1 hc
    have chain := XmlDocument.isChain_lineage (j :: i :: up)
    rw [XmlDocument.lineage_node] at chain
    refine XmlDocument.holds_place ?_ (fun n hn => ⟨(between n hn).element, hplain n (between n hn)⟩) hp
    rw [hdescribed]
    exact chain.prefix ((List.prefix_cons_inj _).2 (List.takeWhile_prefix _))

/-- A document in which an element has siblings of all sorts. -/
def Xml.crowded : String := "<a><b k='1' xmlns=''/> x <c>y</c><d/></a>"

set_option maxRecDepth 2000 in
theorem Xml.XmlDocument.surroundings_hold_crowded : ∃ x, XmlDocument.parse? Xml.crowded = some x ∧
    x.document.surroundings (· == some Instruction.uri) (.node [2, 0]) (.node []) =
      "parent::node()[name()='c' and preceding-sibling::text()[contains(.,'x')] and preceding-sibling::b[@k='1'] and " ++
        "following-sibling::d and parent::node()[name()='a']]" ∧
    x.document.children (.node [2, 0]) = [.node [0, 2, 0]] ∧
    ∃ p, Expr.parse (x.document.surroundings (· == some Instruction.uri) (.node [2, 0]) (.node [])) = .ok p ∧
      ∀ c ∈ x.document.children (.node [2, 0]), x.document.Holds p c := by
  have run : ((XmlDocument.parse? Xml.crowded).map fun x =>
      (x.document.surroundings (· == some Instruction.uri) (.node [2, 0]) (.node []), x.document.children (.node [2, 0]),
        decide (x.kind (.node [2, 0]) = .element ∧ ∀ n ∈ (Ref.node [2, 0]).lineage, x.kind n = .element →
          (x.uri n == some Instruction.uri) = false ∧ x.Unqualified n ∧ ∀ v ∈ x.written n, '\'' ∉ v.toList))) =
      some ("parent::node()[name()='c' and preceding-sibling::text()[contains(.,'x')] and " ++
        "preceding-sibling::b[@k='1'] and following-sibling::d and parent::node()[name()='a']]", [.node [0, 2, 0]],
        true) := by
    have chars : Xml.crowded.toList = _ := String.toList_ofList
    rw [XmlDocument.parse?, chars]
    decide +kernel
  obtain ⟨x, hx, hrun⟩ := Option.map_eq_some_iff.1 run
  obtain ⟨hsaid, hrun⟩ := Prod.mk.inj hrun
  obtain ⟨hchildren, hclean⟩ := Prod.mk.inj hrun
  obtain ⟨hsource, hclean⟩ := of_decide_eq_true hclean
  refine ⟨x, hx, hsaid, hchildren, ?_⟩
  exact surroundings_hold hx _ hsource (by decide) (fun n hn => (hclean n hn.above hn.element).1)
    (fun n hn => (hclean n hn.above hn.element).2.1) fun n hn => (hclean n hn.above hn.element).2.2

end StylesheetReversal
