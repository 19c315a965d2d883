import Mathlib.Data.List.Sort
import StylesheetReversal.Xml.Document
/-!
# Document order

The nodes of a document are listed in document order (`XmlDocument.pairwise_refs`), so that each is listed once and the
order of two nodes is that of their numbers in the list (`XmlDocument.compare_numbers`).  Those right below a node are
its attributes and its children (`XmlDocument.filter_attributes`, `XmlDocument.filter_children`).
-/
namespace StylesheetReversal.Xml

/-- A list from a number on: the member with this number, and the list from the next number on. -/
theorem getElem?_of_drop {α : Type} {l bs : List α} {b : α} {i : Nat} (h : l.drop i = b :: bs) :
    l[i]? = some b ∧ l.drop (i + 1) = bs := by
  constructor
  · have first := congrArg List.head? h
    rwa [List.head?_drop] at first
  · rw [← List.drop_drop, h]
    rfl

namespace Ref

/-- The address of a node, for an attribute that of its element. -/
def address : Ref → List Nat
  | .node a => a
  | .attribute a _ => a

/-! ## Comparing two nodes -/

theorem comparePaths_self : ∀ p : List Nat, comparePaths p p = .eq
  | [] => rfl
  | i :: p => by rw [comparePaths, Nat.compare_eq_eq.2 rfl, comparePaths_self p]; rfl

theorem swap_comparePaths : ∀ p q : List Nat, (comparePaths p q).swap = comparePaths q p
  | [], [] => rfl
  | [], _ :: _ => rfl
  | _ :: _, [] => rfl
  | i :: p, j :: q => by rw [comparePaths, comparePaths, Ordering.swap_then, Nat.compare_swap, swap_comparePaths p q]

theorem comparePaths_append (p q r : List Nat) : comparePaths (p ++ q) (p ++ r) = comparePaths q r := by
  induction p with
  | nil => rfl
  | cons i p ih =>
    rw [List.cons_append, List.cons_append, comparePaths, Nat.compare_eq_eq.2 rfl, ih]
    rfl

variable {r s : Ref}

theorem compare_self : ∀ r : Ref, compare r r = .eq
  | .node a => comparePaths_self _
  | .attribute a i => by rw [compare, compareAddresses, comparePaths_self, Nat.compare_eq_eq.2 rfl]; rfl

theorem swap_compare : ∀ r s : Ref, (compare r s).swap = compare s r
  | .node a, .node b => swap_comparePaths _ _
  | .attribute a i, .attribute b j => by
    rw [compare, compare, Ordering.swap_then, Nat.compare_swap, compareAddresses, swap_comparePaths]
    rfl
  | .node a, .attribute b i => by
    rw [compare, compare]
    split <;> rename_i h
    · rw [if_pos h.symm]
      rfl
    · rw [if_neg (Ne.symm h)]
      exact swap_comparePaths _ _
  | .attribute a i, .node b => by
    rw [compare, compare]
    split <;> rename_i h
    · rw [if_pos h.symm]
      rfl
    · rw [if_neg (Ne.symm h)]
      exact swap_comparePaths _ _

/-- A node comes before all that is inside it. -/
theorem compareAddresses_below (a b : List Nat) (k : Nat) : compareAddresses a (b ++ k :: a) = .lt := by
  have down : (b ++ k :: a).reverse = a.reverse ++ (k :: b.reverse) := by simp
  have whole := comparePaths_append a.reverse [] (k :: b.reverse)
  rw [List.append_nil, ← down] at whole
  exact whole

/-- What is inside one node comes before what is inside a later sibling. -/
theorem compareAddresses_beside {i k : Nat} (h : i < k) (a b up : List Nat) :
    compareAddresses (a ++ i :: up) (b ++ k :: up) = .lt := by
  have down (c : List Nat) (j : Nat) : (c ++ j :: up).reverse = up.reverse ++ (j :: c.reverse) := by simp
  rw [compareAddresses, down, down, comparePaths_append, comparePaths, Nat.compare_eq_lt.2 h]
  rfl

/-- Nodes at different addresses are in the order of these. -/
theorem compare_of_address (h : compareAddresses r.address s.address = .lt) : compare r s = .lt := by
  have ne : r.address ≠ s.address := by
    intro same
    rw [same, compareAddresses, comparePaths_self] at h
    cases h
  match r, s with
  | .node a, .node b => exact h
  | .attribute a i, .attribute b j =>
    change (compareAddresses a b).then _ = .lt
    rw [show compareAddresses a b = .lt from h]
    rfl
  | .node a, .attribute b i => exact (if_neg ne).trans h
  | .attribute a i, .node b => exact (if_neg ne).trans h

theorem compare_parent {p : Ref} (h : r.parent = some p) : compare p r = .lt := by
  match r with
  | .node [] => cases h
  | .node (i :: up) => cases h; exact compareAddresses_below up [] i
  | .attribute a i => cases h; exact if_pos rfl

theorem pairwise_attributes (a : List Nat) (k : Nat) :
    ((List.range k).map (Ref.attribute a)).Pairwise fun r s => r.compare s = .lt := by
  refine List.pairwise_map.2 (List.pairwise_lt_range.imp fun {i j} hij => ?_)
  rw [Ref.compare, Ref.compareAddresses, Ref.comparePaths_self, Nat.compare_eq_lt.2 hij]
  rfl

end Ref

/-! ## The list of all nodes -/

namespace Node

variable {a up : List Nat} {r : Ref}

/-- Whatever the kind of a node, it is listed, then its attributes and then what is inside it. -/
theorem refs_eq (a : List Nat) (n : Node) : n.refs a =
    .node a :: (List.range n.attributes.length).map (.attribute a) ++ refsFrom a 0 n.children := by
  cases n <;> rfl

theorem mem_refsFrom : ∀ {i : Nat} {ns : List Node},
    r ∈ refsFrom up i ns ↔ ∃ (k : Nat) (n : Node), ns[k]? = some n ∧ r ∈ n.refs ((i + k) :: up)
  | _, [] => by simp [refsFrom]
  | i, n :: ns => by
    rw [refsFrom, List.mem_append, mem_refsFrom]
    constructor
    · rintro (h | ⟨k, m, hm, h⟩)
      · exact ⟨0, n, rfl, h⟩
      · exact ⟨k + 1, m, hm, by rwa [← Nat.add_assoc, Nat.add_right_comm]⟩
    · rintro ⟨_ | k, m, hm, h⟩
      · cases hm
        exact .inl h
      · exact .inr ⟨k, m, hm, by rwa [Nat.add_right_comm, Nat.add_assoc]⟩

mutual

theorem address_of_mem_refs : ∀ {n : Node} {a : List Nat}, r ∈ n.refs a → ∃ b, r.address = b ++ a
  | .element start tag cs, a, h => by
    rw [refs, List.mem_append, List.mem_cons, List.mem_map] at h
    rcases h with (rfl | ⟨i, -, rfl⟩) | h
    · exact ⟨[], rfl⟩
    · exact ⟨[], rfl⟩
    · obtain ⟨b, k, -, hb⟩ := address_of_mem_refsFrom h
      exact ⟨b ++ [k], by rw [hb]; simp⟩
  | .text .., _, h => ⟨[], by rw [List.mem_singleton.1 h]; rfl⟩
  | .comment .., _, h => ⟨[], by rw [List.mem_singleton.1 h]; rfl⟩
  | .instruction .., _, h => ⟨[], by rw [List.mem_singleton.1 h]; rfl⟩

theorem address_of_mem_refsFrom : ∀ {ns : List Node} {up : List Nat} {i : Nat}, r ∈ refsFrom up i ns →
    ∃ b k, i ≤ k ∧ r.address = b ++ k :: up
  | [], _, _, h => by cases h
  | n :: ns, up, i, h => by
    rcases List.mem_append.1 h with h | h
    · obtain ⟨b, hb⟩ := address_of_mem_refs h
      exact ⟨b, i, Nat.le_refl i, hb⟩
    · obtain ⟨b, k, hk, hb⟩ := address_of_mem_refsFrom h
      exact ⟨b, k, by omega, hb⟩

end

mutual

/-- **A node and all that is inside it** are listed in document order. -/
theorem pairwise_refs : ∀ (n : Node) (a : List Nat), (n.refs a).Pairwise fun r s => r.compare s = .lt
  | .element start tag cs, a => by
    have inside : ∀ {s}, s ∈ refsFrom a 0 cs → Ref.compareAddresses a s.address = .lt := by
      intro s hs
      obtain ⟨b, k, -, hb⟩ := address_of_mem_refsFrom hs
      rw [hb]
      exact Ref.compareAddresses_below a b k
    rw [refs, List.pairwise_append, List.pairwise_cons]
    refine ⟨⟨fun s hs => ?_, Ref.pairwise_attributes a _⟩, pairwise_refsFrom cs a 0, fun r hr s hs => Ref.compare_of_address ?_⟩
    · obtain ⟨i, -, rfl⟩ := List.mem_map.1 hs
      exact if_pos rfl
    · rcases List.mem_cons.1 hr with rfl | hr
      · exact inside hs
      · obtain ⟨i, -, rfl⟩ := List.mem_map.1 hr
        exact inside hs
  | .text .., _ => List.pairwise_singleton _ _
  | .comment .., _ => List.pairwise_singleton _ _
  | .instruction .., _ => List.pairwise_singleton _ _

theorem pairwise_refsFrom : ∀ (ns : List Node) (up : List Nat) (i : Nat),
    (refsFrom up i ns).Pairwise fun r s => r.compare s = .lt
  | [], _, _ => .nil
  | n :: ns, up, i => by
    rw [refsFrom, List.pairwise_append]
    refine ⟨pairwise_refs n (i :: up), pairwise_refsFrom ns up (i + 1), fun r hr s hs => Ref.compare_of_address ?_⟩
    obtain ⟨b, hb⟩ := address_of_mem_refs hr
    obtain ⟨c, k, hk, hc⟩ := address_of_mem_refsFrom hs
    rw [hb, hc]
    exact Ref.compareAddresses_beside hk b c up

end

end Node

namespace XmlDocument

variable {x : XmlDocument}

theorem nodesAt_of_node? {a : List Nat} {n : Node} (h : x.node? a = some n) : x.nodesAt a = n.children := by
  cases a with
  | nil => cases h
  | cons i up =>
    rw [node?] at h
    rw [nodesAt, h]

theorem nodesAt_eq_nil {i : Nat} {up : List Nat} (h : x.node? (i :: up) = none) : x.nodesAt (i :: up) = [] := by
  rw [node?] at h
  rw [nodesAt, h]

/-- The children of a node from a number on: the first of them, and those from the next number on. -/
theorem node?_of_drop {up : List Nat} {i : Nat} {n : Node} {ns : List Node} (h : (x.nodesAt up).drop i = n :: ns) :
    x.node? (i :: up) = some n ∧ (x.nodesAt up).drop (i + 1) = ns := getElem?_of_drop h

/-- **All nodes are listed in document order.** -/
theorem pairwise_refs (x : XmlDocument) : x.refs.Pairwise fun r s => r.compare s = .lt := by
  refine List.pairwise_cons.2 ⟨fun s hs => ?_, Node.pairwise_refsFrom x.nodes [] 0⟩
  obtain ⟨b, k, -, hb⟩ := Node.address_of_mem_refsFrom hs
  refine Ref.compare_of_address ?_
  rw [hb]
  exact Ref.compareAddresses_below [] b k

/-! ## The nodes in the list -/

/-- Whether there is a node of this name: the root, a node at the address, or an attribute of one. -/
def Has (x : XmlDocument) : Ref → Prop
  | .node a => a = [] ∨ ∃ n, x.node? a = some n
  | .attribute a i => ∃ n, x.node? a = some n ∧ i < n.attributes.length

mutual

theorem has_of_mem {r : Ref} : ∀ {n : Node} {a : List Nat}, x.node? a = some n → r ∈ n.refs a → x.Has r
  | .element start tag cs, a, h, hr => by
    have inside : (x.nodesAt a).drop 0 = cs := nodesAt_of_node? h
    rw [Node.refs, List.mem_append, List.mem_cons, List.mem_map] at hr
    rcases hr with (rfl | ⟨i, hi, rfl⟩) | hr
    · exact .inr ⟨_, h⟩
    · exact ⟨_, h, List.mem_range.1 hi⟩
    · exact has_of_mem_from inside hr
  | .text .., _, h, hr => by rw [List.mem_singleton.1 hr]; exact .inr ⟨_, h⟩
  | .comment .., _, h, hr => by rw [List.mem_singleton.1 hr]; exact .inr ⟨_, h⟩
  | .instruction .., _, h, hr => by rw [List.mem_singleton.1 hr]; exact .inr ⟨_, h⟩

theorem has_of_mem_from {r : Ref} : ∀ {ns : List Node} {up : List Nat} {i : Nat}, (x.nodesAt up).drop i = ns →
    r ∈ Node.refsFrom up i ns → x.Has r
  | [], _, _, _, hr => by cases hr
  | n :: ns, up, i, h, hr => by
    obtain ⟨first, behind⟩ := node?_of_drop h
    rcases List.mem_append.1 hr with hr | hr
    · exact has_of_mem first hr
    · exact has_of_mem_from behind hr

end

/-- What is inside a node of the document is listed. -/
theorem refsFrom_subset (x : XmlDocument) : ∀ a : List Nat, Node.refsFrom a 0 (x.nodesAt a) ⊆ x.refs
  | [] => List.subset_cons_self _ _
  | i :: up => by
    intro r hr
    cases h : x.node? (i :: up) with
    | none =>
      rw [nodesAt_eq_nil h] at hr
      cases hr
    | some n =>
      rw [nodesAt_of_node? h] at hr
      have inside : r ∈ n.refs ((0 + i) :: up) := by
        rw [Nat.zero_add, Node.refs_eq]
        exact List.mem_append_right _ hr
      exact refsFrom_subset x up (Node.mem_refsFrom.2 ⟨i, n, h, inside⟩)

/-- **The nodes listed are the nodes that the document has.** -/
theorem mem_refs_iff {r : Ref} : r ∈ x.refs ↔ x.Has r := by
  have whole {a : List Nat} {n : Node} (h : x.node? a = some n) : n.refs a ⊆ x.refs := by
    cases a with
    | nil => cases h
    | cons i up =>
      intro s hs
      rw [← Nat.zero_add i] at hs
      exact refsFrom_subset x up (Node.mem_refsFrom.2 ⟨i, n, h, hs⟩)
  have nodes : (x.nodesAt []).drop 0 = x.nodes := rfl
  constructor
  · intro h
    rcases List.mem_cons.1 h with rfl | h
    · exact .inl rfl
    · exact has_of_mem_from nodes h
  · intro h
    match r with
    | .node a =>
      rcases h with rfl | ⟨n, hn⟩
      · exact List.mem_cons_self
      · exact whole hn (by rw [Node.refs_eq]; exact List.mem_cons_self)
    | .attribute a i =>
      obtain ⟨n, hn, hi⟩ := h
      refine whole hn ?_
      rw [Node.refs_eq]
      exact List.mem_append_left _ (List.mem_cons_of_mem _ (List.mem_map_of_mem (List.mem_range.2 hi)))

/-- Lists of nodes in document order are the same if they have the same members. -/
theorem eq_of_mem_iff {rs ss : List Ref} (hr : rs.Pairwise fun r s => r.compare s = .lt)
    (hs : ss.Pairwise fun r s => r.compare s = .lt) (h : ∀ r, r ∈ rs ↔ r ∈ ss) : rs = ss := by
  have nodup {ts : List Ref} (ht : ts.Pairwise fun r s => r.compare s = .lt) : ts.Nodup := by
    refine ht.imp fun {r s} hlt heq => ?_
    rw [heq, Ref.compare_self] at hlt
    cases hlt
  refine ((List.perm_ext_iff_of_nodup (nodup hr) (nodup hs)).2 h).eq_of_pairwise (fun r s _ _ hrs hsr => ?_) hr hs
  rw [← Ref.swap_compare, hrs] at hsr
  cases hsr

theorem kind_node_ne (a : List Nat) : x.kind (.node a) ≠ .attribute := by
  rw [kind]
  split
  · next n _ => cases n <;> exact nofun
  · exact nofun

theorem mem_attributes_iff {r s : Ref} : s ∈ x.attributes r ↔ x.Has s ∧ s.parent = some r ∧ x.kind s = .attribute := by
  match r, s with
  | .attribute .., .node b => exact iff_of_false nofun fun h => kind_node_ne b h.2.2
  | .attribute .., .attribute .. => exact iff_of_false nofun fun h => nomatch h.2.1
  | .node a, .node b =>
    refine iff_of_false (fun h => ?_) fun h => kind_node_ne b h.2.2
    rw [attributes] at h
    split at h
    · obtain ⟨i, -, hi⟩ := List.mem_map.1 h
      cases hi
    · cases h
  | .node a, .attribute b i =>
    rw [attributes]
    constructor
    · intro h
      split at h
      · next n hn =>
        obtain ⟨j, hj, hab⟩ := List.mem_map.1 h
        cases hab
        exact ⟨⟨n, hn, List.mem_range.1 hj⟩, rfl, rfl⟩
      · cases h
    · rintro ⟨⟨n, hn, hi⟩, hab, -⟩
      cases hab
      rw [hn]
      exact List.mem_map_of_mem (List.mem_range.2 hi)

theorem mem_children_iff {r s : Ref} : s ∈ x.children r ↔ x.Has s ∧ s.parent = some r ∧ x.kind s ≠ .attribute := by
  match r, s with
  | .attribute .., .node [] => exact iff_of_false nofun fun h => nomatch h.2.1
  | .attribute .., .node (_ :: _) => exact iff_of_false nofun fun h => nomatch h.2.1
  | .node a, .node [] =>
    refine iff_of_false (fun h => ?_) fun h => nomatch h.2.1
    obtain ⟨i, -, hi⟩ := List.mem_map.1 h
    cases hi
  | r, .attribute b i =>
    refine iff_of_false (fun h => ?_) fun h => h.2.2 rfl
    match r with
    | .attribute .. => cases h
    | .node a =>
      obtain ⟨j, -, hj⟩ := List.mem_map.1 h
      cases hj
  | .node a, .node (i :: up) =>
    rw [children, List.mem_map]
    constructor
    · rintro ⟨j, hj, hab⟩
      cases hab
      exact ⟨.inr ⟨_, List.getElem?_eq_getElem (List.mem_range.1 hj)⟩, rfl, kind_node_ne _⟩
    · rintro ⟨hhas, hab, -⟩
      cases hab
      obtain ⟨n, hn⟩ := hhas.resolve_left (List.cons_ne_nil i a)
      exact ⟨i, List.mem_range.2 (List.getElem?_eq_some_iff.1 hn).1, rfl⟩

/-- **The attributes of a node** are the attributes in the list that have it as their parent. -/
theorem filter_attributes (x : XmlDocument) (r : Ref) :
    (x.refs.filter fun s => s.parent = some r ∧ x.kind s = .attribute) = x.attributes r := by
  have ordered : (x.attributes r).Pairwise fun s t => s.compare t = .lt := by
    match r with
    | .attribute .. => exact .nil
    | .node a =>
      rw [attributes]
      split
      · exact Ref.pairwise_attributes a _
      · exact .nil
  refine eq_of_mem_iff (x.pairwise_refs.filter _) ordered fun s => ?_
  rw [List.mem_filter, mem_refs_iff, decide_eq_true_eq, mem_attributes_iff]

/-- **The children of a node** are the others. -/
theorem filter_children (x : XmlDocument) (r : Ref) :
    (x.refs.filter fun s => s.parent = some r ∧ x.kind s ≠ .attribute) = x.children r := by
  have ordered : (x.children r).Pairwise fun s t => s.compare t = .lt := by
    match r with
    | .attribute .. => exact .nil
    | .node a =>
      refine List.pairwise_map.2 (List.pairwise_lt_range.imp fun {i j} hij => ?_)
      exact Ref.compareAddresses_beside hij [] [] a
  refine eq_of_mem_iff (x.pairwise_refs.filter _) ordered fun s => ?_
  rw [List.mem_filter, mem_refs_iff, decide_eq_true_eq, mem_children_iff]

/-! ## The numbers of nodes -/

/-- The node has this number in the list of all nodes. -/
def Numbered (x : XmlDocument) (i : Nat) (r : Ref) : Prop := x.refs[i]? = some r

variable {i j : Nat} {r s : Ref}

theorem compare_of_lt (hi : x.Numbered i r) (hj : x.Numbered j s) (h : i < j) : r.compare s = .lt := by
  obtain ⟨inside, rfl⟩ := List.getElem?_eq_some_iff.1 hi
  obtain ⟨inside', rfl⟩ := List.getElem?_eq_some_iff.1 hj
  exact List.pairwise_iff_getElem.1 x.pairwise_refs i j inside inside' h

/-- **Nodes are in the order of their numbers.** -/
theorem compare_numbers (hi : x.Numbered i r) (hj : x.Numbered j s) : Ord.compare i j = r.compare s := by
  rcases Nat.lt_trichotomy i j with h | rfl | h
  · rw [Nat.compare_eq_lt.2 h, compare_of_lt hi hj h]
  · cases hi.symm.trans hj
    rw [Nat.compare_eq_eq.2 rfl, Ref.compare_self]
  · rw [Nat.compare_eq_gt.2 h, ← Ref.swap_compare, compare_of_lt hj hi h]
    rfl

/-- A node has one number. -/
theorem numbered_unique (hi : x.Numbered i r) (hj : x.Numbered j s) : i = j ↔ r = s := by
  constructor
  · rintro rfl
    exact Option.some.inj (hi.symm.trans hj)
  · rintro rfl
    refine Nat.compare_eq_eq.1 ?_
    rw [compare_numbers hi hj, Ref.compare_self]

/-- The parent has the smaller number. -/
theorem lt_of_parent (hi : x.Numbered i r) (hj : x.Numbered j s) (h : r.parent = some s) : j < i := by
  refine Nat.compare_eq_lt.1 ?_
  rw [compare_numbers hj hi, Ref.compare_parent h]

end XmlDocument

end StylesheetReversal.Xml
