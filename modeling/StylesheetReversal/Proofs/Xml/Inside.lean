import StylesheetReversal.Proofs.Xml.Kinship
import StylesheetReversal.Proofs.Xml.Order
/-!
# What is inside a node

The elements inside a node, as they are collected, are those among all nodes of the document that have it above
themselves, in document order (`XmlDocument.elementsIn_eq`).
-/
namespace StylesheetReversal.Xml

/-- Whether `n` stands somewhere below `above`. -/
def Ref.isBelow (n above : Ref) : Bool := decide (above ∈ n.lineage.tail)

namespace Ref

variable {a b up : List Nat} {i : Nat}

theorem isBelow_node : (node (i :: up)).isBelow (node a) = true ↔ a <:+ up := by
  simp [isBelow, lineage]

theorem isBelow_attribute : (Ref.attribute b i).isBelow (node a) = true ↔ a <:+ b := by
  simp [isBelow, lineage]

/-- What is below a node is below its parent. -/
theorem isBelow_up {n : Ref} (h : n.isBelow (node (i :: up)) = true) : n.isBelow (node up) = true := by
  have shorter : up <:+ i :: up := List.suffix_cons i up
  match n with
  | .attribute .. => exact isBelow_attribute.2 (shorter.trans (isBelow_attribute.1 h))
  | .node [] => exact absurd h (by simp [isBelow, lineage])
  | .node (_ :: _) => exact isBelow_node.2 (shorter.trans (isBelow_node.1 h))

/-- A node below one child of a node is below no other child of it. -/
theorem isBelow_child {k : Nat} : (node (b ++ k :: up)).isBelow (node (i :: up)) = true ↔ b ≠ [] ∧ k = i := by
  cases b with
  | nil =>
    rw [List.nil_append, isBelow_node]
    simp only [ne_eq, not_true_eq_false, false_and, iff_false]
    intro h
    have := h.length_le
    rw [List.length_cons] at this
    omega
  | cons c b =>
    rw [List.cons_append, isBelow_node]
    have suffix : k :: up <:+ b ++ k :: up := List.suffix_append b (k :: up)
    constructor
    · intro h
      have same := (List.suffix_of_suffix_length_le h suffix (by simp)).eq_of_length (by simp)
      exact ⟨nofun, (List.cons.inj same).1.symm⟩
    · rintro ⟨-, rfl⟩
      exact suffix

end Ref

namespace Node

mutual

theorem mem_elements {r : Ref} {a : List Nat} : ∀ {n : Node}, r ∈ n.elements a → ∃ b, r = .node (b ++ a)
  | .element _ _ cs, h => by
    rw [elements] at h
    rcases List.mem_cons.1 h with rfl | h
    · exact ⟨[], rfl⟩
    · obtain ⟨b, k, -, -, rfl⟩ := mem_elementsFrom h
      exact ⟨b ++ [k], by simp⟩
  | .text .., h => by cases h
  | .comment .., h => by cases h
  | .instruction .., h => by cases h

theorem mem_elementsFrom {r : Ref} {up : List Nat} : ∀ {i : Nat} {ns : List Node}, r ∈ elementsFrom up i ns →
    ∃ b k, i ≤ k ∧ k < i + ns.length ∧ r = .node (b ++ k :: up)
  | _, [], h => by cases h
  | i, n :: ns, h => by
    rw [elementsFrom] at h
    rcases List.mem_append.1 h with h | h
    · obtain ⟨b, rfl⟩ := mem_elements h
      exact ⟨b, i, Nat.le_refl i, by simp, rfl⟩
    · obtain ⟨b, k, hi, hk, rfl⟩ := mem_elementsFrom h
      exact ⟨b, k, by omega, by simp; omega, rfl⟩

end

theorem elementsFrom_append {up : List Nat} : ∀ {i : Nat} {ms ns : List Node},
    elementsFrom up i (ms ++ ns) = elementsFrom up i ms ++ elementsFrom up (i + ms.length) ns
  | _, [], _ => rfl
  | i, m :: ms, ns => by
    rw [List.cons_append, elementsFrom, elementsFrom, elementsFrom_append, List.append_assoc, List.length_cons,
      Nat.add_assoc, Nat.add_comm 1]

/-- What is inside a node is below it, and the node is not. -/
theorem filter_elements {a : List Nat} (n : Node) :
    (n.elements a).filter (fun r => r.isBelow (.node a)) = elementsFrom a 0 n.children := by
  cases n with
  | element start tag cs =>
    have itself : ¬ (Ref.node a).isBelow (.node a) = true := by
      cases a with
      | nil => simp [Ref.isBelow, Ref.lineage]
      | cons i up =>
        rw [Ref.isBelow_node]
        intro h
        exact absurd h.length_le (by simp)
    have inside : ∀ r ∈ elementsFrom a 0 cs, r.isBelow (.node a) = true := by
      intro r hr
      obtain ⟨b, k, -, -, rfl⟩ := mem_elementsFrom hr
      cases b with
      | nil => exact Ref.isBelow_node.2 (List.suffix_refl a)
      | cons c b => exact Ref.isBelow_node.2 ((List.suffix_cons k a).trans (List.suffix_append b (k :: a)))
    rw [elements, List.filter_cons, if_neg itself, List.filter_eq_self.2 inside]
    rfl
  | text => rfl
  | comment => rfl
  | instruction => rfl

end Node

namespace XmlDocument

variable {x : XmlDocument}

mutual

/-- Among a node and all nodes inside it, the elements are those that are collected. -/
theorem filter_refs {a : List Nat} : ∀ {n : Node}, x.node? a = some n →
    (n.refs a).filter (fun r => x.kind r = .element) = n.elements a
  | .element start tag cs, h => by
    have attributes : ((List.range tag.attributes.length).map (Ref.attribute a)).filter
        (fun r => decide (x.kind r = .element)) = [] := by
      rw [List.filter_eq_nil_iff]
      intro r hr
      obtain ⟨i, -, rfl⟩ := List.mem_map.1 hr
      simp [kind]
    have inside : x.nodesAt a = cs := nodesAt_of_node? h
    have itself : decide (x.kind (.node a) = .element) = true := by simp [kind, h, Node.kind]
    have children : (Node.refsFrom a 0 cs).filter (fun r => x.kind r = .element) = Node.elementsFrom a 0 cs :=
      filter_refsFrom inside
    rw [Node.refs, Node.elements, List.filter_append, children, List.filter_cons, if_pos itself, attributes]
    rfl
  | .text .., h => by simp [Node.refs, Node.elements, kind, h, Node.kind]
  | .comment .., h => by simp [Node.refs, Node.elements, kind, h, Node.kind]
  | .instruction .., h => by simp [Node.refs, Node.elements, kind, h, Node.kind]

theorem filter_refsFrom {up : List Nat} : ∀ {i : Nat} {ns : List Node}, (x.nodesAt up).drop i = ns →
    (Node.refsFrom up i ns).filter (fun r => x.kind r = .element) = Node.elementsFrom up i ns
  | _, [], _ => rfl
  | i, n :: ns, h => by
    obtain ⟨first, behind⟩ := node?_of_drop h
    rw [Node.refsFrom, Node.elementsFrom, List.filter_append, filter_refs first, filter_refsFrom behind]

end

/-- Among the children of a node and all nodes inside them, one child has those below it that are inside it. -/
theorem filter_isBelow {up : List Nat} {i : Nat} {ns : List Node} (h : x.nodesAt up = ns) :
    (Node.elementsFrom up 0 ns).filter (fun r => r.isBelow (.node (i :: up))) =
      Node.elementsFrom (i :: up) 0 (x.nodesAt (i :: up)) := by
  -- what is below another child is not below this one
  have others : ∀ {j : Nat} {ms : List Node}, i < j ∨ j + ms.length ≤ i →
      (Node.elementsFrom up j ms).filter (fun r => r.isBelow (.node (i :: up))) = [] := by
    intro j ms hj
    rw [List.filter_eq_nil_iff]
    intro r hr hbelow
    obtain ⟨b, k, hjk, hk, rfl⟩ := Node.mem_elementsFrom hr
    have := (Ref.isBelow_child.1 hbelow).2
    omega
  by_cases hi : i < ns.length
  · have here : x.node? (i :: up) = some ns[i] := by
      rw [node?, h, List.getElem?_eq_getElem hi]
    have children : x.nodesAt (i :: up) = ns[i].children := nodesAt_of_node? here
    have split : Node.elementsFrom up 0 ns = Node.elementsFrom up 0 (ns.take i) ++
        (ns[i].elements (i :: up) ++ Node.elementsFrom up (i + 1) (ns.drop (i + 1))) := by
      have length : 0 + (ns.take i).length = i := by
        rw [List.length_take]
        omega
      conv => lhs; rw [← List.take_append_drop i ns, Node.elementsFrom_append, length, ← List.getElem_cons_drop hi]
      rw [Node.elementsFrom]
    have before : 0 + (ns.take i).length ≤ i := by
      rw [List.length_take]
      omega
    rw [split, List.filter_append, List.filter_append, others (.inr before), others (.inl (Nat.lt_succ_self i)),
      Node.filter_elements, children, List.nil_append, List.append_nil]
  · have nothing : x.nodesAt (i :: up) = [] := by
      rw [nodesAt, h, List.getElem?_eq_none (Nat.le_of_not_lt hi)]
    rw [nothing, others (.inr (by omega))]
    rfl

/-- **The elements inside a node** are the elements of the document that stand below it. -/
theorem elementsIn_eq : ∀ t : Ref, x.elementsIn t = x.refs.filter fun n => n.isBelow t && x.kind n = .element
  | .attribute a i => by
    have nothing : ∀ n : Ref, n.isBelow (.attribute a i) = false := by
      intro n
      cases n <;> simp [Ref.isBelow, Ref.lineage, ← List.map_tail]
    simp [elementsIn, nothing]
  | .node a => by
    rw [elementsIn]
    induction a with
    | nil =>
      have elements : (Node.refsFrom [] 0 x.nodes).filter (fun r => x.kind r = .element) = Node.elementsFrom [] 0 x.nodes :=
        filter_refsFrom rfl
      have root : ¬ ((Ref.node []).isBelow (.node []) && decide (x.kind (.node []) = .element)) = true := by
        simp [Ref.isBelow, Ref.lineage]
      have inside : ∀ r ∈ Node.elementsFrom [] 0 x.nodes, r.isBelow (.node []) = true := by
        intro r hr
        obtain ⟨b, k, -, -, rfl⟩ := Node.mem_elementsFrom hr
        cases b <;> exact Ref.isBelow_node.2 List.nil_suffix
      rw [refs, List.filter_cons, if_neg root, ← List.filter_filter, elements, List.filter_eq_self.2 inside]
      rfl
    | cons i up ih =>
      rw [← filter_isBelow rfl, ih, List.filter_filter]
      refine List.filter_congr fun r _ => ?_
      cases hr : r.isBelow (.node (i :: up)) with
      | false => rfl
      | true => rw [Ref.isBelow_up hr, Bool.true_and, Bool.true_and]

end XmlDocument

end StylesheetReversal.Xml
