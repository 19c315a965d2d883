import Mathlib.Data.List.Sort
import Mathlib.Order.RelIso.Basic
import StylesheetReversal.Proofs.Xml.Order
/-!
# Numbers of nodes

All nodes of a document can be numbered in document order, attributes too, and whatever is asked about the order of nodes
has the answer that it has for their numbers (`XmlDocument.document_order`).  Numbers for the nodes that are no attributes
suffice for that, if they increase in document order (`XmlDocument.Increasing`): an attribute stands behind its element,
in front of the next node that has a number (`Ref.compareBy`).
-/
namespace StylesheetReversal.Xml

namespace Ref

/-- The order of nodes, told by numbers for all that are no attributes. -/
def compareBy (number : List Nat → Nat) : Ref → Ref → Ordering
  | .node a, .node b => Ord.compare (number a) (number b)
  | .attribute a i, .attribute b j => (Ord.compare (number a) (number b)).then (Ord.compare i j)
  | .node a, .attribute b _ => if number a = number b then .lt else Ord.compare (number a) (number b)
  | .attribute a _, .node b => if number a = number b then .gt else Ord.compare (number a) (number b)

/-- Whether two nodes are the same, told by these numbers. -/
def equalBy (number : List Nat → Nat) : Ref → Ref → Bool
  | .node a, .node b => number a == number b
  | .attribute a i, .attribute b j => number a == number b && i == j
  | _, _ => false

/-- What a node is hashed by. -/
def fingerprintBy (number : List Nat → Nat) : Ref → List Nat
  | .node a => [0, number a]
  | .attribute a i => [1, number a, i]

theorem lt_iff {r s : Ref} : r < s ↔ r.compare s = .lt := Iff.rfl

theorem fingerprint_injective {r s : Ref} : r.fingerprint = s.fingerprint ↔ r = s := by
  constructor
  · intro h
    cases r <;> cases s <;> simp_all [fingerprint]
  · exact congrArg fingerprint

end Ref

namespace XmlDocument

variable {x : XmlDocument} {number : List Nat → Nat} {r s : Ref} {a b : List Nat} {i j : Nat}

/-! ## Numbers in the list of all nodes -/

theorem has_iff_numbered : x.Has r ↔ ∃ i, x.Numbered i r := mem_refs_iff.symm.trans List.mem_iff_getElem?

/-- The number of a node in document order. -/
def numberOf (x : XmlDocument) (r : Ref) : Nat := x.refs.idxOf r

theorem numbered_numberOf (h : x.Has r) : x.Numbered (x.numberOf r) r := List.getElem?_idxOf (mem_refs_iff.2 h)

theorem compare_numberOf (hr : x.Has r) (hs : x.Has s) : r.compare s = Ord.compare (x.numberOf r) (x.numberOf s) :=
  (compare_numbers (numbered_numberOf hr) (numbered_numberOf hs)).symm

/-- **The order of nodes is a strict total one.** -/
theorem isStrictTotalOrder (x : XmlDocument) : IsStrictTotalOrder {r // x.Has r} fun r s => r.val < s.val := by
  let numbers : (fun r s : {r // x.Has r} => r.val < s.val) ↪r ((· < ·) : Nat → Nat → Prop) :=
    { toFun := fun r => x.numberOf r.val
      inj' := fun r s h =>
        Subtype.ext ((numbered_unique (numbered_numberOf r.property) (numbered_numberOf s.property)).1 h)
      map_rel_iff' := fun {r s} => by
        rw [Ref.lt_iff, compare_numberOf r.property s.property]
        exact Nat.compare_eq_lt.symm }
  exact numbers.isStrictTotalOrder

/-- Nodes are sorted by sorting their numbers. -/
theorem map_numberOf_mergeSort {rs : List Ref} (h : ∀ r ∈ rs, x.Has r) :
    (rs.mergeSort fun r s => r.compare s != .gt).map x.numberOf = (rs.map x.numberOf).mergeSort (· ≤ ·) := by
  refine List.map_mergeSort fun r hr s hs => ?_
  rw [compare_numberOf (h r hr) (h s hs), Bool.eq_iff_iff, bne_iff_ne, decide_eq_true_eq]
  exact Nat.compare_ne_gt

/-! ## Numbers for all that are no attributes -/

/-- The addresses of the nodes that are no attributes, in document order. -/
def addresses (x : XmlDocument) : List (List Nat) :=
  x.refs.filterMap fun
    | .node a => some a
    | .attribute .. => none

/-- The numbers increase in document order. -/
def Increasing (x : XmlDocument) (number : List Nat → Nat) : Prop := (x.addresses.map number).Pairwise (· < ·)

theorem Increasing.lt (h : x.Increasing number) (ha : x.Numbered i (.node a)) (hb : x.Numbered j (.node b)) (hij : i < j) :
    number a < number b := by
  have pairwise := List.pairwise_filterMap.1 (List.pairwise_map.1 h)
  obtain ⟨hi, hia⟩ := List.getElem?_eq_some_iff.1 ha
  obtain ⟨hj, hjb⟩ := List.getElem?_eq_some_iff.1 hb
  refine List.pairwise_iff_getElem.1 pairwise i j hi hj hij a ?_ b ?_
  · rw [hia]
  · rw [hjb]

theorem Increasing.compare_eq (h : x.Increasing number) (ha : x.Has (.node a)) (hb : x.Has (.node b)) :
    Ord.compare (number a) (number b) = Ref.compareAddresses a b := by
  have here := numbered_numberOf ha
  have there := numbered_numberOf hb
  change _ = Ref.compare (.node a) (.node b)
  rw [compare_numberOf ha hb]
  rcases Nat.lt_trichotomy (x.numberOf (.node a)) (x.numberOf (.node b)) with hlt | heq | hgt
  · rw [Nat.compare_eq_lt.2 hlt, Nat.compare_eq_lt.2 (h.lt here there hlt)]
  · cases (numbered_unique here there).1 heq
    rw [Nat.compare_eq_eq.2 rfl, Nat.compare_eq_eq.2 rfl]
  · rw [Nat.compare_eq_gt.2 hgt, Nat.compare_eq_gt.2 (h.lt there here hgt)]

theorem Increasing.eq_iff (h : x.Increasing number) (ha : x.Has (.node a)) (hb : x.Has (.node b)) :
    number a = number b ↔ a = b := by
  rw [← Nat.compare_eq_eq, h.compare_eq ha hb]
  have same := (numbered_unique (numbered_numberOf ha) (numbered_numberOf hb))
  have order := compare_numberOf ha hb
  change Ref.compareAddresses a b = _ at order
  rw [order, Nat.compare_eq_eq, same, Ref.node.injEq]

theorem has_node_of_attribute (h : x.Has (.attribute a i)) : x.Has (.node a) := by
  obtain ⟨n, hn, -⟩ := h
  exact .inr ⟨n, hn⟩

/-- **The order told by such numbers** is document order. -/
theorem Increasing.compareBy_eq (h : x.Increasing number) (hr : x.Has r) (hs : x.Has s) :
    r.compareBy number s = r.compare s := by
  match r, s with
  | .node a, .node b => exact h.compare_eq hr hs
  | .attribute a i, .attribute b j =>
    rw [Ref.compareBy, h.compare_eq (has_node_of_attribute hr) (has_node_of_attribute hs)]
    rfl
  | .node a, .attribute b j =>
    rw [Ref.compareBy, h.compare_eq hr (has_node_of_attribute hs)]
    exact if_congr (h.eq_iff hr (has_node_of_attribute hs)) rfl rfl
  | .attribute a i, .node b =>
    rw [Ref.compareBy, h.compare_eq (has_node_of_attribute hr) hs]
    exact if_congr (h.eq_iff (has_node_of_attribute hr) hs) rfl rfl

theorem Increasing.equalBy_iff (h : x.Increasing number) (hr : x.Has r) (hs : x.Has s) :
    r.equalBy number s = true ↔ r = s := by
  match r, s with
  | .node a, .node b => rw [Ref.equalBy, beq_iff_eq, h.eq_iff hr hs, Ref.node.injEq]
  | .attribute a i, .attribute b j =>
    rw [Ref.equalBy, Bool.and_eq_true, beq_iff_eq, beq_iff_eq,
      h.eq_iff (has_node_of_attribute hr) (has_node_of_attribute hs), Ref.attribute.injEq]
  | .node a, .attribute b j => exact iff_of_false nofun nofun
  | .attribute a i, .node b => exact iff_of_false nofun nofun

theorem fingerprintBy_eq_iff : r.fingerprintBy number = s.fingerprintBy number ↔ r.equalBy number s = true := by
  cases r <;> cases s <;> simp [Ref.fingerprintBy, Ref.equalBy]

/-! ## Document order -/

/-- All that is asked about the order of two nodes has the answer that it has for their numbers, and what is asked about the
sameness of nodes only says yes of a node and itself. -/
structure OrderedLike (number : List Nat → Nat) (i j : Nat) (r s : Ref) : Prop where
  compare : r.compare s = Ord.compare i j
  compareBy : r.compareBy number s = Ord.compare i j
  less : r < s ↔ i < j
  eq : r = s ↔ r.compare s = .eq
  equalBy : r.equalBy number s = true ↔ r = s
  fingerprint : r.fingerprint = s.fingerprint ↔ r = s
  fingerprintBy : r.fingerprintBy number = s.fingerprintBy number ↔ r = s

/-- **The order of nodes is document order**, in which each node has one number, and sorting nodes is sorting numbers. -/
theorem document_order (x : XmlDocument) (h : x.Increasing number) :
    (∀ r, x.Has r ↔ ∃ i, x.Numbered i r) ∧
    (∀ i j r s, x.Numbered i r → x.Numbered j s → OrderedLike number i j r s) ∧
    IsStrictTotalOrder {r // x.Has r} (fun r s => r.val < s.val) ∧
    ∀ rs : List Ref, (∀ r ∈ rs, x.Has r) → (rs.mergeSort fun r s => r.compare s != .gt).Perm rs ∧
      ∃ numbers, numbers.Pairwise (· ≤ ·) ∧
        List.Forall₂ x.Numbered numbers (rs.mergeSort fun r s => r.compare s != .gt) := by
  refine ⟨fun r => has_iff_numbered, fun i j r s hi hj => ?_, x.isStrictTotalOrder, fun rs hrs => ?_⟩
  · have hr : x.Has r := has_iff_numbered.2 ⟨i, hi⟩
    have hs : x.Has s := has_iff_numbered.2 ⟨j, hj⟩
    have order := (compare_numbers hi hj).symm
    exact {
      compare := order
      compareBy := (h.compareBy_eq hr hs).trans order
      less := by rw [Ref.lt_iff, order, Nat.compare_eq_lt]
      eq := by rw [order, Nat.compare_eq_eq, numbered_unique hi hj]
      equalBy := h.equalBy_iff hr hs
      fingerprint := Ref.fingerprint_injective
      fingerprintBy := fingerprintBy_eq_iff.trans (h.equalBy_iff hr hs) }
  · have perm := List.mergeSort_perm rs fun r s => r.compare s != .gt
    refine ⟨perm, (rs.mergeSort fun r s => r.compare s != .gt).map x.numberOf, ?_, ?_⟩
    · rw [map_numberOf_mergeSort hrs]
      exact List.pairwise_mergeSort' (· ≤ ·) _
    · rw [List.forall₂_map_left_iff, List.forall₂_same]
      exact fun r hr => numbered_numberOf (hrs r (perm.mem_iff.1 hr))

/-- An element with an attribute and a text, no two nodes of which are at the same depth. -/
def chain : XmlDocument := ⟨[], [.element 0 ⟨"a", none, [], [⟨"k", none, "1"⟩]⟩ [.text 3 "t"]]⟩

theorem document_order_chain :
    chain.Increasing List.length ∧
    OrderedLike List.length 2 3 (.attribute ([0]) 0) (.node [0, 0]) ∧
    ∃ numbers, numbers.Pairwise (· ≤ ·) ∧ List.Forall₂ chain.Numbered numbers
      ([.node [0, 0], .attribute ([0]) 0, .node [0]].mergeSort fun r s => r.compare s != .gt) := by
  have increasing : chain.Increasing List.length := by
    rw [Increasing]
    decide
  obtain ⟨-, ordered, -, sorted⟩ := document_order chain increasing
  have listed : ∀ r ∈ [Ref.node [0, 0], .attribute ([0]) 0, .node [0]], chain.Has r := by
    intro r hr
    rw [← mem_refs_iff]
    revert r
    decide
  exact ⟨increasing, ordered 2 3 _ _ rfl rfl, (sorted _ listed).2⟩

end XmlDocument

end StylesheetReversal.Xml
