import Mathlib.Data.List.Infix
import StylesheetReversal.Proofs.Document.Ascent
import StylesheetReversal.Xml.Document
/-!
# Ancestors and siblings by their addresses

The way up from a node of a document and the nodes on both sides of it can be read off its address: an address without
its first number is that of the parent, and siblings differ in this number.  The walk that describes a place meets
just these (`XmlDocument.surroundings_eq`, `XmlDocument.siblings_eq`).
-/
namespace StylesheetReversal.Xml

/-- A node and all nodes above it, up to the root of the document. -/
def Ref.lineage : Ref → List Ref
  | .node address => address.tails.map .node
  | .attribute address i => .attribute address i :: address.tails.map .node

theorem Ref.lineage_of_parent {n p : Ref} (h : n.parent = some p) : n.lineage = n :: p.lineage := by
  unfold parent at h
  split at h <;> cases h <;> rfl

namespace XmlDocument

variable {x : XmlDocument}

/-- The siblings before a node, from the nearest on. -/
def preceding : Ref → List Ref
  | .node (i :: up) => (List.range i).reverse.map fun j => .node (j :: up)
  | _ => []

/-- The siblings after a node, from the nearest on. -/
def following (x : XmlDocument) : Ref → List Ref
  | .node (i :: up) => (List.range' (i + 1) ((x.nodesAt up).length - (i + 1))).map fun j => .node (j :: up)
  | _ => []

/-- The elements at or above `source` that a description of its place mentions: those below `boundary`, or below the
root if the boundary is not above, that are no wrappers. -/
def described (x : XmlDocument) (wrapper : Option String → Bool) (source boundary : Ref) : List Ref :=
  (source.lineage.takeWhile fun n => n ≠ boundary ∧ x.kind n ≠ .root).filter fun n =>
    x.kind n = .element ∧ wrapper (x.uri n) = false

theorem climb_eq (x : XmlDocument) (boundary : Ref) : ∀ {steps : Nat} {n : Ref}, n.depth < steps →
    x.document.climb boundary steps n = n.lineage.takeWhile fun m => m ≠ boundary ∧ x.kind m ≠ .root
  | 0, _, h => by cases h
  | steps + 1, n, h => by
    rw [Document.climb]
    cases hp : n.parent with
    | none =>
      have root : n = .node [] := by
        unfold Ref.parent at hp
        split at hp <;> first | rfl | cases hp
      have kind : x.kind n = .root := by rw [root]; rfl
      have first : n.lineage = [n] := by rw [root]; rfl
      rw [if_pos (.inr kind), first, List.takeWhile_cons_of_neg (by simp [kind])]
    | some p =>
      have shallower := Ref.depth_parent hp
      have above : x.document.climb boundary steps p = p.lineage.takeWhile fun m => m ≠ boundary ∧ x.kind m ≠ .root :=
        climb_eq x boundary (by omega)
      have further : x.document.parent n = some p := hp
      rw [Ref.lineage_of_parent hp, further]
      split
      · next stop =>
        rw [List.takeWhile_cons_of_neg]
        rintro hgo
        exact stop.elim (of_decide_eq_true hgo).1 (of_decide_eq_true hgo).2
      · next go =>
        have kept : decide (n ≠ boundary ∧ x.kind n ≠ .root) = true := decide_eq_true (not_or.1 go)
        dsimp only
        rw [List.takeWhile_cons, if_pos kept, above]

/-- The walk up describes the elements that are to be described. -/
theorem surroundings_eq (x : XmlDocument) (wrapper : Option String → Bool) (source boundary : Ref) :
    x.document.surroundings wrapper source boundary = x.document.nested (x.described wrapper source boundary) := by
  rw [Document.surroundings_eq_nested]
  unfold Document.trail described
  have steps : source.depth < x.document.rank source + 1 := Nat.lt_succ_self _
  have same : ∀ n, x.document.isDescribed wrapper n = decide (x.kind n = .element ∧ wrapper (x.uri n) = false) := by
    intro n
    rw [Document.isDescribed, Bool.decide_and]
    change (decide (x.kind n = .element) && !wrapper (x.uri n)) = _
    cases wrapper (x.uri n) <;> simp
  rw [climb_eq x boundary steps, List.filter_congr fun n _ => same n]

/-- An element is one of the nodes right below its parent. -/
theorem element_address {n : Ref} (h : x.kind n = .element) : ∃ i up, n = .node (i :: up) ∧ i < (x.nodesAt up).length := by
  match n with
  | .attribute .. => cases h
  | .node [] => cases h
  | .node (i :: up) =>
    refine ⟨i, up, rfl, ?_⟩
    by_contra hi
    have nothing : x.node? (i :: up) = none := List.getElem?_eq_none (Nat.le_of_not_lt hi)
    rw [kind, nothing] at h
    cases h

/-- The nodes right below the parent are those before the node, the node and those after it. -/
theorem children_eq {i : Nat} {up : List Nat} (hi : i < (x.nodesAt up).length) : x.children (.node up) =
    (preceding (.node (i :: up))).reverse ++ .node (i :: up) :: x.following (.node (i :: up)) := by
  have parts : List.range (x.nodesAt up).length =
      List.range i ++ i :: List.range' (i + 1) ((x.nodesAt up).length - (i + 1)) := by
    obtain ⟨k, hk⟩ : ∃ k, (x.nodesAt up).length = i + (k + 1) := ⟨(x.nodesAt up).length - (i + 1), by omega⟩
    have rest : i + (k + 1) - (i + 1) = k := by omega
    rw [hk, rest, List.range_eq_range', ← List.range'_append_1, Nat.zero_add, List.range'_succ, List.range_eq_range']
  simp only [XmlDocument.children, preceding, following, parts, List.map_append, List.map_cons, List.map_reverse,
    List.reverse_reverse]

/-- The sides of an element are the nodes before and after it. -/
theorem sides_eq {n : Ref} (h : x.kind n = .element) :
    x.document.earlier n = (preceding n).reverse ∧ x.document.later n = x.following n := by
  obtain ⟨i, up, rfl, hi⟩ := element_address h
  have level : x.document.level (.node (i :: up)) =
      (preceding (.node (i :: up))).reverse ++ .node (i :: up) :: x.following (.node (i :: up)) := children_eq hi
  refine Document.sides_of_level_eq level fun hmem => ?_
  obtain ⟨j, hj, heq⟩ := List.mem_map.1 (List.mem_reverse.1 hmem)
  rw [List.mem_reverse, List.mem_range] at hj
  cases heq
  exact absurd hj (Nat.lt_irrefl _)

/-- The siblings of an element are the nodes before and after it. -/
theorem siblings_eq {n : Ref} (h : x.kind n = .element) : x.document.siblings n = (preceding n, x.following n) := by
  obtain ⟨earlier, later⟩ := sides_eq h
  rw [Document.siblings_eq_sides, earlier, later, List.reverse_reverse]

end XmlDocument

end StylesheetReversal.Xml
