import Mathlib.Data.List.Count
import Mathlib.Data.List.Perm.Basic
import Mathlib.Logic.Relation
import StylesheetReversal.Proofs.Draft
/-!
# Drafts that are one tree

Nothing about a draft keeps its elements from being linked twice, nowhere or in a circle.  Writing an element visits it
and then what is linked below it (`Draft.Visits`), and the numbers met on the way tell all three apart: a draft whose
root visits the elements in the order of their numbers is one tree (`Draft.Visits.isTree`).
-/
namespace StylesheetReversal.Draft

open StylesheetReversal.Xml

/-- The numbers of the elements right below an element. -/
def childrenOf (d : Draft) (i : Nat) : List Nat := ((d.entry? i).map Entry.children).getD []

/-- The children of all elements, list by list. -/
def links (d : Draft) : List Nat := d.entries.toList.flatMap Entry.children

/-- There is a way down from one element to another. -/
def Reaches (d : Draft) : Nat → Nat → Prop := Relation.ReflTransGen fun i j => j ∈ d.childrenOf i

mutual

/-- Writing the element of a number visits these numbers, one after another, and comes to an end with this element
written. -/
inductive Visits (d : Draft) : Nat → List Nat → Element → Prop
  | entry {i : Nat} {e : Entry} {vs : List Nat} {cs : List Element} :
      d.entry? i = some e → VisitsAll d e.children vs cs → Visits d i (i :: vs) (.mk e.name e.attributes cs)

inductive VisitsAll (d : Draft) : List Nat → List Nat → List Element → Prop
  | nil : VisitsAll d [] [] []
  | cons {i : Nat} {is vs ws : List Nat} {c : Element} {cs : List Element} :
      Visits d i vs c → VisitsAll d is ws cs → VisitsAll d (i :: is) (vs ++ ws) (c :: cs)

end

variable {d : Draft}

theorem childrenOf_eq {i : Nat} {e : Entry} (h : d.entry? i = some e) : d.childrenOf i = e.children := by
  rw [childrenOf, h]
  rfl

theorem links_eq (d : Draft) : d.links = (List.range d.size).flatMap d.childrenOf := by
  have children : d.entries.toList.map Entry.children = (List.range d.size).map d.childrenOf := by
    refine List.ext_getElem (by simp [size]) fun i hi _ => ?_
    have inside : i < d.entries.size := by simpa using hi
    simp [childrenOf, entry?, inside]
  rw [links, List.flatMap_def, children, ← List.flatMap_def]

/-! ## What is visited -/

mutual

/-- What is visited is the element itself and, once for every link, what is linked below something visited. -/
theorem Visits.perm : ∀ {i : Nat} {vs : List Nat} {c : Element}, d.Visits i vs c → vs.Perm (i :: vs.flatMap d.childrenOf)
  | _, _, _, .entry he hchildren => by
    rw [List.flatMap_cons, childrenOf_eq he]
    exact hchildren.perm.cons _

theorem VisitsAll.perm : ∀ {is vs : List Nat} {cs : List Element}, d.VisitsAll is vs cs →
    vs.Perm (is ++ vs.flatMap d.childrenOf)
  | _, _, _, .nil => .nil
  | _, _, _, @VisitsAll.cons _ i is vs ws _ _ hfirst hrest => by
    have both := hfirst.perm.append hrest.perm
    have swap : (vs.flatMap d.childrenOf ++ (is ++ ws.flatMap d.childrenOf)).Perm
        (is ++ (vs.flatMap d.childrenOf ++ ws.flatMap d.childrenOf)) := by
      rw [← List.append_assoc, ← List.append_assoc]
      exact List.perm_append_comm.append_right _
    rw [List.flatMap_append, List.cons_append]
    exact both.trans (swap.cons i)

end

theorem VisitsAll.subset {is vs : List Nat} {cs : List Element} (h : d.VisitsAll is vs cs) : is ⊆ vs :=
  fun _ hi => h.perm.mem_iff.2 (List.mem_append_left _ hi)

mutual

theorem Visits.reaches : ∀ {i : Nat} {vs : List Nat} {c : Element}, d.Visits i vs c → ∀ v ∈ vs, d.Reaches i v
  | i, _, _, .entry he hchildren => by
    intro v hv
    rcases List.mem_cons.1 hv with rfl | hv
    · exact .refl
    · obtain ⟨j, hj, hreaches⟩ := hchildren.reaches v hv
      refine .head ?_ hreaches
      rw [childrenOf_eq he]
      exact hj

theorem VisitsAll.reaches : ∀ {is vs : List Nat} {cs : List Element}, d.VisitsAll is vs cs →
    ∀ v ∈ vs, ∃ j ∈ is, d.Reaches j v
  | _, _, _, .nil => nofun
  | _, _, _, .cons hfirst hrest => by
    intro v hv
    rcases List.mem_append.1 hv with hv | hv
    · exact ⟨_, List.mem_cons_self, hfirst.reaches v hv⟩
    · obtain ⟨j, hj, hreaches⟩ := hrest.reaches v hv
      exact ⟨j, List.mem_cons_of_mem _ hj, hreaches⟩

end

/-- **Just what can be reached is visited.** -/
theorem Visits.mem_iff {i v : Nat} {vs : List Nat} {c : Element} (h : d.Visits i vs c) : v ∈ vs ↔ d.Reaches i v := by
  refine ⟨h.reaches v, fun hreaches => ?_⟩
  induction hreaches with
  | refl => exact h.perm.mem_iff.2 List.mem_cons_self
  | @tail j k _ hlink ih => exact h.perm.mem_iff.2 (List.mem_cons_of_mem _ (List.mem_flatMap.2 ⟨j, ih, hlink⟩))

theorem VisitsAll.visits {is vs : List Nat} {cs : List Element} : d.VisitsAll is vs cs → ∀ i ∈ is,
    ∃ ws c, d.Visits i ws c ∧ ws ⊆ vs
  | .nil => nofun
  | .cons hfirst hrest => by
    intro i hi
    rcases List.mem_cons.1 hi with rfl | hi
    · exact ⟨_, _, hfirst, List.subset_append_left _ _⟩
    · obtain ⟨ws, c, hvisits, hws⟩ := hrest.visits i hi
      exact ⟨ws, c, hvisits, fun v hv => List.mem_append_right _ (hws hv)⟩

/-- If nothing is visited twice, then nothing can be reached from two of the elements. -/
theorem VisitsAll.apart {is vs : List Nat} {cs : List Element} : d.VisitsAll is vs cs → vs.Nodup →
    is.Pairwise fun i j => ∀ k, d.Reaches i k → ¬ d.Reaches j k
  | .nil, _ => .nil
  | .cons hfirst hrest, hnodup => by
    obtain ⟨-, hws, hdisjoint⟩ := List.nodup_append.1 hnodup
    refine .cons (fun j hj k hik hjk => ?_) (hrest.apart hws)
    obtain ⟨us, c, hvisits, hus⟩ := hrest.visits j hj
    exact hdisjoint k (hfirst.mem_iff.2 hik) k (hus (hvisits.mem_iff.2 hjk)) rfl

mutual

/-- If the numbers get larger from one visit to the next, they are larger below an element than its own. -/
theorem Visits.ordered : ∀ {i : Nat} {vs : List Nat} {c : Element}, d.Visits i vs c → vs.Pairwise (· < ·) →
    ∀ v ∈ vs, ∀ k ∈ d.childrenOf v, v < k
  | i, _, _, .entry he hchildren, hvs => by
    obtain ⟨hi, hrest⟩ := List.pairwise_cons.1 hvs
    intro v hv k hk
    rcases List.mem_cons.1 hv with rfl | hv
    · rw [childrenOf_eq he] at hk
      exact hi k (hchildren.subset hk)
    · exact hchildren.ordered hrest v hv k hk

theorem VisitsAll.ordered : ∀ {is vs : List Nat} {cs : List Element}, d.VisitsAll is vs cs → vs.Pairwise (· < ·) →
    ∀ v ∈ vs, ∀ k ∈ d.childrenOf v, v < k
  | _, _, _, .nil, _ => nofun
  | _, _, _, .cons hfirst hrest, hvs => by
    obtain ⟨hone, hothers, -⟩ := List.pairwise_append.1 hvs
    intro v hv
    rcases List.mem_append.1 hv with hv | hv
    · exact hfirst.ordered hone v hv
    · exact hrest.ordered hothers v hv

end

mutual

/-- As many levels as elements are enough for what is written. -/
theorem Visits.tree : ∀ {depth i : Nat} {vs : List Nat} {c : Element}, d.Visits i vs c → vs.length ≤ depth →
    d.tree depth i = c
  | 0, _, _, _, .entry .., hdepth => absurd hdepth (Nat.not_succ_le_zero _)
  | depth + 1, _, _, _, .entry he hchildren, hdepth => by
    rw [Draft.tree, he]
    exact congrArg _ (hchildren.map_tree (Nat.le_of_succ_le_succ hdepth))

theorem VisitsAll.map_tree : ∀ {depth : Nat} {is vs : List Nat} {cs : List Element}, d.VisitsAll is vs cs →
    vs.length ≤ depth → is.map (d.tree depth) = cs
  | _, _, _, _, .nil, _ => rfl
  | _, _, _, _, .cons hfirst hrest, hdepth => by
    rw [List.length_append] at hdepth
    rw [List.map_cons, hfirst.tree (by omega), hrest.map_tree (by omega)]

end

/-! ## One tree -/

/-- The elements of a draft are one tree. -/
structure IsTree (d : Draft) (r : Nat) : Prop where
  root : d.root = some r
  /-- Every element is linked once, except for the root, which is linked nowhere. -/
  once : ∀ i < d.size, d.links.count i = if i = r then 0 else 1
  /-- Elements are linked below earlier ones. -/
  ordered : ∀ i < d.size, ∀ k ∈ d.childrenOf i, i < k ∧ k < d.size
  reached : ∀ i < d.size, d.Reaches r i
  /-- No two elements right below the root have anything below them in common. -/
  apart : (d.childrenOf r).Pairwise fun i j => ∀ k, d.Reaches i k → ¬ d.Reaches j k
  /-- Writing comes to an end, after every element was visited once. -/
  written : ∃ vs name attributes children, d.Visits r vs (.mk name attributes children) ∧
    vs.Perm (List.range d.size) ∧ d.document = some (.mk name (d.declarations ++ attributes) children)

/-- **A draft is one tree** if its root visits the elements in the order of their numbers. -/
theorem Visits.isTree {r : Nat} {c : Element} (hroot : d.root = some r) (h : d.Visits r (List.range d.size) c) :
    d.IsTree r := by
  have numbers : (List.range d.size).Perm (r :: d.links) := d.links_eq ▸ h.perm
  have linked : ∀ i < d.size, ∀ k ∈ d.childrenOf i, k ∈ d.links :=
    fun i hi k hk => d.links_eq ▸ List.mem_flatMap.2 ⟨i, List.mem_range.2 hi, hk⟩
  refine ⟨hroot, fun i hi => ?_, fun i hi k hk => ⟨?_, ?_⟩, fun i hi => ?_, ?_, ?_⟩
  · have visited : (r :: d.links).count i = 1 := by
      rw [← numbers.count_eq]
      exact List.nodup_range.count.trans (if_pos (List.mem_range.2 hi))
    rw [List.count_cons] at visited
    by_cases hir : i = r
    · subst hir
      rw [beq_self_eq_true, if_pos rfl] at visited
      rw [if_pos rfl]
      omega
    · rw [if_neg hir]
      rw [if_neg (by rwa [beq_iff_eq, eq_comm])] at visited
      exact visited
  · exact h.ordered List.pairwise_lt_range i (List.mem_range.2 hi) k hk
  · exact List.mem_range.1 (numbers.mem_iff.2 (List.mem_cons_of_mem _ (linked i hi k hk)))
  · exact h.mem_iff.1 (List.mem_range.2 hi)
  · generalize hvs : List.range d.size = vs at h
    cases h with
    | entry he hchildren =>
      have distinct : (r :: _).Nodup := hvs ▸ List.nodup_range
      rw [childrenOf_eq he]
      exact hchildren.apart (List.nodup_cons.1 distinct).2
  · obtain ⟨name, attributes, children⟩ := c
    have tree : d.tree (d.size + 1) r = .mk name attributes children := by
      refine h.tree ?_
      rw [List.length_range]
      exact Nat.le_succ _
    refine ⟨_, name, attributes, children, h, .refl _, ?_⟩
    rw [document, hroot, Option.map_some, tree]

end StylesheetReversal.Draft
