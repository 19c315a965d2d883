import Mathlib.Data.List.Basic
import Mathlib.Data.List.TakeWhile
import StylesheetReversal.Document.Basic
/-!
# The two sides of a node

The children of a node have an order, and so each of them has some of the others before it and some after it
(`Document.level_eq_sides`).  Whoever describes a place looks at the nearest ones first (`Document.siblings_eq_sides`).
-/
namespace StylesheetReversal.Document

variable {ν : Type} [DecidableEq ν] {d : Document ν} {n : ν}

/-- All children of the parent of a node, in document order. -/
def level (d : Document ν) (n : ν) : List ν := (d.parent n).elim [] d.children

/-- The siblings before a node, in document order.  There are none for what is no child of its parent. -/
def earlier (d : Document ν) (n : ν) : List ν := if n ∈ d.level n then (d.level n).take ((d.level n).idxOf n) else []

/-- The siblings after a node, in document order. -/
def later (d : Document ν) (n : ν) : List ν := (d.level n).drop ((d.level n).idxOf n + 1)

/-- What stands before the first place of a node in its level and what stands after it are its sides. -/
theorem sides_of_level_eq {before after : List ν} (hlevel : d.level n = before ++ n :: after) (hfirst : n ∉ before) :
    d.earlier n = before ∧ d.later n = after := by
  have place : (d.level n).idxOf n = before.length := by
    rw [hlevel, List.idxOf_append_of_notMem hfirst, List.idxOf_cons_self, Nat.add_zero]
  have child : n ∈ d.level n := hlevel ▸ List.mem_append_right before List.mem_cons_self
  constructor
  · rw [earlier, if_pos child, place, hlevel, List.take_left]
  · rw [later, place, hlevel]
    simp

/-- **A child stands between its siblings**, at the first place where it is found among them. -/
theorem level_eq_sides (h : n ∈ d.level n) : d.level n = d.earlier n ++ n :: d.later n ∧ n ∉ d.earlier n := by
  obtain ⟨before, after, hlevel, hfirst⟩ := List.eq_append_cons_of_mem h
  obtain ⟨hearlier, hlater⟩ := sides_of_level_eq hlevel hfirst
  rw [hearlier, hlater]
  exact ⟨hlevel, hfirst⟩

theorem sides_of_not_mem (h : n ∉ d.level n) : d.earlier n = [] ∧ d.later n = [] := by
  refine ⟨if_neg h, ?_⟩
  rw [later, List.idxOf_eq_length h]
  exact List.drop_eq_nil_of_le (Nat.le_succ _)

theorem siblings_eq_level (d : Document ν) (n : ν) : d.siblings n =
    match (d.level n).dropWhile (· ≠ n) with
    | [] => ([], [])
    | _ :: after => (((d.level n).takeWhile (· ≠ n)).reverse, after) := by
  unfold siblings level
  cases d.parent n <;> rfl

/-- **The siblings of a node** are those on its two sides, the nearest ones first. -/
theorem siblings_eq_sides (d : Document ν) (n : ν) : d.siblings n = ((d.earlier n).reverse, d.later n) := by
  rw [siblings_eq_level]
  by_cases h : n ∈ d.level n
  · obtain ⟨hlevel, hfirst⟩ := level_eq_sides h
    have others : ∀ m ∈ d.earlier n, decide (m ≠ n) = true := fun m hm =>
      decide_eq_true fun heq => hfirst (heq ▸ hm)
    rw [hlevel, List.dropWhile_append_of_pos others, List.takeWhile_append_of_pos others]
    simp
  · obtain ⟨hearlier, hlater⟩ := sides_of_not_mem h
    have others : ∀ m ∈ d.level n, decide (m ≠ n) = true := fun m hm => decide_eq_true fun heq => h (heq ▸ hm)
    rw [hearlier, hlater, List.dropWhile_eq_nil_iff.2 others]
    rfl

end StylesheetReversal.Document
