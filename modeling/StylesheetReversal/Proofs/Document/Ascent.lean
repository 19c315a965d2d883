import StylesheetReversal.Document.Surroundings
import StylesheetReversal.Proofs.Document.Sides
/-!
# The way up

To describe a place, the nearest element that is to be described is looked for, and from its parent on all begins anew.
All the same there is one way up, from the source to the boundary or to the root of the document (`Document.Walk`), and
every element on it that is no wrapper is described once (`Document.surroundings_eq_nested`).  What is written is one
part for each of them, and in the end a bracket for each (`Document.surroundings_walk`).

A part asks for the name of an element, for its attributes, and on both sides for those of its siblings that say
something (`Document.asked`).  Just these are mentioned (`Document.mention_eq`).
-/
namespace StylesheetReversal

/-- Trimming leaves nothing of white space, and something of any other text. -/
theorem Text.trim_eq_nil_iff {cs : List Char} : trim cs = [] ↔ cs.all isBlank = true := by
  rw [trim, List.reverse_eq_nil_iff, List.dropWhile_eq_nil_iff, List.all_eq_true]
  constructor
  · intro h
    rw [← List.dropWhile_eq_nil_iff]
    by_contra hne
    have first := h _ (List.mem_reverse.2 (List.head_mem hne))
    rw [List.head_dropWhile_not isBlank hne] at first
    cases first
  · intro h
    rw [List.dropWhile_eq_nil_iff.2 h]
    exact List.forall_mem_nil _

namespace Document

variable {ν : Type} [DecidableEq ν]

/-- The nodes met on the way up from a node, one parent after the other.  The boundary and the root of the document are
not met any more. -/
inductive Walk (d : Document ν) (boundary : ν) : ν → List ν → Prop
  | stop {n : ν} : n = boundary ∨ d.kind n = .root → Walk d boundary n []
  | top {n : ν} : ¬ (n = boundary ∨ d.kind n = .root) → d.parent n = none → Walk d boundary n [n]
  | up {n p : ν} {ns : List ν} : ¬ (n = boundary ∨ d.kind n = .root) → d.parent n = some p → Walk d boundary p ns →
      Walk d boundary n (n :: ns)

/-- A sibling says something if it is an element, or a text that is not all white space.  Comments and instructions say
nothing. -/
def isTelling (d : Document ν) (sibling : ν) : Bool :=
  d.kind sibling = .element || (d.kind sibling = .text && !(d.value sibling).toList.all Text.isBlank)

/-- What a sibling says: a text has certain words in it, an element has its name, and its attributes if there are any. -/
def telling (d : Document ν) (sibling : ν) : String :=
  if d.kind sibling = .text then "text()[contains(.,'" ++ String.ofList (Text.trim (d.value sibling).toList) ++ "')]"
  else if d.attributes sibling = [] then d.baseName sibling
  else
    let tests := (d.attributes sibling).map fun a => "@" ++ d.baseName a ++ "='" ++ d.value a ++ "'"
    d.baseName sibling ++ "[" ++ " and ".intercalate tests ++ "]"

/-- What is written about one element: its name, its attributes, the siblings before it from the nearest on, and those
after it.  The bracket is left open for what is above. -/
def asked (d : Document ν) (n : ν) : String :=
  "parent::node()[name()='" ++ d.baseName n ++ "'" ++
    String.join ((d.attributes n).map fun a => " and @" ++ d.baseName a ++ "='" ++ d.value a ++ "'") ++
    String.join (((d.earlier n).reverse.filter d.isTelling).map fun m => " and preceding-sibling::" ++ d.telling m) ++
    String.join (((d.later n).filter d.isTelling).map fun m => " and following-sibling::" ++ d.telling m)

section Trail

variable {d : Document ν} {boundary n p : ν} {ns : List ν}

/-! ## One way up -/

/-- From a node on, steps beyond its rank change nothing. -/
theorem climb_eq_of_rank_lt : ∀ {i j : Nat} {n : ν}, d.rank n < i → d.rank n < j → d.climb boundary i n = d.climb boundary j n
  | 0, _, _, hi, _ => absurd hi (Nat.not_lt_zero _)
  | _, 0, _, _, hj => absurd hj (Nat.not_lt_zero _)
  | i + 1, j + 1, n, hi, hj => by
    rw [climb, climb]
    cases hp : d.parent n with
    | none => rfl
    | some p =>
      have shallower := d.rank_parent hp
      have above : d.climb boundary i p = d.climb boundary j p := climb_eq_of_rank_lt (by omega) (by omega)
      dsimp only
      rw [above]

theorem trail_stop (h : n = boundary ∨ d.kind n = .root) : d.trail n boundary = [] := by
  rw [trail, climb, if_pos h]

theorem trail_top (h : ¬ (n = boundary ∨ d.kind n = .root)) (hp : d.parent n = none) : d.trail n boundary = [n] := by
  rw [trail, climb, if_neg h, hp]

theorem trail_up (h : ¬ (n = boundary ∨ d.kind n = .root)) (hp : d.parent n = some p) :
    d.trail n boundary = n :: d.trail p boundary := by
  have above : d.climb boundary (d.rank n) p = d.trail p boundary :=
    climb_eq_of_rank_lt (d.rank_parent hp) (Nat.lt_succ_self _)
  rw [trail, climb, if_neg h, hp]
  exact congrArg (n :: ·) above

/-- **There is exactly one way up**, from whichever node to whichever boundary. -/
theorem walk_iff : d.Walk boundary n ns ↔ ns = d.trail n boundary := by
  constructor
  · intro h
    induction h with
    | stop hstop => exact (trail_stop hstop).symm
    | top hgo hp => exact (trail_top hgo hp).symm
    | up hgo hp _ ih => rw [trail_up hgo hp, ih]
  · rintro rfl
    -- by the rank of the node, which falls with every step
    induction hr : d.rank n using Nat.strongRecOn generalizing n with
    | ind r ih =>
      by_cases hstop : n = boundary ∨ d.kind n = .root
      · rw [trail_stop hstop]
        exact .stop hstop
      · cases hp : d.parent n with
        | none =>
          rw [trail_top hstop hp]
          exact .top hstop hp
        | some p =>
          rw [trail_up hstop hp]
          exact .up hstop hp (ih (d.rank p) (hr ▸ d.rank_parent hp) rfl)

/-! ## What is described on it -/

variable {wrapper : Option String → Bool}

/-- The first node to be described is the nearest, and the others are those on the way up from its parent. -/
theorem filter_trail : (d.trail n boundary).filter (d.isDescribed wrapper) =
    match d.nearest? wrapper boundary n with
    | none => []
    | some m => m :: (d.parent m).elim [] fun p => (d.trail p boundary).filter (d.isDescribed wrapper) := by
  fun_induction d.nearest? wrapper boundary n with
  | case1 n hstop => rw [trail_stop hstop, List.filter_nil]
  | case2 n hgo hn =>
    dsimp only
    cases hp : d.parent n with
    | none => rw [trail_top hgo hp, List.filter_cons_of_pos hn, List.filter_nil, Option.elim_none]
    | some p => rw [trail_up hgo hp, List.filter_cons_of_pos hn, Option.elim_some]
  | case3 n hgo hn p hp ih => rw [trail_up hgo hp, List.filter_cons_of_neg hn, ih]
  | case4 n hgo hn hp => rw [trail_top hgo hp, List.filter_cons_of_neg hn, List.filter_nil]

theorem nested_eq_empty_iff : d.nested ns = "" ↔ ns = [] := by
  cases ns with
  | nil => exact ⟨fun _ => rfl, fun _ => rfl⟩
  | cons n above =>
    rw [nested_cons]
    simp [String.append_eq_empty_iff]

/-- **Going up again and again, every element that is to be described is described once**, from the inside out. -/
theorem surroundings_eq_nested (d : Document ν) (wrapper : Option String → Bool) (source boundary : ν) :
    d.surroundings wrapper source boundary = d.nested ((d.trail source boundary).filter (d.isDescribed wrapper)) := by
  fun_induction d.surroundings wrapper source boundary with
  | case1 source hnone =>
    rw [filter_trail, hnone]
    rfl
  | case2 source n hn further ih =>
    rw [filter_trail, hn]
    dsimp only
    have above : further =
        d.nested ((d.parent n).elim [] fun p => (d.trail p boundary).filter (d.isDescribed wrapper)) := by
      dsimp only [further]
      split
      · next p hp => rw [ih p hp, hp, Option.elim_some]
      · next hp =>
        rw [hp]
        rfl
    rw [nested_cons, ← above]
    simp only [above, nested_eq_empty_iff, List.isEmpty_iff]

/-! ## The parts of a description -/

theorem intercalate_cons (sep first : String) : ∀ rest : List String,
    sep.intercalate (first :: rest) = first ++ String.join (rest.map (sep ++ ·))
  | [] => by simp
  | second :: rest => by
    rw [String.intercalate_cons_cons, intercalate_cons sep second rest, List.map_cons, String.join_cons,
      String.append_assoc, String.append_assoc]

omit [DecidableEq ν] in
/-- **The siblings that say something are mentioned**, and no others. -/
theorem mention_eq (d : Document ν) (m : ν) : d.mention m = if d.isTelling m then some (d.telling m) else none := by
  unfold mention isTelling telling
  cases hk : d.kind m with
  | text =>
    cases hblank : (d.value m).toList.all Text.isBlank with
    | true =>
      rw [Text.trim_eq_nil_iff.2 hblank]
      rfl
    | false =>
      have words : Text.trim (d.value m).toList ≠ [] := fun h => by simp [Text.trim_eq_nil_iff.1 h] at hblank
      simp [words]
  | element =>
    cases d.attributes m with
    | nil => rfl
    | cons a others => rfl
  | _ => rfl

omit [DecidableEq ν] in
theorem filterMap_mention (d : Document ν) (ms : List ν) :
    ms.filterMap d.mention = (ms.filter d.isTelling).map d.telling := by
  rw [← List.filterMap_eq_map, List.filterMap_filter, funext d.mention_eq]
  rfl

theorem intercalate_conditions (d : Document ν) (n : ν) :
    "parent::node()[" ++ " and ".intercalate (d.conditions n) = d.asked n := by
  have name : "parent::node()[" ++ ("name()='" ++ d.baseName n ++ "'") = "parent::node()[name()='" ++ d.baseName n ++ "'" := by
    rw [← String.append_assoc, ← String.append_assoc]
    rfl
  have tests : ((d.attributes n).map d.attributeTest).map (" and " ++ ·) =
      (d.attributes n).map fun a => " and @" ++ d.baseName a ++ "='" ++ d.value a ++ "'" := by
    rw [List.map_map]
    refine List.map_congr_left fun a _ => ?_
    rw [Function.comp_apply, attributeTest, ← String.append_assoc, ← String.append_assoc, ← String.append_assoc,
      ← String.append_assoc]
    rfl
  have side (axis : String) (ms : List ν) :
      ((ms.filterMap d.mention).map (axis ++ ·)).map (" and " ++ ·) =
        (ms.filter d.isTelling).map fun m => " and " ++ axis ++ d.telling m := by
    rw [filterMap_mention, List.map_map, List.map_map]
    exact List.map_congr_left fun m _ => (String.append_assoc ..).symm
  unfold conditions asked
  rw [siblings_eq_sides]
  dsimp only
  rw [List.cons_append, List.cons_append, intercalate_cons, ← String.append_assoc, name, List.map_append, List.map_append,
    tests, side, side, String.join_append, String.join_append, ← String.append_assoc, ← String.append_assoc]
  rfl

/-- Every part is closed behind those further out. -/
theorem nested_eq (d : Document ν) : ∀ ns : List ν,
    d.nested ns = " and ".intercalate (ns.map d.asked) ++ String.ofList (List.replicate ns.length ']')
  | [] => rfl
  | [n] => by
    have alone : d.conditions n ++ (if ([] : List ν).isEmpty then [] else [d.nested []]) = d.conditions n :=
      List.append_nil _
    rw [nested_cons, alone, intercalate_conditions, List.map_singleton, String.intercalate_singleton]
    rfl
  | n :: m :: above => by
    have ne : d.conditions n ≠ [] := List.cons_ne_nil _ _
    have further : (m :: above).map d.asked ≠ [] := List.cons_ne_nil _ _
    have last : String.ofList (List.replicate (n :: m :: above).length ']') =
        String.ofList (List.replicate (m :: above).length ']') ++ "]" := by
      rw [List.length_cons, List.replicate_succ', String.ofList_append]
    rw [nested_cons, List.isEmpty_cons, if_neg Bool.false_ne_true,
      String.intercalate_append_of_ne_nil ne (List.cons_ne_nil _ _), String.intercalate_singleton, nested_eq d (m :: above),
      List.map_cons (l := m :: above), String.intercalate_cons_of_ne_nil further, last, ← intercalate_conditions]
    simp only [String.append_assoc]

/-- **What is written about a place is one part for each element on the way up, and in the end a bracket for each.**
There is one way up from every source to every boundary, be it above or not, and the elements on it are described that
are no wrappers. -/
theorem surroundings_walk (d : Document ν) (wrapper : Option String → Bool) (source boundary : ν) :
    ∃ ns, d.Walk boundary source ns ∧ (∀ ms, d.Walk boundary source ms → ms = ns) ∧
      d.surroundings wrapper source boundary =
        " and ".intercalate ((ns.filter (d.isDescribed wrapper)).map d.asked) ++
          String.ofList (List.replicate (ns.filter (d.isDescribed wrapper)).length ']') := by
  refine ⟨d.trail source boundary, walk_iff.2 rfl, fun ms hms => walk_iff.1 hms, ?_⟩
  rw [surroundings_eq_nested, nested_eq]

end Trail

end Document

end StylesheetReversal
