import Mathlib.Data.List.Forall2
import Mathlib.Data.Option.Basic
import StylesheetReversal.Proofs.Document.Ascent
/-!
# Places that look alike

What is said about a place depends on little of a document.  Two documents whose nodes on the way up can be matched, so
that the same is asked of matching elements, say the same about the place (`Document.Lookalike.surroundings`).  So do
two documents that agree in all their nodes (`Document.Agrees.surroundings`).
-/
namespace StylesheetReversal.Document

variable {ν μ : Type} {d : Document ν} {d' : Document μ}

/-- Two siblings are mentioned in the same words if they are alike. -/
theorem mention_congr {n : ν} {m : μ} (hkind : d.kind n = d'.kind m) (hvalue : d.kind n = .text → d.value n = d'.value m)
    (hname : d.baseName n = d'.baseName m)
    (htests : (d.attributes n).map d.attributeTest = (d'.attributes m).map d'.attributeTest) :
    d.mention n = d'.mention m := by
  unfold mention
  rw [← hkind, hname, htests]
  split
  · next hk => rw [hvalue hk]
  · rfl
  · rfl

section Matched

variable [DecidableEq ν] [DecidableEq μ]

/-- The same is asked of two elements that are alike and have the same siblings to be mentioned. -/
theorem conditions_congr {n : ν} {m : μ} (hname : d.baseName n = d'.baseName m)
    (htests : (d.attributes n).map d.attributeTest = (d'.attributes m).map d'.attributeTest)
    (hbefore : (d.siblings n).1.filterMap d.mention = (d'.siblings m).1.filterMap d'.mention)
    (hafter : (d.siblings n).2.filterMap d.mention = (d'.siblings m).2.filterMap d'.mention) :
    d.conditions n = d'.conditions m := by
  unfold conditions
  dsimp only
  rw [hname, htests, hbefore, hafter]

theorem forall₂_around {R : ν → μ → Prop} {n : ν} {m : μ} (hunique : ∀ {k l}, R k l → (k = n ↔ l = m)) {ns : List ν}
    {ms : List μ} (h : List.Forall₂ R ns ms) : List.Forall₂ R (ns.takeWhile (· ≠ n)) (ms.takeWhile (· ≠ m)) ∧
      List.Forall₂ R (ns.dropWhile (· ≠ n)) (ms.dropWhile (· ≠ m)) := by
  induction h with
  | nil => exact ⟨.nil, .nil⟩
  | @cons k l ns ms hkl hrest ih =>
    by_cases hk : k = n
    · have hl : l = m := (hunique hkl).1 hk
      subst hk hl
      simp only [List.takeWhile_cons, List.dropWhile_cons, ne_eq, not_true_eq_false, decide_false, Bool.false_eq_true,
        if_false]
      exact ⟨.nil, .cons hkl hrest⟩
    · have hl : l ≠ m := fun hl => hk ((hunique hkl).2 hl)
      simp only [List.takeWhile_cons, List.dropWhile_cons, ne_eq, hk, hl, not_false_eq_true, decide_true, if_true]
      exact ⟨.cons hkl ih.1, ih.2⟩

/-- Nodes have matching siblings if their parents have matching children. -/
theorem siblings_forall₂ {R : ν → μ → Prop} {n : ν} {m : μ} (hunique : ∀ {k l}, R k l → (k = n ↔ l = m))
    (hparent : Option.Rel R (d.parent n) (d'.parent m))
    (hchildren : ∀ {p q}, R p q → List.Forall₂ R (d.children p) (d'.children q)) :
    List.Forall₂ R (d.siblings n).1 (d'.siblings m).1 ∧ List.Forall₂ R (d.siblings n).2 (d'.siblings m).2 := by
  unfold siblings
  generalize d.parent n = p at hparent ⊢
  generalize d'.parent m = q at hparent ⊢
  cases hparent with
  | none => exact ⟨.nil, .nil⟩
  | some hpq =>
    obtain ⟨before, rest⟩ := forall₂_around hunique (hchildren hpq)
    dsimp only
    generalize (d.children _).dropWhile _ = ns at rest ⊢
    generalize (d'.children _).dropWhile _ = ms at rest ⊢
    cases rest with
    | nil => exact ⟨.nil, .nil⟩
    | cons _ after => exact ⟨List.forall₂_reverse_iff.2 before, after⟩

/-- A matching of nodes of two documents that is kept on the way up to the boundaries `b` and `b'`. -/
structure Lookalike (d : Document ν) (d' : Document μ) (wrapper : Option String → Bool) (b : ν) (b' : μ)
    (R : ν → μ → Prop) : Prop where
  boundary : ∀ {n : ν} {m : μ}, R n m → (n = b ↔ m = b')
  kind : ∀ {n : ν} {m : μ}, R n m → d.kind n = d'.kind m
  described : ∀ {n : ν} {m : μ}, R n m → d.isDescribed wrapper n = d'.isDescribed wrapper m
  conditions : ∀ {n : ν} {m : μ}, R n m → n ≠ b → d.isDescribed wrapper n = true → d.conditions n = d'.conditions m
  parent : ∀ {n : ν} {m : μ}, R n m → n ≠ b → d.kind n ≠ .root → Option.Rel R (d.parent n) (d'.parent m)

namespace Lookalike

variable {wrapper : Option String → Bool} {b : ν} {b' : μ} {R : ν → μ → Prop}

theorem climb (h : Lookalike d d' wrapper b b' R) : ∀ {i j : Nat} {n : ν} {m : μ}, R n m → d.rank n < i → d'.rank m < j →
    List.Forall₂ (fun n m => R n m ∧ n ≠ b) (d.climb b i n) (d'.climb b' j m)
  | 0, _, _, _, _, hi, _ => by cases hi
  | _, 0, _, _, _, _, hj => by cases hj
  | i + 1, j + 1, n, m, hr, hi, hj => by
    have stops : (n = b ∨ d.kind n = .root) ↔ (m = b' ∨ d'.kind m = .root) := by
      rw [h.boundary hr, h.kind hr]
    rw [Document.climb, Document.climb]
    by_cases go : n = b ∨ d.kind n = .root
    · rw [if_pos go, if_pos (stops.1 go)]
      exact .nil
    · obtain ⟨hb, hk⟩ := not_or.1 go
      rw [if_neg go, if_neg (go ∘ stops.2)]
      have parents := h.parent hr hb hk
      cases hp : d.parent n with
      | none =>
        cases hq : d'.parent m with
        | none => exact .cons ⟨hr, hb⟩ .nil
        | some q => rw [hp, hq] at parents; cases parents
      | some p =>
        cases hq : d'.parent m with
        | none => rw [hp, hq] at parents; cases parents
        | some q =>
          rw [hp, hq] at parents
          cases parents with
          | some hpq =>
            have := d.rank_parent hp
            have := d'.rank_parent hq
            exact .cons ⟨hr, hb⟩ (h.climb hpq (by omega) (by omega))

/-- Of the elements that are described, the same is asked. -/
theorem filter (h : Lookalike d d' wrapper b b' R) {ns : List ν} {ms : List μ}
    (hns : List.Forall₂ (fun n m => R n m ∧ n ≠ b) ns ms) :
    List.Forall₂ (fun n m => d.conditions n = d'.conditions m) (ns.filter (d.isDescribed wrapper))
      (ms.filter (d'.isDescribed wrapper)) := by
  induction hns with
  | nil => exact .nil
  | @cons n m ns ms hnm _ ih =>
    have same := h.described hnm.1
    by_cases hn : d.isDescribed wrapper n = true
    · rw [List.filter_cons_of_pos hn, List.filter_cons_of_pos (same ▸ hn)]
      exact .cons (h.conditions hnm.1 hnm.2 hn) ih
    · rw [List.filter_cons_of_neg hn, List.filter_cons_of_neg (same ▸ hn)]
      exact ih

theorem nested {ns : List ν} {ms : List μ} (h : List.Forall₂ (fun n m => d.conditions n = d'.conditions m) ns ms) :
    d.nested ns = d'.nested ms := by
  induction h with
  | nil => rfl
  | @cons n m ns ms hnm hrest ih =>
    have empty : ns.isEmpty = ms.isEmpty := by
      cases hrest <;> rfl
    rw [nested_cons, nested_cons, hnm, ih, empty]

/-- **Places that look alike** are described in the same words. -/
theorem surroundings (h : Lookalike d d' wrapper b b' R) {n : ν} {m : μ} (hr : R n m) :
    d.surroundings wrapper n b = d'.surroundings wrapper m b' := by
  rw [surroundings_eq_nested, surroundings_eq_nested]
  exact nested (h.filter (h.climb hr (Nat.lt_succ_self _) (Nat.lt_succ_self _)))

end Lookalike

end Matched

/-! ## Documents that agree -/

/-- The documents have the same nodes, matched by `R`, with the same contents and in the same places.  Only elements need
to have the same namespace, and names may have different qualifiers. -/
structure Agrees (d : Document ν) (d' : Document μ) (R : ν → μ → Prop) : Prop where
  unique : ∀ {n k : ν} {m l : μ}, R n m → R k l → (n = k ↔ m = l)
  kind : ∀ {n : ν} {m : μ}, R n m → d.kind n = d'.kind m
  name : ∀ {n : ν} {m : μ}, R n m → (d.name n).map QName.base = (d'.name m).map QName.base
  uri : ∀ {n : ν} {m : μ}, R n m → d.kind n = .element → d.uri n = d'.uri m
  value : ∀ {n : ν} {m : μ}, R n m → d.value n = d'.value m
  parent : ∀ {n : ν} {m : μ}, R n m → Option.Rel R (d.parent n) (d'.parent m)
  attributes : ∀ {n : ν} {m : μ}, R n m → List.Forall₂ R (d.attributes n) (d'.attributes m)
  children : ∀ {n : ν} {m : μ}, R n m → List.Forall₂ R (d.children n) (d'.children m)

namespace Agrees

variable {R : ν → μ → Prop} {n : ν} {m : μ}

theorem baseName (h : Agrees d d' R) (hr : R n m) : d.baseName n = d'.baseName m := by
  have name := h.name hr
  unfold Document.baseName
  generalize d.name n = q at name ⊢
  generalize d'.name m = q' at name ⊢
  match q, q' with
  | none, none => rfl
  | some _, some _ => exact Option.some.inj name

theorem attributeTests (h : Agrees d d' R) (hr : R n m) :
    (d.attributes n).map d.attributeTest = (d'.attributes m).map d'.attributeTest := by
  rw [← List.forall₂_eq_eq_eq]
  refine List.rel_map (fun a b hab => ?_) (h.attributes hr)
  rw [attributeTest, attributeTest, h.baseName hab, h.value hab]

theorem mention (h : Agrees d d' R) (hr : R n m) : d.mention n = d'.mention m :=
  mention_congr (h.kind hr) (fun _ => h.value hr) (h.baseName hr) (h.attributeTests hr)

theorem mentions (h : Agrees d d' R) {ns : List ν} {ms : List μ} (hns : List.Forall₂ R ns ms) :
    ns.filterMap d.mention = ms.filterMap d'.mention := by
  induction hns with
  | nil => rfl
  | cons hkl _ ih => rw [List.filterMap_cons, List.filterMap_cons, h.mention hkl, ih]

theorem isDescribed (h : Agrees d d' R) (wrapper : Option String → Bool) (hr : R n m) :
    d.isDescribed wrapper n = d'.isDescribed wrapper m := by
  unfold Document.isDescribed
  rw [← h.kind hr]
  by_cases hk : d.kind n = .element
  · rw [h.uri hr hk]
  · rw [decide_eq_false hk, Bool.false_and, Bool.false_and]

variable [DecidableEq ν] [DecidableEq μ]

theorem conditions (h : Agrees d d' R) (hr : R n m) : d.conditions n = d'.conditions m := by
  obtain ⟨before, after⟩ := siblings_forall₂ (fun hkl => h.unique hkl hr) (h.parent hr) h.children
  exact conditions_congr (h.baseName hr) (h.attributeTests hr) (h.mentions before) (h.mentions after)

/-- **In documents that agree, places are described in the same words.** -/
theorem surroundings (h : Agrees d d' R) (wrapper : Option String → Bool) {b : ν} {b' : μ} (hr : R n m) (hb : R b b') :
    d.surroundings wrapper n b = d'.surroundings wrapper m b' := by
  have alike : Lookalike d d' wrapper b b' R := {
    boundary := fun hkl => h.unique hkl hb
    kind := h.kind
    described := h.isDescribed wrapper
    conditions := fun hkl _ _ => h.conditions hkl
    parent := fun hkl _ _ => h.parent hkl }
  exact alike.surroundings hr

end Agrees

end StylesheetReversal.Document
