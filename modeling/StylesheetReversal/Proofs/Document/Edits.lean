import Mathlib.Data.List.Forall2
import Mathlib.Data.List.TakeWhile
import Mathlib.Logic.Relation
import StylesheetReversal.Document.Outline
import StylesheetReversal.Proofs.Document.Lookalike
/-!
# Edits that are not seen

A description of a place goes up from the source and looks at the siblings of what it meets.  Comments, instructions and
blank texts are not mentioned there, and what is inside an element is looked at only on the way to the source.  So nodes
of these kinds can be put into a document and taken out of it, and so can anything that is inside the source or inside an
element beside the way (`Document.Unseen`): the description stays the same (`Document.surroundings_edited`).
-/
namespace StylesheetReversal

/-! ## Lists with members taken out and put in -/

/-- The second list arises from the first.  Members that are matched by `R` stay, in their order, and anywhere between
them members may be taken out or put in. -/
inductive Spliced {α β : Type} (R : α → β → Prop) (removable : α → Prop) (insertable : β → Prop) : List α → List β → Prop
  | nil : Spliced R removable insertable [] []
  | keep {a : α} {b : β} {as : List α} {bs : List β} :
      R a b → Spliced R removable insertable as bs → Spliced R removable insertable (a :: as) (b :: bs)
  | remove {a : α} {as : List α} {bs : List β} :
      removable a → Spliced R removable insertable as bs → Spliced R removable insertable (a :: as) bs
  | insert {b : β} {as : List α} {bs : List β} :
      insertable b → Spliced R removable insertable as bs → Spliced R removable insertable as (b :: bs)

namespace Spliced

variable {α β γ : Type} {R : α → β → Prop} {removable : α → Prop} {insertable : β → Prop} {as : List α} {bs : List β}

/-- What is taken from the members is the same if nothing is taken from those that are not in both lists. -/
theorem filterMap_eq (h : Spliced R removable insertable as bs) {f : α → Option γ} {g : β → Option γ}
    (hkept : ∀ a b, R a b → f a = g b) (hremoved : ∀ a, removable a → f a = none)
    (hinserted : ∀ b, insertable b → g b = none) : as.filterMap f = bs.filterMap g := by
  induction h with
  | nil => rfl
  | keep hr _ ih => rw [List.filterMap_cons, List.filterMap_cons, hkept _ _ hr, ih]
  | remove ha _ ih => rw [List.filterMap_cons, hremoved _ ha, ih]
  | insert hb _ ih => rw [List.filterMap_cons, hinserted _ hb, ih]

variable [DecidableEq α] [DecidableEq β] {a : α} {b : β}

/-- Around a member that stays, both sides are spliced for themselves. -/
theorem around (h : Spliced R removable insertable as bs) (hunique : ∀ {x y}, R x y → (x = a ↔ y = b))
    (hremoved : ¬ removable a) (hinserted : ¬ insertable b) :
    Spliced R removable insertable (as.takeWhile (· ≠ a)) (bs.takeWhile (· ≠ b)) ∧
      (as.dropWhile (· ≠ a) = [] ∧ bs.dropWhile (· ≠ b) = [] ∨
        ∃ before after, as.dropWhile (· ≠ a) = a :: before ∧ bs.dropWhile (· ≠ b) = b :: after ∧
          Spliced R removable insertable before after) := by
  induction h with
  | nil => exact ⟨.nil, .inl ⟨rfl, rfl⟩⟩
  | @keep x y as bs hr hrest ih =>
    by_cases hx : x = a
    · have hy : y = b := (hunique hr).1 hx
      subst hx hy
      simp only [List.takeWhile_cons, List.dropWhile_cons, ne_eq, not_true_eq_false, decide_false, Bool.false_eq_true,
        if_false]
      exact ⟨.nil, .inr ⟨as, bs, rfl, rfl, hrest⟩⟩
    · have hy : y ≠ b := fun hy => hx ((hunique hr).2 hy)
      simp only [List.takeWhile_cons, List.dropWhile_cons, ne_eq, hx, hy, not_false_eq_true, decide_true, if_true]
      exact ⟨.keep hr ih.1, ih.2⟩
  | @remove x as bs hx hrest ih =>
    have other : x ≠ a := fun h => hremoved (h ▸ hx)
    simp only [List.takeWhile_cons, List.dropWhile_cons, ne_eq, other, not_false_eq_true, decide_true, if_true] at ih ⊢
    exact ⟨.remove hx ih.1, ih.2⟩
  | @insert y as bs hy hrest ih =>
    have other : y ≠ b := fun h => hinserted (h ▸ hy)
    simp only [List.takeWhile_cons, List.dropWhile_cons, ne_eq, other, not_false_eq_true, decide_true, if_true] at ih ⊢
    exact ⟨.insert hy ih.1, ih.2⟩

end Spliced

namespace Document

variable {ν μ : Type}

/-- A comment, an instruction or a text that is all white space. -/
def isSilent (d : Document ν) (n : ν) : Bool :=
  match d.kind n with
  | .comment | .instruction => true
  | .text => (d.value n).toList.all Text.isBlank
  | _ => false

/-- `n` is `m` or one of the nodes below it. -/
def Within (d : Document ν) : ν → ν → Prop := Relation.ReflTransGen fun n p => d.parent n = some p

/-- A child `n` of `p` that is not seen in a description of `source`: it is silent, or it is inside the source, or inside
an element that the source is not within. -/
inductive Unseen (d : Document ν) (source : ν) : ν → ν → Prop
  | silent {p n : ν} : d.isSilent n = true → Unseen d source p n
  | inside {n : ν} : Unseen d source source n
  | aside {p n e : ν} : d.kind e = .element → d.Within p e → ¬ d.Within source e → Unseen d source p n

/-- The second document arises from the first by taking nodes out of lists of children and putting others in, all of them
unseen from the source.  The nodes that stay are matched by `R`; they are the same as before, except that the value of
an element is the text inside it. -/
structure Edited (d : Document ν) (d' : Document μ) (R : ν → μ → Prop) (source : ν) (source' : μ) : Prop where
  unique : ∀ {n k : ν} {m l : μ}, R n m → R k l → (n = k ↔ m = l)
  kind : ∀ {n : ν} {m : μ}, R n m → d.kind n = d'.kind m
  name : ∀ {n : ν} {m : μ}, R n m → d.name n = d'.name m
  uri : ∀ {n : ν} {m : μ}, R n m → d.uri n = d'.uri m
  value : ∀ {n : ν} {m : μ}, R n m → d.kind n ≠ .root → d.kind n ≠ .element → d.value n = d'.value m
  parent : ∀ {n : ν} {m : μ}, R n m → Option.Rel R (d.parent n) (d'.parent m)
  attributes : ∀ {n : ν} {m : μ}, R n m →
    List.Forall₂ (fun a b => d.name a = d'.name b ∧ d.value a = d'.value b) (d.attributes n) (d'.attributes m)
  children : ∀ {p : ν} {q : μ}, R p q → Spliced R (fun n => (∀ m, ¬ R n m) ∧ d.Unseen source p n)
    (fun m => (∀ n, ¬ R n m) ∧ d'.Unseen source' q m) (d.children p) (d'.children q)

/-! ## Beside the way up -/

section Seen

variable {d : Document ν} {source n p c : ν}

theorem rank_le_of_within {m : ν} (h : d.Within n m) : d.rank m ≤ d.rank n := by
  induction h with
  | refl => exact Nat.le_refl _
  | tail _ hp ih => exact Nat.le_trans (Nat.le_of_lt (d.rank_parent hp)) ih

/-- A node is not within another one that is deeper than its parent. -/
theorem not_within_of_parent {e : ν} (hp : d.parent n = some p) (hne : n ≠ e) (hdeep : d.rank p < d.rank e) :
    ¬ d.Within n e := by
  intro h
  rcases h.cases_head with rfl | ⟨q, hq, h⟩
  · exact hne rfl
  · cases hp.symm.trans hq
    exact absurd (rank_le_of_within h) (Nat.not_le_of_lt hdeep)

theorem mention_of_isSilent (h : d.isSilent n = true) : d.mention n = none := by
  unfold isSilent at h
  unfold mention
  split at h
  · next hk => rw [hk]
  · next hk => rw [hk]
  · next hk =>
    rw [hk, Text.trim_eq_nil_iff.2 h]
    rfl
  · cases h

/-- **Beside a node that the source is within**, nothing unseen is mentioned. -/
theorem mention_of_unseen (hn : d.Within source n) (hp : d.parent n = some p) (h : d.Unseen source p c) :
    d.mention c = none := by
  cases h with
  | silent hsilent => exact mention_of_isSilent hsilent
  | inside =>
    have below := d.rank_parent hp
    have above := rank_le_of_within hn
    omega
  | aside _ hpe hse => exact absurd ((hn.tail hp).trans hpe) hse

end Seen

/-! ## What stays -/

theorem baseName_congr {d : Document ν} {d' : Document μ} {n : ν} {m : μ} (h : d.name n = d'.name m) :
    d.baseName n = d'.baseName m := by
  rw [baseName, baseName, h]

namespace Edited

variable {d : Document ν} {d' : Document μ} {R : ν → μ → Prop} {source n : ν} {source' m : μ}

theorem attributeTests (h : Edited d d' R source source') (hr : R n m) :
    (d.attributes n).map d.attributeTest = (d'.attributes m).map d'.attributeTest := by
  rw [← List.forall₂_eq_eq_eq]
  refine List.rel_map (fun a b hab => ?_) (h.attributes hr)
  rw [attributeTest, attributeTest, baseName_congr hab.1, hab.2]

theorem mention (h : Edited d d' R source source') (hr : R n m) : d.mention n = d'.mention m :=
  mention_congr (h.kind hr) (fun hk => h.value hr (by rw [hk]; decide) (by rw [hk]; decide)) (baseName_congr (h.name hr))
    (h.attributeTests hr)

variable [DecidableEq ν] [DecidableEq μ]

/-- Beside a node that the source is within, the same siblings are mentioned. -/
theorem mentions (h : Edited d d' R source source') (hr : R n m) (hn : d.Within source n) (hm : d'.Within source' m) :
    (d.siblings n).1.filterMap d.mention = (d'.siblings m).1.filterMap d'.mention ∧
      (d.siblings n).2.filterMap d.mention = (d'.siblings m).2.filterMap d'.mention := by
  have parents := h.parent hr
  unfold siblings
  generalize hp : d.parent n = p at parents ⊢
  generalize hq : d'.parent m = q at parents ⊢
  cases parents with
  | none => exact ⟨rfl, rfl⟩
  | some hpq =>
    obtain ⟨before, behind⟩ := (h.children hpq).around (fun hxy => h.unique hxy hr) (fun hgone => hgone.1 m hr)
      (fun hnew => hnew.1 n hr)
    have same {as : List ν} {bs : List μ} (hsides : Spliced R (fun n => (∀ m, ¬ R n m) ∧ d.Unseen source _ n)
        (fun m => (∀ n, ¬ R n m) ∧ d'.Unseen source' _ m) as bs) : as.filterMap d.mention = bs.filterMap d'.mention :=
      hsides.filterMap_eq (fun _ _ hxy => h.mention hxy) (fun _ hgone => mention_of_unseen hn hp hgone.2)
        (fun _ hnew => mention_of_unseen hm hq hnew.2)
    dsimp only
    rcases behind with ⟨hnone, hnone'⟩ | ⟨after, after', hafter, hafter', hsides⟩
    · rw [hnone, hnone']
      exact ⟨rfl, rfl⟩
    · rw [hafter, hafter']
      exact ⟨by rw [List.filterMap_reverse, List.filterMap_reverse, same before], same hsides⟩

end Edited

end Document

/-! ## Two outlines -/

namespace Outline

/-- Elements `a` and `b` in an element `t`, with blank text and a comment before them and text inside them. -/
def crowded : Outline :=
  empty
    |>.addElement 0 "t" none
    |>.addText 1 "\n  "
    |>.addComment 1 " first "
    |>.addElement 1 "a" none
    |>.addText 4 "one"
    |>.addText 1 "and"
    |>.addElement 1 "b" none
    |>.addText 7 "two"

/-- The same elements, but with an element in `a`, a comment in `b` and a no-break space between them. -/
def recrowded : Outline :=
  empty
    |>.addElement 0 "t" none
    |>.addElement 1 "a" none
    |>.addElement 2 "c" none
    |>.addText 1 "and"
    |>.addText 1 "\u00a0"
    |>.addElement 1 "b" none
    |>.addComment 6 " second "

/-- The nodes that are in both, by their numbers. -/
def crowd : List (Nat × Nat) := [(0, 0), (1, 1), (4, 2), (6, 4), (7, 6)]

theorem edited_crowded : crowded.document.Edited recrowded.document (fun n m => (n, m) ∈ crowd) 7 6 := by
  have all {P : Nat × Nat → Prop} (h : ∀ x ∈ crowd, P x) {n m : Nat} (hr : (n, m) ∈ crowd) : P (n, m) := h _ hr
  constructor
  · exact fun hr hr' => all (P := fun x => ∀ y ∈ crowd, x.1 = y.1 ↔ x.2 = y.2) (by decide) hr _ hr'
  · exact all (P := fun x => crowded.document.kind x.1 = recrowded.document.kind x.2) (by decide +kernel)
  · exact all (P := fun x => crowded.document.name x.1 = recrowded.document.name x.2) (by decide +kernel)
  · exact all (P := fun x => crowded.document.uri x.1 = recrowded.document.uri x.2) (by decide +kernel)
  · exact all (P := fun x => crowded.document.kind x.1 ≠ .root → crowded.document.kind x.1 ≠ .element →
      crowded.document.value x.1 = recrowded.document.value x.2) (by decide +kernel)
  · intro n m hr
    have parents := all (P := fun x => crowded.document.parent x.1 = none ∧ recrowded.document.parent x.2 = none ∨
      ∃ y ∈ crowd, crowded.document.parent x.1 = some y.1 ∧ recrowded.document.parent x.2 = some y.2) (by decide +kernel) hr
    rcases parents with ⟨hp, hq⟩ | ⟨y, hy, hp, hq⟩
    · rw [hp, hq]
      exact .none
    · rw [hp, hq]
      exact .some hy
  · intro n m hr
    have none := all (P := fun x => crowded.document.attributes x.1 = [] ∧ recrowded.document.attributes x.2 = [])
      (by decide +kernel) hr
    rw [none.1, none.2]
    exact .nil
  · have gone (n : Nat) (h : ∀ x ∈ crowd, x.1 ≠ n) (m : Nat) : (n, m) ∉ crowd := fun hr => h _ hr rfl
    have new (m : Nat) (h : ∀ x ∈ crowd, x.2 ≠ m) (n : Nat) : (n, m) ∉ crowd := fun hr => h _ hr rfl
    intro p q hr
    simp only [crowd, List.mem_cons, Prod.mk.injEq, List.not_mem_nil, or_false] at hr
    rcases hr with ⟨rfl, rfl⟩ | ⟨rfl, rfl⟩ | ⟨rfl, rfl⟩ | ⟨rfl, rfl⟩ | ⟨rfl, rfl⟩
    · have children : crowded.document.children 0 = [1] ∧ recrowded.document.children 0 = [1] := by decide +kernel
      rw [children.1, children.2]
      exact .keep (by decide) .nil
    · have children : crowded.document.children 1 = [2, 3, 4, 6, 7] ∧ recrowded.document.children 1 = [2, 4, 5, 6] := by
        decide +kernel
      rw [children.1, children.2]
      refine .remove ⟨gone 2 (by decide), .silent (by decide +kernel)⟩ ?_
      refine .remove ⟨gone 3 (by decide), .silent (by decide +kernel)⟩ ?_
      refine .keep (by decide) (.keep (by decide) ?_)
      exact .insert ⟨new 5 (by decide), .silent (by decide +kernel)⟩ (.keep (by decide) .nil)
    · have children : crowded.document.children 4 = [5] ∧ recrowded.document.children 2 = [3] := by decide +kernel
      have beside : ¬ crowded.document.Within 7 4 :=
        Document.not_within_of_parent (p := 1) (by decide +kernel) (by decide) (by decide)
      have beside' : ¬ recrowded.document.Within 6 2 :=
        Document.not_within_of_parent (p := 1) (by decide +kernel) (by decide) (by decide)
      rw [children.1, children.2]
      refine .remove ⟨gone 5 (by decide), .aside (e := 4) (by decide +kernel) .refl beside⟩ ?_
      exact .insert ⟨new 3 (by decide), .aside (e := 2) (by decide +kernel) .refl beside'⟩ .nil
    · have children : crowded.document.children 6 = [] ∧ recrowded.document.children 4 = [] := by decide +kernel
      rw [children.1, children.2]
      exact .nil
    · have children : crowded.document.children 7 = [8] ∧ recrowded.document.children 6 = [7] := by decide +kernel
      rw [children.1, children.2]
      exact .remove ⟨gone 8 (by decide), .inside⟩ (.insert ⟨new 7 (by decide), .inside⟩ .nil)

end Outline

namespace Document

/-! ## The description -/

/-- **A description does not show what is unseen.**  Comments, instructions and blank texts may be put in and taken out
anywhere, and so may whatever is inside the source or inside an element that the source is not within. -/
theorem surroundings_edited [DecidableEq ν] [DecidableEq μ] {d : Document ν} {d' : Document μ} {R : ν → μ → Prop}
    {source boundary : ν} {source' boundary' : μ} (h : Edited d d' R source source') (hsource : R source source')
    (hboundary : R boundary boundary') (wrapper : Option String → Bool) :
    d.surroundings wrapper source boundary = d'.surroundings wrapper source' boundary' := by
  -- only the nodes on the way up are matched, as elsewhere siblings may have come or gone
  have alike : Lookalike d d' wrapper boundary boundary' fun n m => R n m ∧ d.Within source n ∧ d'.Within source' m := by
    constructor
    · exact fun hr => h.unique hr.1 hboundary
    · exact fun hr => h.kind hr.1
    · intro n m hr
      rw [isDescribed, isDescribed, h.kind hr.1, h.uri hr.1]
    · rintro n m ⟨hr, hn, hm⟩ _ _
      obtain ⟨before, after⟩ := h.mentions hr hn hm
      exact conditions_congr (baseName_congr (h.name hr)) (h.attributeTests hr) before after
    · rintro n m ⟨hr, hn, hm⟩ _ _
      have parents := h.parent hr
      generalize hp : d.parent n = p at parents ⊢
      generalize hq : d'.parent m = q at parents ⊢
      cases parents with
      | none => exact .none
      | some hpq => exact .some ⟨hpq, hn.tail hp, hm.tail hq⟩
  exact alike.surroundings ⟨hsource, .refl, .refl⟩

/-- Two outlines that differ in what is unseen from `b`. -/
theorem surroundings_edited_crowded :
    Outline.crowded.document.Edited Outline.recrowded.document (fun n m => (n, m) ∈ Outline.crowd) 7 6 ∧
      (7, 6) ∈ Outline.crowd ∧ (1, 1) ∈ Outline.crowd ∧
      Outline.crowded.document.surroundings (fun _ => false) 7 1 =
        Outline.recrowded.document.surroundings (fun _ => false) 6 1 :=
  ⟨Outline.edited_crowded, by decide, by decide,
    surroundings_edited Outline.edited_crowded (by decide) (by decide) _⟩

/-- What is said about the element `b` in both. -/
example : Outline.recrowded.document.surroundings (fun _ => false) 6 1 =
    "parent::node()[name()='b' and preceding-sibling::text()[contains(.,'and')] and preceding-sibling::a]" := by
  decide +kernel

end Document

end StylesheetReversal
