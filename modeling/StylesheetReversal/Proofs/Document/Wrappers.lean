import Mathlib.Algebra.Ring.Nat
import StylesheetReversal.Document.Outline
import StylesheetReversal.Proofs.Document.Lookalike
/-!
# Wrappers beside an element

A wrapper is passed over on the way up, so that neither its name nor its attributes are seen there.  Beside an element
that is described it is mentioned like any other element.  So a description says nothing about wrappers exactly if none
stands beside an element that is described (`Document.surroundings_kept_iff`).

In one direction the siblings of such elements are matched one by one.  For the other, all wrappers get longer names: the
description gets longer by one character for every wrapper that it mentions (`Document.length_nested`).
-/
namespace StylesheetReversal

namespace Document

variable {ν μ : Type}

/-- An element that counts as a wrapper. -/
def isWrapper (d : Document ν) (wrapper : Option String → Bool) (n : ν) : Bool := d.kind n = .element && wrapper (d.uri n)

/-- The documents have the same nodes, matched by `R`, and differ in the names and the attributes of wrappers at most. -/
structure Redressed (d : Document ν) (d' : Document μ) (wrapper : Option String → Bool) (R : ν → μ → Prop) : Prop where
  unique : ∀ {n k : ν} {m l : μ}, R n m → R k l → (n = k ↔ m = l)
  kind : ∀ {n : ν} {m : μ}, R n m → d.kind n = d'.kind m
  uri : ∀ {n : ν} {m : μ}, R n m → d.uri n = d'.uri m
  parent : ∀ {n : ν} {m : μ}, R n m → Option.Rel R (d.parent n) (d'.parent m)
  children : ∀ {n : ν} {m : μ}, R n m → List.Forall₂ R (d.children n) (d'.children m)
  value : ∀ {n : ν} {m : μ}, R n m → d.kind n ≠ .attribute → d.value n = d'.value m
  name : ∀ {n : ν} {m : μ}, R n m → d.kind n ≠ .attribute → d.isWrapper wrapper n = false → d.baseName n = d'.baseName m
  attributes : ∀ {n : ν} {m : μ}, R n m → d.isWrapper wrapper n = false →
    List.Forall₂ (fun a b => d.baseName a = d'.baseName b ∧ d.value a = d'.value b) (d.attributes n) (d'.attributes m)

section Described

variable [DecidableEq ν]

/-- The elements that are described on the way up from `source`. -/
def described (d : Document ν) (wrapper : Option String → Bool) (source boundary : ν) : List ν :=
  (d.trail source boundary).filter (d.isDescribed wrapper)

/-- The wrappers among the siblings of a node. -/
def wrappersBeside (d : Document ν) (wrapper : Option String → Bool) (n : ν) : List ν :=
  (d.earlier n ++ d.later n).filter (d.isWrapper wrapper)

theorem wrappersBeside_eq (d : Document ν) (wrapper : Option String → Bool) (n : ν) : d.wrappersBeside wrapper n =
    ((d.siblings n).1.filter (d.isWrapper wrapper)).reverse ++ (d.siblings n).2.filter (d.isWrapper wrapper) := by
  rw [wrappersBeside, List.filter_append, siblings_eq_sides, List.filter_reverse, List.reverse_reverse]

end Described

/-! ## Where no wrapper is mentioned -/

section Matched

variable {d : Document ν} {d' : Document μ} {wrapper : Option String → Bool} {R : ν → μ → Prop} {n : ν} {m : μ}

theorem isWrapper_attribute (wrapper : Option String → Bool) (h : d.kind n = .attribute) : d.isWrapper wrapper n = false := by
  rw [isWrapper, h]
  rfl

namespace Redressed

/-- Documents with nodes in common, of which only wrappers have other names. -/
theorem of_eq {e : Document ν} (hkind : ∀ n, d.kind n = e.kind n) (huri : ∀ n, d.uri n = e.uri n)
    (hparent : ∀ n, d.parent n = e.parent n) (hchildren : ∀ n, d.children n = e.children n)
    (hvalue : ∀ n, d.value n = e.value n) (hattributes : ∀ n, d.attributes n = e.attributes n)
    (hattribute : ∀ n, ∀ a ∈ d.attributes n, d.kind a = .attribute)
    (hname : ∀ n, d.isWrapper wrapper n = false → d.baseName n = e.baseName n) : Redressed d e wrapper Eq := by
  constructor
  · rintro n k _ _ rfl rfl
    rfl
  · rintro n _ rfl
    exact hkind n
  · rintro n _ rfl
    exact huri n
  · rintro n _ rfl
    rw [← hparent]
    cases d.parent n with
    | none => exact .none
    | some p => exact .some rfl
  · rintro n _ rfl
    rw [← hchildren]
    exact List.forall₂_same.2 fun _ _ => rfl
  · rintro n _ rfl _
    exact hvalue n
  · rintro n _ rfl _ hn
    exact hname n hn
  · rintro n _ rfl _
    rw [← hattributes]
    exact List.forall₂_same.2 fun a ha => ⟨hname a (isWrapper_attribute wrapper (hattribute n a ha)), hvalue a⟩

theorem attributeTests (h : Redressed d d' wrapper R) (hr : R n m) (hn : d.isWrapper wrapper n = false) :
    (d.attributes n).map d.attributeTest = (d'.attributes m).map d'.attributeTest := by
  have attributes := h.attributes hr hn
  generalize d.attributes n = as at attributes ⊢
  generalize d'.attributes m = bs at attributes ⊢
  induction attributes with
  | nil => rfl
  | cons hab _ ih => rw [List.map_cons, List.map_cons, ih, attributeTest, attributeTest, hab.1, hab.2]

/-- A sibling that is no wrapper is mentioned in the same words. -/
theorem mention (h : Redressed d d' wrapper R) (hr : R n m) (hn : d.isWrapper wrapper n = false) :
    d.mention n = d'.mention m := by
  by_cases hk : d.kind n = .attribute
  · rw [Document.mention, Document.mention, ← h.kind hr, hk]
  · exact mention_congr (h.kind hr) (fun _ => h.value hr hk) (h.name hr hk hn) (h.attributeTests hr hn)

theorem mentions (h : Redressed d d' wrapper R) {ns : List ν} {ms : List μ} (hns : List.Forall₂ R ns ms)
    (hnone : ns.filter (d.isWrapper wrapper) = []) : ns.filterMap d.mention = ms.filterMap d'.mention := by
  have none_of_mem := List.filter_eq_nil_iff.1 hnone
  clear hnone
  induction hns with
  | nil => rfl
  | @cons n m ns ms hnm _ ih =>
    have first := h.mention hnm (Bool.not_eq_true _ ▸ none_of_mem n List.mem_cons_self)
    rw [List.filterMap_cons, List.filterMap_cons, first, ih fun k hk => none_of_mem k (List.mem_cons_of_mem n hk)]

end Redressed

variable [DecidableEq ν] [DecidableEq μ]

namespace Redressed

variable {source boundary : ν} {source' boundary' : μ}

/-- The same is asked of an element without wrappers beside it. -/
theorem conditions (h : Redressed d d' wrapper R) (hr : R n m) (hdescribed : d.isDescribed wrapper n = true)
    (hnone : d.wrappersBeside wrapper n = []) : d.conditions n = d'.conditions m := by
  unfold isDescribed at hdescribed
  rw [Bool.and_eq_true, decide_eq_true_eq, Bool.not_eq_true'] at hdescribed
  have noAttribute : d.kind n ≠ .attribute := by
    rw [hdescribed.1]
    decide
  have noWrapper : d.isWrapper wrapper n = false := by
    rw [isWrapper, hdescribed.2, Bool.and_false]
  rw [wrappersBeside_eq, List.append_eq_nil_iff, List.reverse_eq_nil_iff] at hnone
  obtain ⟨before, after⟩ := siblings_forall₂ (fun hkl => h.unique hkl hr) (h.parent hr) h.children
  exact conditions_congr (h.name hr noAttribute noWrapper) (h.attributeTests hr noWrapper) (h.mentions before hnone.1)
    (h.mentions after hnone.2)

/-- **Wrappers are not seen on the way up**, if none stands beside an element that is described. -/
theorem surroundings (h : Redressed d d' wrapper R) (hsource : R source source') (hboundary : R boundary boundary')
    (hnone : ∀ n ∈ d.described wrapper source boundary, d.wrappersBeside wrapper n = []) :
    d.surroundings wrapper source boundary = d'.surroundings wrapper source' boundary' := by
  -- only nodes on the way up are matched, as elsewhere there may be wrappers beside an element
  have alike : Lookalike d d' wrapper boundary boundary' fun n m => R n m ∧
      ∃ i, d.rank n < i ∧ d.climb boundary i n ⊆ d.trail source boundary := by
    constructor
    · exact fun hr => h.unique hr.1 hboundary
    · exact fun hr => h.kind hr.1
    · intro n m hr
      rw [isDescribed, isDescribed, h.kind hr.1, h.uri hr.1]
    · rintro n m ⟨hr, i, hi, htrail⟩ hb hdescribed
      have kind : d.kind n ≠ .root := by
        unfold isDescribed at hdescribed
        rw [Bool.and_eq_true, decide_eq_true_eq] at hdescribed
        rw [hdescribed.1]
        decide
      have here : n ∈ d.climb boundary i n := by
        obtain ⟨j, rfl⟩ : ∃ j, i = j + 1 := ⟨i - 1, by omega⟩
        rw [climb, if_neg (not_or.2 ⟨hb, kind⟩)]
        split <;> exact List.mem_cons_self
      exact h.conditions hr hdescribed (hnone n (List.mem_filter.2 ⟨htrail here, hdescribed⟩))
    · rintro n m ⟨hr, i, hi, htrail⟩ hb hk
      have parents := h.parent hr
      generalize hp : d.parent n = p at parents ⊢
      generalize d'.parent m = q at parents ⊢
      cases parents with
      | none => exact .none
      | some hpq =>
        have shallower := d.rank_parent hp
        obtain ⟨j, rfl⟩ : ∃ j, i = j + 1 := ⟨i - 1, by omega⟩
        rw [climb, if_neg (not_or.2 ⟨hb, hk⟩), hp] at htrail
        exact .some ⟨hpq, j, by omega, fun k hk => htrail (List.mem_cons_of_mem n hk)⟩
  exact alike.surroundings ⟨hsource, _, Nat.lt_succ_self _, List.Subset.refl _⟩

end Redressed

end Matched

end Document

/-! ## Documents put together by hand -/

namespace Outline

variable (o : Outline)

theorem kind_of_mem_attributes {o : Outline} (n : Nat) : ∀ a ∈ o.document.attributes n, o.document.kind a = .attribute := by
  intro a ha
  have below := (List.mem_filter.1 ha).2
  rw [Bool.and_eq_true, decide_eq_true_eq, decide_eq_true_eq] at below
  exact of_eq_true (below.2.trans (eq_self true))

/-- The outline with its nodes left without names. -/
def unnamed : Outline := ⟨o.entries.map fun e => { e with name := none }⟩

theorem entry_unnamed (n : Nat) : o.unnamed.entries[n]? = o.entries[n]?.map fun e => { e with name := none } :=
  Array.getElem?_map

@[simp]
theorem size_unnamed : o.unnamed.size = o.size :=
  Array.size_map

@[simp]
theorem kind_unnamed (n : Nat) : o.unnamed.kind n = o.kind n := by
  rw [kind, kind, entry_unnamed]
  cases o.entries[n]? <;> rfl

@[simp]
theorem uri_unnamed (n : Nat) : o.unnamed.document.uri n = o.document.uri n := by
  change (o.unnamed.entries[n]?).bind Entry.uri = (o.entries[n]?).bind Entry.uri
  rw [entry_unnamed]
  cases o.entries[n]? <;> rfl

@[simp]
theorem parent_unnamed (n : Nat) : o.unnamed.parent n = o.parent n := by
  rw [parent, parent, entry_unnamed]
  cases o.entries[n]? <;> rfl

@[simp]
theorem below_unnamed (attributes : Bool) (n : Nat) : o.unnamed.below attributes n = o.below attributes n := by
  simp [below]

@[simp]
theorem text_unnamed (depth n : Nat) : o.unnamed.text depth n = o.text depth n := by
  induction depth generalizing n with
  | zero => rfl
  | succ depth ih =>
    rw [text, text, kind_unnamed, children, below_unnamed, entry_unnamed, Option.map_map, funext ih]
    rfl

@[simp]
theorem value_unnamed (n : Nat) : o.unnamed.value n = o.value n := by
  rw [value, value, kind_unnamed, size_unnamed, text_unnamed, entry_unnamed, Option.map_map]
  rfl

variable {o}

/-- Outlines that differ in the names of wrappers only. -/
theorem redressed {o' : Outline} {wrapper : Option String → Bool} (h : o.unnamed = o'.unnamed)
    (hnames : ∀ n < o.size, o.document.isWrapper wrapper n = false → o.document.baseName n = o'.document.baseName n) :
    o.document.Redressed o'.document wrapper Eq := by
  have kind (n : Nat) : o.kind n = o'.kind n := by
    rw [← kind_unnamed, h, kind_unnamed]
  have below (attributes : Bool) (n : Nat) : o.below attributes n = o'.below attributes n := by
    rw [← below_unnamed, h, below_unnamed]
  have value (n : Nat) : o.value n = o'.value n := by
    rw [← value_unnamed, h, value_unnamed]
  have names (n : Nat) (hn : o.document.isWrapper wrapper n = false) : o.document.baseName n = o'.document.baseName n := by
    by_cases inside : n < o.size
    · exact hnames n inside hn
    · have size : o.size = o'.size := by
        rw [← size_unnamed, h, size_unnamed]
      have nameless (u : Outline) (hu : u.size ≤ n) : u.document.baseName n = "" := by
        have none : u.document.name n = none := congrArg (·.bind Entry.name) (Array.getElem?_eq_none hu)
        rw [Document.baseName, none]
      rw [nameless o (by omega), nameless o' (by omega)]
  refine .of_eq kind (fun n => ?_) (fun n => ?_) (below false) value (below true) kind_of_mem_attributes names
  · rw [← uri_unnamed, h, uri_unnamed]
  · change o.parent n = o'.parent n
    rw [← parent_unnamed, h, parent_unnamed]

/-- An element `b` behind one of another namespace, both in an element `t`. -/
def pair (name : String) : Outline :=
  empty
    |>.addElement 0 "t" none
    |>.addElement 1 name (some "urn:w")
    |>.addElement 1 "b" none

end Outline

namespace Document

/-! ## Where wrappers are mentioned -/

section Lengthened

variable (d : Document ν) (wrapper : Option String → Bool)

/-- The document with a longer name for every wrapper. -/
def lengthened : Document ν :=
  { d with name := fun n => if d.isWrapper wrapper n then some ⟨none, d.baseName n ++ "x"⟩ else d.name n }

variable {d wrapper}

theorem baseName_lengthened (n : ν) : (d.lengthened wrapper).baseName n =
    if d.isWrapper wrapper n then d.baseName n ++ "x" else d.baseName n := by
  unfold lengthened
  cases h : d.isWrapper wrapper n <;> simp [baseName, h]

/-- The texts are as many as before, and they have `k` characters more. -/
structure Longer (k : Nat) (ts ts' : List String) : Prop where
  count : ts'.length = ts.length
  total : (ts'.map String.length).sum = (ts.map String.length).sum + k

theorem Longer.refl (ts : List String) : Longer 0 ts ts := ⟨rfl, rfl⟩

theorem Longer.append {k l : Nat} {ts ts' us us' : List String} (h : Longer k ts ts') (h' : Longer l us us') :
    Longer (k + l) (ts ++ us) (ts' ++ us') := by
  refine ⟨?_, ?_⟩
  · rw [List.length_append, List.length_append, h.count, h'.count]
  · rw [List.map_append, List.map_append, List.sum_append, List.sum_append, h.total, h'.total]
    omega

theorem length_intercalate (sep : String) : ∀ ts : List String,
    (sep.intercalate ts).length = (ts.map String.length).sum + sep.length * (ts.length - 1)
  | [] => rfl
  | [t] => by simp
  | t :: u :: ts => by
    have rest := length_intercalate sep (u :: ts)
    rw [String.intercalate_cons_cons, String.length_append, String.length_append, rest]
    simp only [List.map_cons, List.sum_cons, List.length_cons, Nat.add_sub_cancel, Nat.mul_succ]
    omega

theorem Longer.intercalate {k : Nat} {ts ts' : List String} (h : Longer k ts ts') (sep : String) :
    (sep.intercalate ts').length = (sep.intercalate ts).length + k := by
  rw [length_intercalate, length_intercalate, h.count, h.total]
  omega

/-- What stands in front of all texts makes no difference. -/
theorem Longer.map {k : Nat} {ts ts' : List String} (h : Longer k ts ts') (side : String) :
    Longer k (ts.map (side ++ ·)) (ts'.map (side ++ ·)) := by
  have total (us : List String) :
      ((us.map (side ++ ·)).map String.length).sum = us.length * side.length + (us.map String.length).sum := by
    induction us with
    | nil => simp
    | cons u us ih =>
      simp only [List.map_cons, List.sum_cons, List.length_cons, String.length_append, ih, Nat.succ_mul]
      omega
  refine ⟨?_, ?_⟩
  · rw [List.length_map, List.length_map, h.count]
  · rw [total, total, h.count, h.total]
    omega

variable (hattributes : ∀ n, ∀ a ∈ d.attributes n, d.kind a = .attribute)

include hattributes

theorem attributeTests_lengthened (n : ν) : ((d.lengthened wrapper).attributes n).map (d.lengthened wrapper).attributeTest =
    (d.attributes n).map d.attributeTest := by
  refine List.map_congr_left fun a ha => ?_
  rw [attributeTest, attributeTest, baseName_lengthened, isWrapper_attribute wrapper (hattributes n a ha)]
  rfl

/-- A sibling is mentioned as before, a wrapper with one character more. -/
theorem longer_mention (n : ν) : Longer (if d.isWrapper wrapper n then 1 else 0) (d.mention n).toList
    ((d.lengthened wrapper).mention n).toList := by
  have kind : (d.lengthened wrapper).kind n = d.kind n := rfl
  have value : (d.lengthened wrapper).value n = d.value n := rfl
  unfold mention
  rw [kind, value, attributeTests_lengthened hattributes, baseName_lengthened]
  by_cases hk : d.kind n = .element
  · rw [hk]
    dsimp only
    generalize (d.attributes n).map d.attributeTest = tests
    have one : "x".length = 1 := rfl
    cases d.isWrapper wrapper n with
    | false => exact .refl _
    | true =>
      refine ⟨rfl, ?_⟩
      cases tests with
      | nil => simp [one]
      | cons t tests =>
        simp [one]
        omega
  · have noWrapper : d.isWrapper wrapper n = false := by
      rw [isWrapper, decide_eq_false hk, Bool.false_and]
    rw [noWrapper]
    exact .refl _

theorem longer_mentions (ns : List ν) : Longer (ns.countP (d.isWrapper wrapper)) (ns.filterMap d.mention)
    (ns.filterMap (d.lengthened wrapper).mention) := by
  induction ns with
  | nil => exact .refl []
  | cons n ns ih =>
    have parts (f : ν → Option String) : (n :: ns).filterMap f = (f n).toList ++ ns.filterMap f := by
      cases hf : f n <;> simp [hf]
    rw [List.countP_cons, Nat.add_comm, parts, parts]
    exact (longer_mention hattributes n).append ih

/-- A document with longer names for wrappers differs in nothing else. -/
theorem redressed_lengthened : Redressed d (d.lengthened wrapper) wrapper Eq := by
  refine .of_eq (fun _ => rfl) (fun _ => rfl) (fun _ => rfl) (fun _ => rfl) (fun _ => rfl) (fun _ => rfl) hattributes
    fun n hn => ?_
  rw [baseName_lengthened, hn]
  rfl

variable [DecidableEq ν]

/-- Of an element that is described the same is asked, with one character more for every wrapper beside it. -/
theorem longer_conditions {n : ν} (hn : d.isDescribed wrapper n = true) :
    Longer (d.wrappersBeside wrapper n).length (d.conditions n) ((d.lengthened wrapper).conditions n) := by
  have noWrapper : d.isWrapper wrapper n = false := by
    unfold isDescribed at hn
    rw [Bool.and_eq_true, Bool.not_eq_true'] at hn
    rw [isWrapper, hn.2, Bool.and_false]
  have siblings : (d.lengthened wrapper).siblings n = d.siblings n := rfl
  have beside : (d.wrappersBeside wrapper n).length =
      0 + (d.siblings n).1.countP (d.isWrapper wrapper) + (d.siblings n).2.countP (d.isWrapper wrapper) := by
    rw [wrappersBeside_eq, List.length_append, List.length_reverse, ← List.countP_eq_length_filter,
      ← List.countP_eq_length_filter, Nat.zero_add]
  unfold conditions
  rw [siblings, baseName_lengthened, noWrapper, attributeTests_lengthened hattributes, beside]
  exact ((Longer.refl _).append ((longer_mentions hattributes _).map _)).append ((longer_mentions hattributes _).map _)

/-- **A description gets longer with the names of the wrappers** beside the elements that are described. -/
theorem length_nested {ns : List ν} (h : ∀ n ∈ ns, d.isDescribed wrapper n = true) :
    ((d.lengthened wrapper).nested ns).length =
      (d.nested ns).length + (ns.map fun n => (d.wrappersBeside wrapper n).length).sum := by
  induction ns with
  | nil => rfl
  | cons n above ih =>
    have own := longer_conditions hattributes (h n List.mem_cons_self)
    have rest := ih fun m hm => h m (List.mem_cons_of_mem n hm)
    have further : Longer (above.map fun m => (d.wrappersBeside wrapper m).length).sum
        (if above.isEmpty then [] else [d.nested above])
        (if above.isEmpty then [] else [(d.lengthened wrapper).nested above]) := by
      cases above with
      | nil => exact .refl []
      | cons m above => exact ⟨by simp, by simpa using rest⟩
    rw [nested_cons, nested_cons, String.length_append, String.length_append, String.length_append, String.length_append,
      (own.append further).intercalate, List.map_cons, List.sum_cons]
    omega

omit hattributes in
/-- The way up is the same. -/
theorem described_lengthened (source boundary : ν) :
    (d.lengthened wrapper).described wrapper source boundary = d.described wrapper source boundary := by
  have climb : ∀ (i : Nat) (n : ν), (d.lengthened wrapper).climb boundary i n = d.climb boundary i n := by
    intro i
    induction i with
    | zero => exact fun _ => rfl
    | succ i ih =>
      intro n
      have kind : (d.lengthened wrapper).kind n = d.kind n := rfl
      have parent : (d.lengthened wrapper).parent n = d.parent n := rfl
      rw [Document.climb, Document.climb, kind, parent]
      simp only [ih]
  exact congrArg (List.filter (d.isDescribed wrapper)) (climb _ source)

/-- **A description says nothing about wrappers** exactly if none stands beside an element that is described: then, and
only then, it is the same in all documents that differ in the names and the attributes of wrappers at most. -/
theorem surroundings_kept_iff (source boundary : ν) :
    (∀ (μ : Type) [DecidableEq μ] (d' : Document μ) (R : ν → μ → Prop) (source' boundary' : μ), Redressed d d' wrapper R →
      R source source' → R boundary boundary' →
        d.surroundings wrapper source boundary = d'.surroundings wrapper source' boundary') ↔
      ∀ n ∈ d.described wrapper source boundary, d.wrappersBeside wrapper n = [] := by
  constructor
  · intro kept n hn
    have same : d.surroundings wrapper source boundary = (d.lengthened wrapper).nested (d.described wrapper source boundary) := by
      rw [← described_lengthened]
      exact (kept ν (d.lengthened wrapper) Eq source boundary (redressed_lengthened hattributes) rfl rfl).trans
        (surroundings_eq_nested ..)
    have longer := length_nested hattributes fun m (hm : m ∈ d.described wrapper source boundary) => (List.mem_filter.1 hm).2
    have length : (d.surroundings wrapper source boundary).length = (d.nested (d.described wrapper source boundary)).length :=
      congrArg String.length (surroundings_eq_nested ..)
    rw [← same, length, Nat.left_eq_add, List.sum_eq_zero_iff_forall_eq_nat] at longer
    exact List.eq_nil_of_length_eq_zero (longer _ (List.mem_map_of_mem hn))
  · intro none μ _ d' R source' boundary' h hsource hboundary
    exact h.surroundings hsource hboundary none

end Lengthened

/-- The instruction in the sample stands in a `span` in a `div`, and neither of these has an instruction beside it. -/
theorem surroundings_kept_iff_sample :
    (∀ n, ∀ a ∈ Outline.sample.document.attributes n, Outline.sample.document.kind a = .attribute) ∧
      ∀ (μ : Type) [DecidableEq μ] (d : Document μ) (R : Nat → μ → Prop) (source boundary : μ),
        Redressed Outline.sample.document d (· == some Instruction.uri) R → R 9 source → R 1 boundary →
          Outline.sample.document.surroundings (· == some Instruction.uri) 9 1 =
            d.surroundings (· == some Instruction.uri) source boundary :=
  ⟨Outline.kind_of_mem_attributes, (surroundings_kept_iff Outline.kind_of_mem_attributes 9 1).2 (by decide +kernel)⟩

/-- Beside an element that is described, the name of a wrapper is seen. -/
theorem surroundings_not_kept :
    Redressed (Outline.pair "w:a").document (Outline.pair "w:c").document (· == some "urn:w") Eq ∧
      (Outline.pair "w:a").document.surroundings (· == some "urn:w") 3 1 =
        "parent::node()[name()='b' and preceding-sibling::a]" ∧
      (Outline.pair "w:c").document.surroundings (· == some "urn:w") 3 1 =
        "parent::node()[name()='b' and preceding-sibling::c]" :=
  ⟨Outline.redressed (congrArg Outline.mk (by decide +kernel)) (by decide +kernel), by decide +kernel, by decide +kernel⟩

end Document

end StylesheetReversal
