import Mathlib.Data.List.Nodup
import Mathlib.Data.List.Perm.Subperm
import StylesheetReversal.Proofs.Draft.Visits
import StylesheetReversal.Reversal
/-!
# The attributes of start tags

Setting an attribute again replaces its value, so that the attributes of an element never repeat a name, whatever is done
to a draft (`Draft.distinct_run`).  Declaring a namespace adds one more to the declarations, and these stand in the start
tag of the root together with its own attributes.  So no start tag repeats an attribute exactly if no qualifier was
declared twice, and none both declared and set as an attribute of the root (`Draft.startTags_distinct_iff`).
-/
namespace StylesheetReversal

namespace Xml

/-! ## The tags of a document -/

/-- What a document is written from: tags, and in front of each what begins its line. -/
inductive Markup
  | line (depth : Nat)
  | opening (name : String) (attributes : List (String × String))
  | single (name : String) (attributes : List (String × String))
  | closing (name : String)

namespace Markup

def write (indent : Option Nat) : Markup → String
  | .line depth => Element.lineStart indent depth
  | .opening name attributes => "<" ++ name ++ String.join (attributes.map Element.writeAttribute) ++ ">"
  | .single name attributes => "<" ++ name ++ String.join (attributes.map Element.writeAttribute) ++ "/>"
  | .closing name => "</" ++ name ++ ">"

/-- The attributes in a start tag. -/
def attributes : Markup → List (String × String)
  | .opening _ attributes | .single _ attributes => attributes
  | .line _ | .closing _ => []

/-- No two attributes have the same name. -/
def Distinct (m : Markup) : Prop := (m.attributes.map Prod.fst).Nodup

end Markup

namespace Element

mutual

/-- The tags of an element and of all elements in it. -/
def markup (depth : Nat) : Element → List Markup
  | .mk name attributes children =>
    if children.isEmpty then [.line depth, .single name attributes]
    else .line depth :: .opening name attributes :: (markupOfAll (depth + 1) children ++ [.line depth, .closing name])

def markupOfAll (depth : Nat) : List Element → List Markup
  | [] => []
  | c :: cs => markup depth c ++ markupOfAll depth cs

end

mutual

/-- **An element is written tag by tag.** -/
theorem write_eq_markup (indent : Option Nat) (depth : Nat) : ∀ e : Element,
    write indent depth e = String.join ((markup depth e).map (Markup.write indent))
  | .mk name attributes children => by
    rw [write, markup]
    split
    · simp only [List.map_cons, List.map_nil, String.join_cons, String.join_nil, Markup.write, String.append_assoc,
        String.append_empty]
    · rw [writeAll_eq_markup indent (depth + 1) children]
      simp only [List.map_cons, List.map_nil, List.map_append, String.join_cons, String.join_nil, String.join_append,
        Markup.write, String.append_assoc, String.append_empty]

theorem writeAll_eq_markup (indent : Option Nat) (depth : Nat) : ∀ cs : List Element,
    writeAll indent depth cs = String.join ((markupOfAll depth cs).map (Markup.write indent))
  | [] => rfl
  | c :: cs => by
    rw [writeAll, markupOfAll, List.map_append, String.join_append, write_eq_markup indent depth c,
      writeAll_eq_markup indent depth cs]

end

/-- The start tags are distinct if that of the element itself is, and those of all elements in it. -/
theorem distinct_markup_iff {name : String} {attributes : List (String × String)} {children : List Element} {depth : Nat}
    (hchildren : ∀ m ∈ markupOfAll (depth + 1) children, m.Distinct) :
    (∀ m ∈ markup depth (.mk name attributes children), m.Distinct) ↔ (attributes.map Prod.fst).Nodup := by
  have none : ∀ m ∈ [.line depth, .closing name], Markup.Distinct m := by
    simp [Markup.Distinct, Markup.attributes]
  rw [markup]
  split
  · simp [Markup.Distinct, Markup.attributes]
  · constructor
    · intro all
      exact all (.opening name attributes) (by simp)
    · intro own m hm
      simp only [List.mem_cons, List.mem_append] at hm
      rcases hm with rfl | rfl | hm | hm
      · exact none _ (by simp)
      · exact own
      · exact hchildren m hm
      · exact none m (by simpa using hm)

end Element

end Xml

namespace Draft

open StylesheetReversal.Xml StylesheetReversal.Path

/-! ## What can be done to a draft -/

/-- One step of drafting.  A skeleton is made of the elements that a path asks for. -/
inductive Operation
  | create (name : String)
  | append (parent child : Nat)
  | setAttribute (element : Nat) (name value : String)
  | setRoot (element : Nat)
  | declare (qualifier uri : String)
  | synthesize (rootName : String) (path : Expr)

namespace Operation

def apply (d : Draft) : Operation → Draft
  | .create name => (d.create name).2
  | .append parent child => d.append parent child
  | .setAttribute element name value => d.setAttribute element name value
  | .setRoot element => d.setRoot element
  | .declare qualifier uri => d.declare qualifier uri
  | .synthesize rootName path => (Skeleton.make Reversal.factory rootName path d).2

end Operation

/-- The draft after some operations. -/
def run (operations : List Operation) : Draft := operations.foldl Operation.apply empty

/-- No element has two attributes of the same name. -/
def Distinct (d : Draft) : Prop := ∀ i e, d.entry? i = some e → (e.attributes.map Prod.fst).Nodup

section Steps

variable {d : Draft} (h : d.Distinct)

include h

theorem Distinct.create (name : String) : Distinct (d.create name).2 := by
  intro i e he
  rw [entry?_create] at he
  split at he
  · cases he
    exact .nil
  · exact h i e he

theorem Distinct.update (element : Nat) {change : Entry → Entry}
    (hchange : ∀ e, (e.attributes.map Prod.fst).Nodup → ((change e).attributes.map Prod.fst).Nodup) :
    (d.update element change).Distinct := by
  intro i e he
  rw [entry?_update] at he
  split at he
  · obtain ⟨e', he', rfl⟩ := Option.map_eq_some_iff.1 he
    exact hchange e' (h i e' he')
  · exact h i e he

theorem Distinct.append (parent child : Nat) : (d.append parent child).Distinct := h.update parent fun _ he => he

theorem Distinct.setAttribute (element : Nat) (name value : String) : (d.setAttribute element name value).Distinct :=
  h.update element fun _ he => nodup_put name value he

end Steps

theorem Distinct.chain : ∀ (names : List String) (leaf : Nat) {d : Draft}, d.Distinct →
    (Skeleton.chain Reversal.factory leaf names d).2.Distinct
  | [], _, _, h => h
  | name :: names, leaf, d, h => by
    rw [Skeleton.chain]
    exact Distinct.chain names _ ((h.create name).append leaf _)

theorem Distinct.make {d : Draft} (h : d.Distinct) (rootName : String) (path : Expr) :
    (Skeleton.make Reversal.factory rootName path d).2.Distinct := by
  unfold Skeleton.make
  split
  · exact Distinct.chain _ _ (h.create _)
  · exact h

/-- Every operation keeps the attributes of all elements distinct. -/
theorem Distinct.apply {d : Draft} (h : d.Distinct) : ∀ operation : Operation, (operation.apply d).Distinct
  | .create name => h.create name
  | .append parent child => h.append parent child
  | .setAttribute element name value => h.setAttribute element name value
  | .setRoot _ => h
  | .declare _ _ => h
  | .synthesize rootName path => h.make rootName path

/-- **The attributes of an element never repeat a name**, whatever is done to a draft. -/
theorem distinct_run (operations : List Operation) : (run operations).Distinct := by
  have from_any : ∀ (operations : List Operation) (d : Draft), d.Distinct →
      (operations.foldl Operation.apply d).Distinct := by
    intro operations
    induction operations with
    | nil => exact fun _ h => h
    | cons operation operations ih => exact fun d h => ih _ (h.apply operation)
  refine from_any operations empty fun i e he => ?_
  unfold entry? empty at he
  rw [Array.getElem?_empty] at he
  cases he

/-! ## Without circles -/

/-- Below the element all that is linked exists, and no chain of links comes back to where it started. -/
structure Acyclic (d : Draft) (r : Nat) : Prop where
  inside : ∀ i, d.Reaches r i → i < d.size
  noCircle : ∀ i, d.Reaches r i → ∀ j ∈ d.childrenOf i, ¬ d.Reaches j i

variable {d : Draft} {r : Nat}

/-- There are no circles where elements are linked below earlier ones. -/
theorem Acyclic.of_ordered (hr : r < d.size) (h : ∀ i < d.size, ∀ k ∈ d.childrenOf i, i < k ∧ k < d.size) :
    d.Acyclic r := by
  have later : ∀ {i j : Nat}, i < d.size → d.Reaches i j → i ≤ j ∧ j < d.size := by
    intro i j hi hij
    induction hij with
    | refl => exact ⟨Nat.le_refl i, hi⟩
    | tail _ hlink ih =>
      have := h _ ih.2 _ hlink
      exact ⟨by omega, this.2⟩
  refine ⟨fun i hi => (later hr hi).2, fun i hi j hj hji => ?_⟩
  have below := h i (later hr hi).2 j hj
  have back := later below.2 hji
  omega

/-- **Without circles everything linked below an element is written.**  The elements above one another, `seen` on the
way down, are all different, so that there are no more levels than elements. -/
theorem Acyclic.unfolds_tree (h : d.Acyclic r) : ∀ {depth i : Nat} {seen : List Nat}, seen.Nodup →
    (∀ s ∈ seen, s < d.size ∧ ∃ j ∈ d.childrenOf s, d.Reaches j i) → d.Reaches r i → d.size < depth + seen.length →
    d.Unfolds i (d.tree depth i) := by
  intro depth i seen hnodup hseen hi hdepth
  have new : i ∉ seen := by
    intro hmem
    obtain ⟨-, j, hj, hji⟩ := hseen i hmem
    exact h.noCircle i hi j hj hji
  have distinct : (i :: seen).Nodup := List.nodup_cons.2 ⟨new, hnodup⟩
  have bounded : i :: seen ⊆ List.range d.size := by
    intro s hs
    rcases List.mem_cons.1 hs with rfl | hs
    · exact List.mem_range.2 (h.inside s hi)
    · exact List.mem_range.2 (hseen s hs).1
  have room := (distinct.subperm bounded).length_le
  rw [List.length_range, List.length_cons] at room
  cases depth with
  | zero => omega
  | succ depth =>
    obtain ⟨e, he⟩ := entry?_of_lt (h.inside i hi)
    have children : ∀ c ∈ e.children, d.Unfolds c (d.tree depth c) := by
      intro c hc
      have link : c ∈ d.childrenOf i := by
        rw [childrenOf_eq he]
        exact hc
      refine h.unfolds_tree distinct (fun s hs => ?_) (hi.tail link) (by rw [List.length_cons]; omega)
      rcases List.mem_cons.1 hs with rfl | hs
      · exact ⟨h.inside s hi, c, link, .refl⟩
      · obtain ⟨hlt, j, hj, hji⟩ := hseen s hs
        exact ⟨hlt, j, hj, hji.tail link⟩
    rw [tree, he]
    exact .entry he (unfoldsAll_map children)

mutual

theorem Unfolds.distinct (h : d.Distinct) : ∀ {i : Nat} {c : Element} (depth : Nat), d.Unfolds i c →
    ∀ m ∈ c.markup depth, m.Distinct
  | _, _, depth, .entry he hchildren =>
    (Element.distinct_markup_iff (hchildren.distinct h (depth + 1))).2 (h _ _ he)

theorem UnfoldsAll.distinct (h : d.Distinct) : ∀ {is : List Nat} {cs : List Element} (depth : Nat), d.UnfoldsAll is cs →
    ∀ m ∈ Element.markupOfAll depth cs, m.Distinct
  | _, _, _, .nil => nofun
  | _, _, depth, .cons hfirst hrest => by
    intro m hm
    rw [Element.markupOfAll, List.mem_append] at hm
    exact hm.elim (hfirst.distinct h depth m) (hrest.distinct h depth m)

end

/-! ## The start tag of the root -/

theorem nodup_declarations_append_iff {attributes : List (String × String)} (h : (attributes.map Prod.fst).Nodup) :
    ((d.declarations ++ attributes).map Prod.fst).Nodup ↔ (d.declared.map Prod.fst).Nodup ∧
      ∀ q ∈ d.declared.map Prod.fst, "xmlns:" ++ q ∉ attributes.map Prod.fst := by
  have names : d.declarations.map Prod.fst = (d.declared.map Prod.fst).map ("xmlns:" ++ ·) := by
    rw [declarations, List.map_map, List.map_map]
    rfl
  have injective : Function.Injective ("xmlns:" ++ · : String → String) := fun _ _ hqq => String.append_right_inj _ |>.1 hqq
  rw [List.map_append, names, List.nodup_append, List.nodup_map_iff injective]
  constructor
  · rintro ⟨hdeclared, -, hapart⟩
    exact ⟨hdeclared, fun q hq hmem => hapart _ (List.mem_map_of_mem hq) _ hmem rfl⟩
  · rintro ⟨hdeclared, hapart⟩
    refine ⟨hdeclared, h, fun k hk l hl hkl => ?_⟩
    obtain ⟨q, hq, rfl⟩ := List.mem_map.1 hk
    exact hapart q hq (hkl ▸ hl)

/-- **No start tag repeats an attribute** exactly if no qualifier was declared twice, and none was declared that is also
set as an attribute of the root.  In any case the attributes of all other elements are distinct. -/
theorem startTags_distinct_iff (operations : List Operation) (hd : run operations = d) (hroot : d.root = some r)
    (hacyclic : d.Acyclic r) : ∃ name attributes children,
      d.Unfolds r (.mk name attributes children) ∧
      (∀ indent, d.write indent = Element.declaration ++ String.join
        ((Element.markup 0 (.mk name (d.declarations ++ attributes) children)).map (Markup.write indent))) ∧
      (∀ m ∈ Element.markupOfAll 1 children, m.Distinct) ∧
      ((∀ m ∈ Element.markup 0 (.mk name (d.declarations ++ attributes) children), m.Distinct) ↔
        (d.declared.map Prod.fst).Nodup ∧ ∀ q ∈ d.declared.map Prod.fst, "xmlns:" ++ q ∉ attributes.map Prod.fst) := by
  have distinct : d.Distinct := hd ▸ distinct_run operations
  have unfolds : d.Unfolds r (d.tree (d.size + 1) r) := hacyclic.unfolds_tree .nil (List.forall_mem_nil _) .refl (by simp)
  cases htree : d.tree (d.size + 1) r with
  | mk name attributes children =>
    rw [htree] at unfolds
    have inside : ∀ m ∈ Element.markupOfAll 1 children, m.Distinct := by
      cases unfolds with
      | entry _ hchildren => exact hchildren.distinct distinct 1
    have own : (attributes.map Prod.fst).Nodup := by
      cases unfolds with
      | entry he _ => exact distinct r _ he
    refine ⟨name, attributes, children, unfolds, fun indent => ?_, inside, ?_⟩
    · rw [write, document, hroot, Option.map_some, htree, Element.writeDocument, Element.write_eq_markup]
    · rw [Element.distinct_markup_iff inside, nodup_declarations_append_iff own]

/-- An element in another, with an attribute that is set twice and a namespace. -/
def declaredOnce : List Operation :=
  [.create "a", .declare "p" "u", .create "b", .setRoot 0, .append 0 1, .setAttribute 1 "k" "1", .setAttribute 1 "k" "2"]

theorem startTags_distinct_iff_once : ∃ d, run declaredOnce = d ∧ d.root = some 0 ∧ d.Acyclic 0 ∧
    ∃ name attributes children, d.Unfolds 0 (.mk name attributes children) ∧
      (∀ indent, d.write indent = Element.declaration ++ String.join
        ((Element.markup 0 (.mk name (d.declarations ++ attributes) children)).map (Markup.write indent))) ∧
      (∀ m ∈ Element.markupOfAll 1 children, m.Distinct) ∧
      ((∀ m ∈ Element.markup 0 (.mk name (d.declarations ++ attributes) children), m.Distinct) ↔
        (d.declared.map Prod.fst).Nodup ∧ ∀ q ∈ d.declared.map Prod.fst, "xmlns:" ++ q ∉ attributes.map Prod.fst) := by
  have acyclic : (run declaredOnce).Acyclic 0 := .of_ordered (by decide) (by decide)
  exact ⟨_, rfl, rfl, acyclic, startTags_distinct_iff declaredOnce rfl rfl acyclic⟩

/-- An element on which the same namespace is declared twice. -/
def declaredTwice : List Operation := [.create "a", .declare "p" "u", .declare "p" "u", .setRoot 0]

/-- A start tag can repeat an attribute. -/
theorem startTag_repeats : (run declaredTwice).root = some 0 ∧ (run declaredTwice).Acyclic 0 ∧
    (run declaredTwice).write none = "<?xml version=\"1.0\" encoding=\"UTF-8\"?><a xmlns:p=\"u\" xmlns:p=\"u\"/>" ∧
    (∃ e, (run declaredTwice).document = some e ∧ ¬ ∀ m ∈ e.markup 0, m.Distinct) := by
  have acyclic : (run declaredTwice).Acyclic 0 := .of_ordered (by decide) (by decide)
  refine ⟨rfl, acyclic, by decide +kernel, _, rfl, fun distinct => ?_⟩
  have tag := distinct (.single "a" [("xmlns:p", "u"), ("xmlns:p", "u")]) (List.mem_cons_of_mem _ (List.mem_singleton_self _))
  exact absurd tag (by simp [Markup.Distinct, Markup.attributes])

end Draft

end StylesheetReversal
