import StylesheetReversal.Draft
import StylesheetReversal.Proofs.Skeleton
import StylesheetReversal.Proofs.Xml.ReadBack
/-!
# Drafts that can be written

In a draft that is put together in order, every element is linked below one that was created before it
(`Draft.Sound`).  So no chain of links comes back to where it started, and what is written is all that is linked
below the root (`Draft.Sound.unfolds_tree`).
-/
namespace StylesheetReversal

open StylesheetReversal.Xml

namespace Draft

/-! ## One change -/

section Changes

variable (d : Draft) (i j : Nat)

@[simp] theorem size_create (name : String) : (d.create name).2.size = d.size + 1 := Array.size_push _

@[simp] theorem size_update (change : Entry → Entry) : (d.update i change).size = d.size := Array.size_modify

@[simp] theorem size_append : (d.append i j).size = d.size := d.size_update i _

@[simp] theorem size_setAttribute (name value : String) : (d.setAttribute i name value).size = d.size := d.size_update i _

theorem entry?_create (name : String) :
    entry? (d.create name).2 i = if i = d.size then some ⟨name, [], []⟩ else d.entry? i :=
  Array.getElem?_push

theorem entry?_update (change : Entry → Entry) :
    entry? (d.update i change) j = if i = j then (d.entry? j).map change else d.entry? j :=
  Array.getElem?_modify

theorem entry?_of_lt {d : Draft} {i : Nat} (h : i < d.size) : ∃ e, d.entry? i = some e :=
  ⟨d.entries[i], Array.getElem?_eq_getElem h⟩

end Changes

theorem put_keys (key value : String) : ∀ attributes : List (String × String),
    (put key value attributes).map Prod.fst = attributes.map Prod.fst ∨
      key ∉ attributes.map Prod.fst ∧ (put key value attributes).map Prod.fst = attributes.map Prod.fst ++ [key]
  | [] => .inr ⟨nofun, rfl⟩
  | (k, v) :: rest => by
    rw [put]
    by_cases hk : k = key
    · rw [if_pos hk]
      exact .inl rfl
    · rw [if_neg hk]
      rcases put_keys key value rest with h | ⟨hnew, h⟩
      · refine .inl ?_
        rw [List.map_cons, h, List.map_cons]
      · refine .inr ⟨fun hmem => ?_, ?_⟩
        · rcases List.mem_cons.1 hmem with rfl | hmem
          · exact hk rfl
          · exact hnew hmem
        · rw [List.map_cons, h, List.map_cons, List.cons_append]

theorem mem_put {key value : String} : ∀ {attributes : List (String × String)}, ∀ a ∈ put key value attributes,
    a = (key, value) ∨ a ∈ attributes
  | [], _, ha => .inl (List.mem_singleton.1 ha)
  | (k, v) :: rest, a, ha => by
    rw [put] at ha
    split at ha
    · next hk =>
      subst hk
      rcases List.mem_cons.1 ha with ha | ha
      · exact .inl ha
      · exact .inr (List.mem_cons_of_mem _ ha)
    · rcases List.mem_cons.1 ha with ha | ha
      · exact .inr (ha ▸ List.mem_cons_self)
      · exact (mem_put a ha).imp_right (List.mem_cons_of_mem _)

/-- Setting a value keeps the keys distinct. -/
theorem nodup_put (key value : String) {attributes : List (String × String)} (h : (attributes.map Prod.fst).Nodup) :
    ((put key value attributes).map Prod.fst).Nodup := by
  rcases put_keys key value attributes with hkeys | ⟨hnew, hkeys⟩
  · rw [hkeys]
    exact h
  · rw [hkeys, List.nodup_append]
    refine ⟨h, List.pairwise_singleton _ _, fun k hk l hl => ?_⟩
    rw [List.mem_singleton] at hl
    subst hl
    rintro rfl
    exact hnew hk

theorem fitAttributes_put {attributes : List (String × String)} {a : String × String}
    (h : Element.FitAttributes attributes) (ha : Element.FitAttribute a) : Element.FitAttributes (put a.1 a.2 attributes) := by
  refine ⟨fun b hb => ?_, nodup_put a.1 a.2 h.distinct⟩
  rcases mem_put b hb with rfl | hb
  · exact ha
  · exact h.fit b hb

/-! ## Sound drafts -/

/-- Every element is linked below earlier ones only, and its name and attributes can be written and read back. -/
structure Sound (d : Draft) : Prop where
  ordered : ∀ i e, d.entry? i = some e → ∀ c ∈ e.children, i < c ∧ c < d.size
  name : ∀ i e, d.entry? i = some e → IsWritten e.name
  attributes : ∀ i e, d.entry? i = some e → Element.FitAttributes e.attributes

/-- `d'` is sound and has all the elements of `d`, the same root and the same namespaces. -/
structure Grows (d d' : Draft) : Prop where
  sound : d'.Sound
  size : d.size ≤ d'.size
  root : d'.root = d.root
  declared : d'.declared = d.declared

variable {d d' : Draft} {i j : Nat}

theorem Sound.grows (h : d.Sound) : d.Grows d := ⟨h, Nat.le_refl _, rfl, rfl⟩

theorem Grows.trans {d'' : Draft} (h : d.Grows d') (h' : d'.Grows d'') : d.Grows d'' :=
  ⟨h'.sound, Nat.le_trans h.size h'.size, h'.root.trans h.root, h'.declared.trans h.declared⟩

theorem Sound.create (h : d.Sound) {name : String} (hname : IsWritten name) : d.Grows (d.create name).2 := by
  have entries : ∀ i e, entry? (d.create name).2 i = some e → e = ⟨name, [], []⟩ ∨ d.entry? i = some e := by
    intro i e he
    rw [entry?_create] at he
    split at he
    · cases he
      exact .inl rfl
    · exact .inr he
  refine ⟨⟨fun i e he c hc => ?_, fun i e he => ?_, fun i e he => ?_⟩, ?_, rfl, rfl⟩
  · rw [size_create]
    rcases entries i e he with rfl | he
    · cases hc
    · have := h.ordered i e he c hc
      omega
  · rcases entries i e he with rfl | he
    · exact hname
    · exact h.name i e he
  · rcases entries i e he with rfl | he
    · exact ⟨nofun, List.nodup_nil⟩
    · exact h.attributes i e he
  · rw [size_create]
    exact Nat.le_succ _

/-- Changing an element keeps a draft sound if what it becomes is fine. -/
theorem Sound.update (h : d.Sound) {change : Entry → Entry}
    (hchildren : ∀ e, d.entry? i = some e → ∀ c ∈ (change e).children, i < c ∧ c < d.size)
    (hname : ∀ e, (change e).name = e.name)
    (hattributes : ∀ e, Element.FitAttributes e.attributes → Element.FitAttributes (change e).attributes) :
    d.Grows (d.update i change) := by
  have entries : ∀ j e, entry? (d.update i change) j = some e →
      d.entry? j = some e ∨ i = j ∧ ∃ e', d.entry? j = some e' ∧ e = change e' := by
    intro j e he
    rw [entry?_update] at he
    split at he
    · next hij =>
      obtain ⟨e', he', rfl⟩ := Option.map_eq_some_iff.1 he
      exact .inr ⟨hij, e', he', rfl⟩
    · exact .inl he
  refine ⟨⟨fun j e he c hc => ?_, fun j e he => ?_, fun j e he => ?_⟩, ?_, rfl, rfl⟩
  · rw [size_update]
    rcases entries j e he with he | ⟨rfl, e', he', rfl⟩
    · exact h.ordered j e he c hc
    · exact hchildren e' he' c hc
  · rcases entries j e he with he | ⟨rfl, e', he', rfl⟩
    · exact h.name j e he
    · rw [hname]
      exact h.name i e' he'
  · rcases entries j e he with he | ⟨rfl, e', he', rfl⟩
    · exact h.attributes j e he
    · exact hattributes e' (h.attributes i e' he')
  · exact Nat.le_of_eq (d.size_update i change).symm

theorem Sound.append (h : d.Sound) (hij : i < j) (hj : j < d.size) : d.Grows (d.append i j) := by
  refine h.update (fun e he c hc => ?_) (fun _ => rfl) fun _ hfit => hfit
  rcases List.mem_append.1 hc with hc | hc
  · exact h.ordered i e he c hc
  · rw [List.mem_singleton] at hc
    subst hc
    exact ⟨hij, hj⟩

theorem Sound.setAttribute (h : d.Sound) {name value : String} (ha : Element.FitAttribute (name, value)) :
    d.Grows (d.setAttribute i name value) :=
  h.update (fun e he => h.ordered i e he) (fun _ => rfl) fun _ hfit => fitAttributes_put hfit ha

/-- A new element with one attribute, linked below another. -/
theorem Sound.child (h : d.Sound) {name key value : String} (hname : IsWritten name)
    (ha : Element.FitAttribute (key, value)) (hi : i < d.size) :
    d.Grows (((d.create name).2.setAttribute d.size key value).append i d.size) := by
  have created := h.create hname
  have set := created.sound.setAttribute (i := d.size) ha
  have linked := set.sound.append hi (by simp)
  exact created.trans (set.trans linked)

/-- A loop lets a draft grow if every round does. -/
theorem Sound.foldl {σ α : Type} (view : σ → Draft) (step : σ → α → σ) (n : Nat) : ∀ {as : List α} {s : σ},
    (∀ s, ∀ a ∈ as, (view s).Sound → n ≤ (view s).size → (view s).Grows (view (step s a))) →
      (view s).Sound → n ≤ (view s).size → (view s).Grows (view (as.foldl step s))
  | [], _, _, h, _ => h.grows
  | a :: as, s, hstep, h, hn => by
    have first := hstep s a List.mem_cons_self h hn
    have others := foldl view step n (fun s b hb => hstep s b (List.mem_cons_of_mem a hb)) first.sound
      (Nat.le_trans hn first.size)
    exact first.trans others

/-! ## The tree of a draft -/

mutual

/-- The element is what the number stands for, with everything that is linked below it. -/
inductive Unfolds (d : Draft) : Nat → Element → Prop
  | entry {i : Nat} {e : Entry} {children : List Element} :
      d.entry? i = some e → UnfoldsAll d e.children children → Unfolds d i (.mk e.name e.attributes children)

inductive UnfoldsAll (d : Draft) : List Nat → List Element → Prop
  | nil : UnfoldsAll d [] []
  | cons {i : Nat} {is : List Nat} {c : Element} {cs : List Element} :
      Unfolds d i c → UnfoldsAll d is cs → UnfoldsAll d (i :: is) (c :: cs)

end

theorem unfoldsAll_map {f : Nat → Element} : ∀ {is : List Nat}, (∀ i ∈ is, d.Unfolds i (f i)) →
    d.UnfoldsAll is (is.map f)
  | [], _ => .nil
  | i :: _, h => .cons (h i List.mem_cons_self) (unfoldsAll_map fun j hj => h j (List.mem_cons_of_mem i hj))

/-- **What is written is all that is linked below an element**: with every level the numbers get larger, and
there are no more levels than elements. -/
theorem Sound.unfolds_tree (h : d.Sound) : ∀ {depth i : Nat}, i < d.size → d.size < i + depth →
    d.Unfolds i (d.tree depth i)
  | 0, _, hi, hd => absurd hi (Nat.not_lt_of_lt hd)
  | depth + 1, i, hi, hd => by
    obtain ⟨e, he⟩ := entry?_of_lt hi
    have children : ∀ c ∈ e.children, d.Unfolds c (d.tree depth c) := by
      intro c hc
      obtain ⟨hic, hc⟩ := h.ordered i e he c hc
      exact h.unfolds_tree hc (by omega)
    rw [tree, he]
    exact .entry he (unfoldsAll_map children)

mutual

theorem Unfolds.fit (h : d.Sound)
    (hknown : ∀ i e, d.entry? i = some e → ∀ n : TagName, n.Fit → e.name.toList = n.chars → n.Known) :
    ∀ {i : Nat} {c : Element}, d.Unfolds i c → c.Fit
  | i, _, .entry he hchildren => by
    obtain ⟨n, hn, hname⟩ := h.name i _ he
    exact .mk n (hknown i _ he n hn hname) hname (h.attributes i _ he) (hchildren.fit h hknown)

theorem UnfoldsAll.fit (h : d.Sound)
    (hknown : ∀ i e, d.entry? i = some e → ∀ n : TagName, n.Fit → e.name.toList = n.chars → n.Known) :
    ∀ {is : List Nat} {cs : List Element}, d.UnfoldsAll is cs → ∀ c ∈ cs, c.Fit
  | _, _, .nil => nofun
  | _, _, .cons hfirst hrest => by
    have first := hfirst.fit h hknown
    have others := hrest.fit h hknown
    intro c hc
    rcases List.mem_cons.1 hc with rfl | hc
    · exact first
    · exact others c hc

end

end Draft

end StylesheetReversal
