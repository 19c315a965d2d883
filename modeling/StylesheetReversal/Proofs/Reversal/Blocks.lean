import Mathlib.Algebra.Ring.Nat
import StylesheetReversal.Proofs.Draft
import StylesheetReversal.Reversal
/-!
# A reversal is drafted block by block

The elements of one rule are created one after another, so they make up a block of the draft, each linked to the next.
`sheet rules` is the whole draft: the stylesheet and behind it the blocks of its rules.  Adding a rule to the draft of
some rules gives the draft of one rule more (`draft_addRule`), and the document drafted has just these rules
(`document_sheet`).
-/
namespace StylesheetReversal

open StylesheetReversal.Path StylesheetReversal.Xml

namespace Draft

/-- Adds elements that were put together elsewhere. -/
def extend (d : Draft) (es : List Entry) : Draft := { d with entries := d.entries ++ es.toArray }

variable (d : Draft) (e : Entry) (es fs : List Entry)

@[simp] theorem extend_extend : (d.extend es).extend fs = d.extend (es ++ fs) := by
  simp [extend]

@[simp] theorem size_extend : (d.extend es).size = d.size + es.length := by
  simp [extend, size]

theorem extend_cons : d.extend (e :: es) = (d.extend [e]).extend es := by
  simp

theorem create_eq (name : String) : d.create name = (d.size, d.extend [⟨name, [], []⟩]) := by
  simp [create, extend, size]

variable {d} {i : Nat} (change : Entry → Entry)

/-- A change of an earlier element has nothing to do with those behind it. -/
theorem update_extend (h : i < d.size) : (d.extend es).update i change = (d.update i change).extend es := by
  unfold extend update
  congr 1
  refine Array.ext_getElem? fun j => ?_
  rw [Array.getElem?_modify, Array.getElem?_append, Array.getElem?_append, Array.size_modify, Array.getElem?_modify]
  by_cases hij : i = j
  · subst hij
    have inside : i < d.entries.size := h
    simp [inside]
  · simp [hij]

theorem update_extend_self : (d.extend (e :: es)).update d.size change = d.extend (change e :: es) := by
  unfold extend update
  congr 1
  refine Array.ext_getElem? fun j => ?_
  rw [Array.getElem?_modify, Array.getElem?_append, Array.getElem?_append]
  by_cases hj : d.size = j
  · subst hj
    simp [size]
  · rw [if_neg hj]
    by_cases before : j < d.entries.size
    · rw [if_pos before, if_pos before]
    · have behind : j - d.entries.size ≠ 0 := by
        unfold size at hj
        omega
      obtain ⟨k, hk⟩ := Nat.exists_eq_succ_of_ne_zero behind
      rw [if_neg before, if_neg before, hk]
      simp

/-- The elements stand in the draft one after another, from number `i` on. -/
def Holds (d : Draft) (i : Nat) (es : List Entry) : Prop := ∀ k e, es[k]? = some e → d.entry? (i + k) = some e

theorem holds_extend (d : Draft) (es : List Entry) : (d.extend es).Holds d.size es := by
  intro k e he
  have inside : (d.entries ++ es.toArray)[d.size + k]? = es[k]? := by
    have behind : ¬ d.size + k < d.entries.size := Nat.not_lt.2 (Nat.le_add_right _ _)
    rw [Array.getElem?_append, if_neg behind, List.getElem?_toArray]
    exact congrArg (es[·]?) (Nat.add_sub_cancel_left ..)
  exact inside.trans he

theorem Holds.head {i : Nat} {e : Entry} {es : List Entry} (h : d.Holds i (e :: es)) : d.entry? i = some e :=
  h 0 e rfl

theorem Holds.tail {i : Nat} {e : Entry} {es : List Entry} (h : d.Holds i (e :: es)) : d.Holds (i + 1) es := by
  intro k e' he'
  rw [Nat.add_assoc, Nat.add_comm 1 k]
  exact h (k + 1) e' he'

theorem Holds.append_left {i : Nat} {es fs : List Entry} (h : d.Holds i (es ++ fs)) : d.Holds i es :=
  fun k e he => h k e (List.getElem?_append_left (List.getElem?_eq_some_iff.1 he).1 ▸ he)

theorem Holds.append_right {i : Nat} {es fs : List Entry} (h : d.Holds i (es ++ fs)) : d.Holds (i + es.length) fs := by
  intro k e he
  rw [Nat.add_assoc]
  refine h _ e ?_
  rw [List.getElem?_append_right (Nat.le_add_right _ _), Nat.add_sub_cancel_left, he]

end Draft

namespace Reversal

open Draft (Entry)

/-! ## Chains -/

/-- Elements from number `i` on, each with the next one below it. -/
def column : Nat → String → List String → List Entry
  | _, name, [] => [⟨name, [], []⟩]
  | i, name, next :: names => ⟨name, [], [i + 1]⟩ :: column (i + 1) next names

/-- The elements of a rule's body from number `i` on, with an instruction below the last one. -/
def body : Nat → List String → List Entry
  | _, [] => [⟨"xsl:value-of", [("select", ".")], []⟩]
  | i, name :: names => ⟨name, [], [i + 1]⟩ :: body (i + 1) names

variable {d : Draft}

theorem length_body : ∀ {i : Nat} {names : List String}, (body i names).length = names.length + 1
  | _, [] => rfl
  | _, _ :: _ => congrArg (· + 1) length_body

/-- A chain of elements is a column. -/
theorem chain_column : ∀ (names : List String) (d : Draft) (name : String),
    Skeleton.chain factory d.size names (d.extend [⟨name, [], []⟩]) =
      (d.size + names.length, d.extend (column d.size name names))
  | [], _, _ => rfl
  | next :: names, d, name => by
    have linked : (d.extend [⟨name, [], []⟩, ⟨next, [], []⟩]).append d.size (d.size + 1) =
        (d.extend [⟨name, [], [d.size + 1]⟩]).extend [⟨next, [], []⟩] := by
      rw [Draft.append, Draft.update_extend_self]
      simp
    have others := chain_column names (d.extend [⟨name, [], [d.size + 1]⟩]) next
    have size : (d.extend [⟨name, [], [d.size + 1]⟩]).size = d.size + 1 := by simp
    rw [size] at others
    rw [Skeleton.chain]
    simp only [factory, Draft.create_eq, Draft.extend_extend, Draft.size_extend, List.cons_append, List.nil_append,
      List.length_cons, List.length_nil, Nat.zero_add]
    rw [linked]
    exact others.trans (by simp [column, Nat.add_assoc, Nat.add_comm 1])

/-- A column with an instruction below its last element is a body. -/
theorem addValue_column : ∀ (names : List String) (d : Draft) (name : String),
    addValue (d.extend (column d.size name names)) (d.size + names.length) = d.extend (body d.size (name :: names))
  | [], d, name => by
    have selected : (d.extend [⟨name, [], []⟩, ⟨"xsl:value-of", [], []⟩]).setAttribute (d.size + 1) "select" "." =
        d.extend [⟨name, [], []⟩, ⟨"xsl:value-of", [("select", ".")], []⟩] := by
      have size : d.size + 1 = (d.extend [⟨name, [], []⟩]).size := by simp
      rw [Draft.extend_cons, Draft.setAttribute, size, Draft.update_extend_self]
      simp [Draft.put]
    unfold addValue
    simp only [column, Draft.create_eq, Draft.extend_extend, Draft.size_extend, List.cons_append, List.nil_append,
      List.length_cons, List.length_nil, Nat.zero_add, Nat.add_zero]
    rw [selected, Draft.append, Draft.update_extend_self]
    rfl
  | next :: names, d, name => by
    have others := addValue_column names (d.extend [⟨name, [], [d.size + 1]⟩]) next
    have size : (d.extend [⟨name, [], [d.size + 1]⟩]).size = d.size + 1 := by simp
    rw [size] at others
    rw [Draft.extend_extend, Draft.extend_extend, Nat.add_assoc, Nat.add_comm 1] at others
    exact others

/-! ## Rules -/

/-- A rule: its pattern and the names of the elements that the text is put into, none if there is no body. -/
structure Rule where
  pattern : String
  names : List String
  deriving DecidableEq, Repr

namespace Rule

/-- The elements of a rule from number `i` on. -/
def block (r : Rule) (i : Nat) : List Entry :=
  match r.names with
  | [] => [⟨"xsl:template", [("match", r.pattern)], []⟩]
  | name :: names => ⟨"xsl:template", [("match", r.pattern)], [i + 1]⟩ :: body (i + 1) (name :: names)

/-- How many elements a rule has. -/
def size (r : Rule) : Nat :=
  match r.names with
  | [] => 1
  | _ :: names => names.length + 3

theorem length_block (r : Rule) (i : Nat) : (r.block i).length = r.size := by
  unfold block size
  split
  · rfl
  · rw [List.length_cons, length_body, List.length_cons]

end Rule

/-- The names of the elements of a skeleton, none if the path is declined. -/
def found (rootName : String) (path : Expr) : List String :=
  match Skeleton.names rootName path with
  | .ok names => names
  | .error _ => []

/-- The rule for an instruction of a template with the given path. -/
def ruleOf (s : Settings) (x : XmlDocument) (template : Ref) (path : Expr) (instruction : Ref) : Rule :=
  ⟨rulePattern s x template instruction, found s.rootName path⟩

theorem openRule_eq {stylesheet : Nat} (h : stylesheet < d.size) (pattern : String) :
    openRule d stylesheet pattern =
      (d.size, (d.append stylesheet d.size).extend [⟨"xsl:template", [("match", pattern)], []⟩]) := by
  have matched : (d.extend [⟨"xsl:template", [], []⟩]).setAttribute d.size "match" pattern =
      d.extend [⟨"xsl:template", [("match", pattern)], []⟩] := Draft.update_extend_self ..
  unfold openRule
  rw [Draft.create_eq]
  dsimp only
  rw [matched, Draft.append, Draft.update_extend _ _ h]
  rfl

theorem make_eq (rootName : String) (path : Expr) (d : Draft) :
    Skeleton.make factory rootName path d =
      match found rootName path with
      | [] => (none, d)
      | name :: names => (some ⟨d.size, [d.size + names.length]⟩, d.extend (column d.size name names)) := by
  unfold Skeleton.make found
  cases Skeleton.names rootName path with
  | error step => rfl
  | ok names =>
    cases names with
    | nil => rfl
    | cons name names =>
      have chained := chain_column names d name
      have created : factory.create name d = (d.size, d.extend [⟨name, [], []⟩]) := Draft.create_eq d name
      simp only [created, chained]

/-- A skeleton that is linked below its rule and is given an instruction makes up the rest of the block. -/
theorem addValue_block (d : Draft) (r : Rule) {name : String} {names : List String} (h : r.names = name :: names) :
    addValue (((d.extend [⟨"xsl:template", [("match", r.pattern)], []⟩]).extend (column (d.size + 1) name names)).append
      d.size (d.size + 1)) (d.size + 1 + names.length) = d.extend (r.block d.size) := by
  have linked : ((d.extend [⟨"xsl:template", [("match", r.pattern)], []⟩]).extend (column (d.size + 1) name names)).append
      d.size (d.size + 1) =
      (d.extend [⟨"xsl:template", [("match", r.pattern)], [d.size + 1]⟩]).extend (column (d.size + 1) name names) := by
    rw [Draft.extend_extend, Draft.extend_extend]
    exact Draft.update_extend_self ..
  have filled := addValue_column names (d.extend [⟨"xsl:template", [("match", r.pattern)], [d.size + 1]⟩]) name
  rw [Draft.size_extend, List.length_singleton, Draft.extend_extend] at filled
  rw [linked, Draft.extend_extend, filled, Rule.block, h, Draft.extend_extend]
  rfl

/-! ## The whole draft -/

/-- The numbers of the first elements of rules that follow one another from number `i` on. -/
def numbers : Nat → List Rule → List Nat
  | _, [] => []
  | i, r :: rules => i :: numbers (i + r.size) rules

/-- The elements of rules that follow one another from number `i` on. -/
def blocks : Nat → List Rule → List Entry
  | _, [] => []
  | i, r :: rules => r.block i ++ blocks (i + r.size) rules

/-- A draft without elements whose root will be the first one. -/
def blank : Draft := ⟨#[], some 0, [("xsl", Instruction.uri)]⟩

/-- The draft of a stylesheet with the given rules. -/
def sheet (rules : List Rule) : Draft :=
  blank.extend (⟨"xsl:stylesheet", [("version", "1.0")], numbers 1 rules⟩ :: blocks 1 rules)

theorem frame_eq : frame = (0, sheet []) := rfl

theorem length_blocks : ∀ {i : Nat} {rules : List Rule}, (blocks i rules).length = (rules.map Rule.size).sum
  | _, [] => rfl
  | i, r :: rules => by
    rw [blocks, List.length_append, r.length_block, length_blocks, List.map_cons, List.sum_cons]

theorem size_sheet (rules : List Rule) : (sheet rules).size = 1 + (rules.map Rule.size).sum := by
  rw [sheet, Draft.size_extend, List.length_cons, length_blocks, Nat.add_comm 1]
  exact Nat.zero_add _

theorem numbers_append {r : Rule} : ∀ {i : Nat} {rules : List Rule},
    numbers i (rules ++ [r]) = numbers i rules ++ [i + (rules.map Rule.size).sum]
  | _, [] => rfl
  | i, q :: rules => by
    simp [numbers, numbers_append, Nat.add_assoc]

theorem blocks_append {r : Rule} : ∀ {i : Nat} {rules : List Rule},
    blocks i (rules ++ [r]) = blocks i rules ++ r.block (i + (rules.map Rule.size).sum)
  | i, [] => by simp [blocks]
  | i, q :: rules => by
    simp [blocks, blocks_append, Nat.add_assoc]

/-- One more rule is one more number below the stylesheet and one more block. -/
theorem sheet_append (rules : List Rule) (r : Rule) :
    ((sheet rules).append 0 (sheet rules).size).extend (r.block (sheet rules).size) = sheet (rules ++ [r]) := by
  have linked : (sheet rules).append 0 (sheet rules).size =
      blank.extend (⟨"xsl:stylesheet", [("version", "1.0")], numbers 1 rules ++ [(sheet rules).size]⟩ :: blocks 1 rules) :=
    Draft.update_extend_self (d := blank) ..
  rw [linked, size_sheet, Draft.extend_extend, List.cons_append, ← numbers_append, ← blocks_append]
  rfl

/-- What is logged about a rule. -/
def ruleLog (s : Settings) (x : XmlDocument) (template : Ref) (pattern : String) (path : Expr) (instruction : Ref) :
    List Log.Record :=
  Skeleton.log s.rootName path ++
    match found s.rootName path with
    | [] => [declineNote (x.location template) pattern (rulePattern s x template instruction)]
    | _ :: _ => []

/-- How many of the rules have a body and how many have none, and how many instructions were left out. -/
def tallyOf (rules : List Rule) (skipped : Nat) : Tally :=
  ⟨rules.countP (·.names ≠ []), rules.countP (·.names = []), skipped⟩

/-- A reversal that has come as far as to some rules. -/
def progress (rules : List Rule) (skipped : Nat) (log : List Log.Record) : Progress :=
  ⟨sheet rules, tallyOf rules skipped, log⟩

variable {s : Settings} {x : XmlDocument} {rules : List Rule} {skipped : Nat} {log : List Log.Record}

/-- **Adding a rule** to a reversal. -/
theorem addRule_progress (template instruction : Ref) (pattern : String) (path : Expr) :
    addRule s x 0 template pattern path (progress rules skipped log) instruction =
      progress (rules ++ [ruleOf s x template path instruction]) skipped
        (log ++ ruleLog s x template pattern path instruction) := by
  have inside : 0 < (sheet rules).size := by
    rw [size_sheet]
    omega
  have sheets := sheet_append rules (ruleOf s x template path instruction)
  generalize hd : (sheet rules).append 0 (sheet rules).size = d at sheets
  have size : (sheet rules).size = d.size := by
    rw [← hd, Draft.size_append]
  rw [size] at sheets
  unfold addRule progress
  dsimp only
  rw [openRule_eq inside, hd, size, make_eq]
  unfold ruleOf Rule.block ruleLog tallyOf Progress.note at *
  cases hnames : found s.rootName path with
  | nil =>
    rw [hnames] at sheets
    dsimp only at sheets ⊢
    rw [sheets]
    simp
  | cons name names =>
    rw [hnames] at sheets
    dsimp only at sheets ⊢
    have filled := addValue_block d ⟨rulePattern s x template instruction, name :: names⟩ rfl
    rw [Rule.block] at filled
    dsimp only at filled
    rw [Draft.size_extend, List.length_singleton, List.foldl_cons, List.foldl_nil, filled, sheets]
    simp

theorem addRules_progress (template : Ref) (pattern : String) (path : Expr) : ∀ {instructions : List Ref}
    {rules : List Rule} {log : List Log.Record},
    instructions.foldl (addRule s x 0 template pattern path) (progress rules skipped log) =
      progress (rules ++ instructions.map (ruleOf s x template path)) skipped
        (log ++ instructions.flatMap (ruleLog s x template pattern path))
  | [], _, _ => by simp
  | i :: instructions, rules, log => by
    rw [List.foldl_cons, addRule_progress, addRules_progress, List.map_cons, List.flatMap_cons, List.append_assoc,
      List.append_assoc]
    rfl

/-! ## Templates -/

/-- The path that a template's pattern stands for, if there is a pattern and nothing is wrong with it. -/
def path? (x : XmlDocument) (template : Ref) : Option Expr :=
  (x.attributeValue? "match" template).bind fun pattern => (Expr.parse pattern).toOption

/-- The rules for the instructions of a template. -/
def rulesOf (s : Settings) (x : XmlDocument) (template : Ref) : List Rule :=
  match path? x template with
  | none => []
  | some path => (instructions s x template).map (ruleOf s x template path)

/-- How many instructions of a template are left out. -/
def skippedOf (s : Settings) (x : XmlDocument) (template : Ref) : Nat :=
  match path? x template with
  | none => (instructions s x template).length
  | some _ => 0

/-- Why a template is left out. -/
def skipReason (x : XmlDocument) (template : Ref) : String :=
  match x.attributeValue? "match" template with
  | none => "it has no match pattern"
  | some pattern =>
    match Expr.parse pattern with
    | .error e => e.detailed
    | .ok _ => ""

/-- What is logged about a template. -/
def templateLog (s : Settings) (x : XmlDocument) (template : Ref) : List Log.Record :=
  if (instructions s x template).isEmpty then []
  else
    let pattern := x.attributeValue? "match" template
    (pattern.map Expr.parseLog).getD [] ++
      match path? x template with
      | none => [skipNote (x.location template) (skipReason x template)]
      | some path => (instructions s x template).flatMap (ruleLog s x template (pattern.getD "") path)

/-- **Adding a template** to a reversal. -/
theorem addTemplate_progress (template : Ref) :
    addTemplate s x 0 (progress rules skipped log) template =
      progress (rules ++ rulesOf s x template) (skipped + skippedOf s x template) (log ++ templateLog s x template) := by
  unfold addTemplate rulesOf skippedOf templateLog skipReason
  dsimp only
  cases hi : (instructions s x template).isEmpty with
  | true =>
    rw [List.isEmpty_iff] at hi
    rw [hi]
    cases path? x template <;> simp
  | false =>
    cases ha : x.attributeValue? "match" template with
    | none => simp [path?, ha, progress, tallyOf, Progress.note, Progress.skip]
    | some pattern =>
      cases hp : Expr.parse pattern with
      | error e =>
        simp [path?, ha, hp, Except.toOption, progress, tallyOf, Progress.note, Progress.skip]
      | ok path =>
        have logged : (progress rules skipped log).note (Expr.parseLog pattern) =
            progress rules skipped (log ++ Expr.parseLog pattern) := rfl
        simp [path?, ha, hp, Except.toOption, logged, addRules_progress]

theorem addTemplates_progress : ∀ {templates : List Ref} {rules : List Rule} {skipped : Nat} {log : List Log.Record},
    templates.foldl (addTemplate s x 0) (progress rules skipped log) =
      progress (rules ++ templates.flatMap (rulesOf s x)) (skipped + (templates.map (skippedOf s x)).sum)
        (log ++ templates.flatMap (templateLog s x))
  | [], _, _, _ => by simp
  | t :: templates, rules, skipped, log => by
    rw [List.foldl_cons, addTemplate_progress, addTemplates_progress]
    simp [Nat.add_assoc]

/-- The rules of a whole stylesheet, those of later templates first. -/
def allRules (s : Settings) (x : XmlDocument) : List Rule := (templates x).reverse.flatMap (rulesOf s x)

/-- How many instructions of a whole stylesheet are left out. -/
def allSkipped (s : Settings) (x : XmlDocument) : Nat := ((templates x).map (skippedOf s x)).sum

/-- **The reversal of a stylesheet** has the rules of its templates. -/
theorem ofDocument_eq (hx : isStylesheet x = true) :
    ofDocument s x = .ok (progress (allRules s x) (allSkipped s x)
      ((templates x).reverse.flatMap (templateLog s x) ++ [summary (tallyOf (allRules s x) (allSkipped s x))])) := by
  have start : (⟨sheet [], ⟨0, 0, 0⟩, []⟩ : Progress) = progress [] 0 [] := rfl
  have skipped : ((templates x).reverse.map (skippedOf s x)).sum = allSkipped s x := by
    rw [List.map_reverse, List.sum_reverse, allSkipped]
  unfold ofDocument
  rw [if_pos hx, frame_eq]
  dsimp only
  rw [start, addTemplates_progress, skipped, List.nil_append, Nat.zero_add, List.nil_append]
  rfl

theorem eq_ok_of_toOption {ε α : Type} {e : Except ε α} {a : α} (h : e.toOption = some a) : e = .ok a := by
  cases e with
  | error _ => cases h
  | ok b => exact congrArg Except.ok (Option.some.inj h)

/-! ## The document -/

/-- Elements with these names one inside the other, and in the last one an instruction that writes the text. -/
def nest : List String → Element
  | [] => .mk "xsl:value-of" [("select", ".")] []
  | name :: names => .mk name [] [nest names]

/-- A rule as an element. -/
def Rule.element (r : Rule) : Element :=
  .mk "xsl:template" [("match", r.pattern)] (if r.names = [] then [] else [nest r.names])

theorem tree_body : ∀ {names : List String} {i depth : Nat}, d.Holds i (body i names) → names.length < depth →
    d.tree depth i = nest names
  | _, _, 0, _, hdepth => by cases hdepth
  | [], i, depth + 1, h, _ => by
    rw [Draft.tree, h.head]
    rfl
  | name :: names, i, depth + 1, h, hdepth => by
    have below := tree_body h.tail (Nat.lt_of_succ_lt_succ hdepth)
    rw [Draft.tree, h.head]
    simp only [List.map_cons, List.map_nil, below, nest]

theorem tree_block {r : Rule} {i depth : Nat} (h : d.Holds i (r.block i)) (hdepth : r.size ≤ depth) :
    d.tree depth i = r.element := by
  unfold Rule.block Rule.size at *
  unfold Rule.element
  cases hnames : r.names with
  | nil =>
    rw [hnames] at h hdepth
    dsimp only at h hdepth
    obtain ⟨depth, rfl⟩ : ∃ k, depth = k + 1 := ⟨depth - 1, by omega⟩
    rw [Draft.tree, h.head]
    rfl
  | cons name names =>
    rw [hnames] at h hdepth
    dsimp only at h hdepth
    obtain ⟨depth, rfl⟩ : ∃ k, depth = k + 1 := ⟨depth - 1, by omega⟩
    have below : d.tree depth (i + 1) = nest (name :: names) := tree_body h.tail (by simp; omega)
    rw [Draft.tree, h.head]
    simp [below]

theorem tree_blocks : ∀ {rules : List Rule} {i depth : Nat}, d.Holds i (blocks i rules) →
    (rules.map Rule.size).sum ≤ depth → (numbers i rules).map (d.tree depth) = rules.map Rule.element
  | [], _, _, _, _ => rfl
  | r :: rules, i, depth, h, hdepth => by
    rw [List.map_cons, List.sum_cons] at hdepth
    have first := tree_block h.append_left (by omega : r.size ≤ depth)
    have behind := h.append_right
    rw [r.length_block] at behind
    rw [numbers, List.map_cons, List.map_cons, first, tree_blocks behind (by omega)]

/-- **The document drafted** is a stylesheet with the given rules. -/
theorem document_sheet (rules : List Rule) : (sheet rules).document =
    some (.mk "xsl:stylesheet" [("xmlns:xsl", Instruction.uri), ("version", "1.0")] (rules.map Rule.element)) := by
  have holds : (sheet rules).Holds 0 _ := Draft.holds_extend blank _
  have size := size_sheet rules
  have children : (numbers 1 rules).map ((sheet rules).tree (sheet rules).size) = rules.map Rule.element :=
    tree_blocks holds.tail (by omega)
  have root : (sheet rules).tree ((sheet rules).size + 1) 0 =
      .mk "xsl:stylesheet" [("version", "1.0")] (rules.map Rule.element) := by
    rw [Draft.tree, holds.head]
    simp only [← children]
  have first : (sheet rules).root = some 0 := rfl
  rw [Draft.document, first, Option.map_some, root]
  rfl

end Reversal

end StylesheetReversal
