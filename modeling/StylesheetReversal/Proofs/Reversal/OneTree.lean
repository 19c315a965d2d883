import StylesheetReversal.Proofs.Draft.Visits
import StylesheetReversal.Proofs.Reversal.Composition
import StylesheetReversal.Proofs.Reversal.Conservation
/-!
# The elements of a reversal

Every element that a reversal creates is linked once, below an earlier one, so that the draft is one tree, and there are
just as many elements as its rules need (`Reversal.ofDocument_isTree`).  The blocks of the rules show it: writing a rule
visits its block from the first number to the last.
-/
namespace StylesheetReversal.Reversal

open StylesheetReversal.Path StylesheetReversal.Xml

variable {d : Draft}

/-! ## Visits -/

theorem visits_body : ∀ {names : List String} {i : Nat}, d.Holds i (body i names) →
    d.Visits i (List.range' i (names.length + 1)) (nest names)
  | [], _, h => .entry h.head .nil
  | name :: names, i, h => by
    have below := Draft.VisitsAll.cons (visits_body h.tail) .nil
    rw [List.append_nil] at below
    exact .entry h.head below

/-- Writing a rule visits its block. -/
theorem visits_block {r : Rule} {i : Nat} (h : d.Holds i (r.block i)) : d.Visits i (List.range' i r.size) r.element := by
  obtain ⟨pattern, names⟩ := r
  cases names with
  | nil => exact .entry h.head .nil
  | cons name names =>
    have below := Draft.VisitsAll.cons (@visits_body _ (name :: names) _ h.tail) .nil
    rw [List.append_nil] at below
    exact .entry h.head below

/-- Writing some rules visits one block after the other. -/
theorem visits_blocks : ∀ {rules : List Rule} {i : Nat}, d.Holds i (blocks i rules) →
    d.VisitsAll (numbers i rules) (List.range' i (rules.map Rule.size).sum) (rules.map Rule.element)
  | [], _, _ => .nil
  | r :: rules, i, h => by
    have behind := h.append_right
    rw [r.length_block] at behind
    rw [List.map_cons, List.sum_cons, ← List.range'_append_1]
    exact .cons (visits_block h.append_left) (visits_blocks behind)

/-- **Writing a reversal** visits all elements in the order of their numbers. -/
theorem visits_sheet (rules : List Rule) : (sheet rules).Visits 0 (List.range (sheet rules).size)
    (.mk "xsl:stylesheet" [("version", "1.0")] (rules.map Rule.element)) := by
  have holds : (sheet rules).Holds 0 _ := Draft.holds_extend blank _
  rw [size_sheet, List.range_eq_range', ← List.range'_append_1]
  exact .entry holds.head (visits_blocks holds.tail)

/-! ## How many elements there are -/

/-- Every rule has an element of its own, and one with a body has those of the body. -/
theorem sum_size (rules : List Rule) : (rules.map Rule.size).sum =
    rules.length + ((rules.filter (·.names ≠ [])).map fun r => r.names.length + 1).sum := by
  induction rules with
  | nil => rfl
  | cons r rules ih =>
    obtain ⟨pattern, names⟩ := r
    cases names <;> simp [ih, Rule.size] <;> omega

section Steps

variable {s : Settings} {x : XmlDocument} {stylesheet : Nat} {template instruction : Ref} {pattern : String} {path : Expr}

/-- Nothing is made for a template that is left out. -/
theorem draft_addTemplate (p : Progress) (h : path? x template = none) :
    (addTemplate s x stylesheet p template).draft = p.draft := by
  unfold path? at h
  unfold addTemplate
  dsimp only
  split
  · rfl
  · split
    · rfl
    · next pattern hpattern =>
      rw [hpattern, Option.bind_some] at h
      split
      · rfl
      · next path hpath =>
        rw [hpath] at h
        cases h

/-- A path that is declined leaves the rule alone. -/
theorem draft_addRule (p : Progress) (h : found s.rootName path = []) :
    (addRule s x stylesheet template pattern path p instruction).draft =
      (openRule p.draft stylesheet (rulePattern s x template instruction)).2 := by
  unfold addRule
  dsimp only
  rw [make_eq, h]

theorem size_openRule (pattern : String) : (openRule d stylesheet pattern).2.size = d.size + 1 := by
  simp [openRule]

end Steps

/-- The draft of a reversal is one tree, of as many elements as the rules of its templates need. -/
structure Grown (s : Settings) (x : XmlDocument) (rules : Ref → List Rule) (p : Progress) : Prop where
  accounts : ∀ t ∈ templates x, Accounts s x t (rules t)
  tree : p.draft.IsTree 0
  /-- The stylesheet is one element, every rule is one, and a body has one for each name and one for the instruction. -/
  size : p.draft.size = 1 + ((templates x).reverse.flatMap rules).length +
    ((((templates x).reverse.flatMap rules).filter (·.names ≠ [])).map fun r => r.names.length + 1).sum
  count : ((templates x).reverse.flatMap rules).length = p.tally.reversed + p.tally.declined
  reversed : (((templates x).reverse.flatMap rules).filter (·.names ≠ [])).length = p.tally.reversed
  /-- A template that is left out makes no element, wherever the reversal has come to. -/
  skipped : ∀ (q : Progress) (stylesheet : Nat) (template : Ref), path? x template = none →
    (addTemplate s x stylesheet q template).draft = q.draft
  /-- A path that is declined makes the element of the rule and no other. -/
  declined : ∀ (q : Progress) (stylesheet : Nat) (template instruction : Ref) (pattern : String) (path : Expr)
    (steps : List Expr), Skeleton.Joins steps path → ¬ Skeleton.Supported steps →
      (addRule s x stylesheet template pattern path q instruction).draft.size = q.draft.size + 1

/-- **What a reversal drafts is one tree.** -/
theorem ofDocument_isTree {s : Settings} {x : XmlDocument} {p : Progress} (h : ofDocument s x = .ok p) :
    ∃ rules, Grown s x rules p := by
  rw [ofDocument_eq (isStylesheet_of_ok h)] at h
  cases h
  refine ⟨rulesOf s x, ?_⟩
  constructor
  · exact fun t _ => accounts_iff.2 rfl
  · exact (visits_sheet (allRules s x)).isTree rfl
  · have size := size_sheet (allRules s x)
    rw [sum_size, ← Nat.add_assoc] at size
    exact size
  · exact (countP_names (allRules s x)).symm
  · rw [← List.countP_eq_length_filter]
    rfl
  · exact fun q _ _ hpath => draft_addTemplate q hpath
  · intro q stylesheet template instruction pattern path steps hsteps hpath
    cases Skeleton.joins_iff.1 hsteps
    rw [draft_addRule q (found_eq_nil_iff.2 hpath), size_openRule]

set_option maxRecDepth 2000 in
theorem ofDocument_isTree_three : ∃ x p, XmlDocument.parse? threeTemplates = some x ∧ ofDocument .default x = .ok p ∧
    p.tally = ⟨2, 1, 1⟩ ∧ p.draft.size = 10 ∧ ∃ rules, Grown .default x rules p := by
  have run : ((XmlDocument.parse? threeTemplates).bind fun x => (ofDocument .default x).toOption.map fun p =>
      ((allRules .default x).map Rule.names, p.tally)) = some ([[], ["a", "b"], ["a", "b"]], ⟨2, 1, 1⟩) := by
    -- only a text that is given by its characters is quick to take apart
    have chars : threeTemplates.toList = _ := String.toList_append.trans (congr (congrArg HAppend.hAppend
      (String.toList_append.trans (congr (congrArg HAppend.hAppend String.toList_ofList) String.toList_ofList)))
      String.toList_ofList)
    rw [XmlDocument.parse?, chars]
    decide +kernel
  obtain ⟨x, hx, hrun⟩ := Option.bind_eq_some_iff.1 run
  obtain ⟨p, hp, hpair⟩ := Option.map_eq_some_iff.1 hrun
  obtain ⟨hnames, htally⟩ := Prod.mk.inj hpair
  have reversed := eq_ok_of_toOption hp
  refine ⟨x, p, hx, reversed, htally, ?_, ofDocument_isTree reversed⟩
  -- the size of a rule depends on its names alone
  have sizes : (allRules .default x).map Rule.size = [1, 4, 4] :=
    (List.map_map (f := Rule.names) (g := fun names => Rule.size ⟨"", names⟩)).symm.trans (congrArg (List.map _) hnames)
  rw [ofDocument_eq (isStylesheet_of_ok reversed)] at reversed
  cases reversed
  exact (size_sheet _).trans (congrArg (1 + ·.sum) sizes)

end StylesheetReversal.Reversal
