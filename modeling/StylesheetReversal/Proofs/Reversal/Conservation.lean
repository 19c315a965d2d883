import StylesheetReversal.Proofs.Reversal.Blocks
import StylesheetReversal.Proofs.Skeleton.Calls
import StylesheetReversal.Proofs.Xml.Inside
/-!
# No instruction is lost

Every instruction that writes a value is accounted for once: it became a rule with a body, a rule without one, or was
left out with its template.  `Conserves` says of a reversal that the count, the rules and the log all agree on that,
and every reversal has it (`reverse_conserves`).

Which rule an instruction becomes is told by its place and by the steps of the path (`Becomes`), and the rules that are
drafted are just these (`accounts_iff`).
-/
namespace StylesheetReversal.Reversal

open StylesheetReversal.Path StylesheetReversal.Xml

/-! ## Instructions -/

/-- The instructions of a name below a template, in document order. -/
def named (x : XmlDocument) (base : String) (template : Ref) : List Ref :=
  x.refs.filter fun n => n.isBelow template && isInstruction x base n

/-- The instructions below a template that write a value. -/
def writers (s : Settings) (x : XmlDocument) (template : Ref) : List Ref :=
  named x "value-of" template ++ if s.applyTemplates then named x "apply-templates" template else []

section Instructions

variable {s : Settings} {x : XmlDocument}

theorem kind_of_isNamed {uri base : String} : ∀ {n : Ref}, x.isNamed uri base n = true → x.kind n = .element
  | .attribute .., h => by cases h
  | .node a, h => by
    unfold XmlDocument.isNamed at h
    dsimp only at h
    split at h
    · next start tag children heq => simp [XmlDocument.kind, heq, Node.kind]
    · cases h

theorem filter_elementsIn (base : String) (template : Ref) :
    (x.elementsIn template).filter (isInstruction x base) = named x base template := by
  rw [XmlDocument.elementsIn_eq, List.filter_filter, named]
  refine List.filter_congr fun n _ => ?_
  cases hn : isInstruction x base n with
  | false => simp
  | true => simp [kind_of_isNamed hn]

theorem instructions_eq (s : Settings) (x : XmlDocument) (template : Ref) :
    instructions s x template = writers s x template := by
  unfold instructions writers
  dsimp only
  rw [filter_elementsIn, filter_elementsIn]

end Instructions

/-! ## Accounts -/

/-- An instruction of a template with the given path becomes this rule. -/
structure Becomes (s : Settings) (x : XmlDocument) (template : Ref) (path : Expr) (instruction : Ref) (r : Rule) : Prop where
  /-- It matches any text if there is nothing to say about the place of the instruction. -/
  anywhere : x.document.surroundings (· == some s.wrapperUri) instruction template = "" → r.pattern = "//text()"
  /-- Otherwise it matches text in such a place. -/
  somewhere : ∀ place, x.document.surroundings (· == some s.wrapperUri) instruction template = place → place ≠ "" →
    r.pattern = "//text()[" ++ place ++ "]"
  /-- The text is put into the elements for the steps of the path. -/
  body : ∀ steps, Skeleton.Joins steps path → Skeleton.Supported steps → Skeleton.Elements s.rootName steps r.names
  /-- If there are none, the rule has no body. -/
  bodiless : ∀ steps, Skeleton.Joins steps path → ¬ Skeleton.Supported steps → r.names = []

/-- A template is reversed to these rules: one for every instruction, unless its pattern is missing or wrong. -/
def Accounts (s : Settings) (x : XmlDocument) (template : Ref) (rules : List Rule) : Prop :=
  match path? x template with
  | none => rules = []
  | some path => List.Forall₂ (Becomes s x template path) (writers s x template) rules

/-- The notes about rules of a template that have no body. -/
def declineNotes (x : XmlDocument) (template : Ref) (rules : List Rule) : List Log.Record :=
  (rules.filter (·.names = [])).map fun rule =>
    declineNote (x.location template) ((x.attributeValue? "match" template).getD "") rule.pattern

/-- All instructions of a stylesheet are accounted for in its reversal, by the rules of their templates. -/
structure Conserves (s : Settings) (x : XmlDocument) (rules : Ref → List Rule) (r : Reversal) : Prop where
  accounts : ∀ t ∈ templates x, Accounts s x t (rules t)
  /-- Every instruction is counted once. -/
  total : r.tally.reversed + r.tally.declined + r.tally.skipped =
    ((templates x).map fun t => (writers s x t).length).sum
  /-- Those of templates without a proper pattern are left out. -/
  skipped : r.tally.skipped =
    (((templates x).filter fun t => (path? x t).isNone).map fun t => (writers s x t).length).sum
  /-- All others have a rule each, and the rules of later templates come first. -/
  output : ∃ p, ofDocument s x = .ok p ∧ r.xml = p.draft.write (s.indent.map UInt64.toNat) ∧ p.draft.document =
    some (.mk "xsl:stylesheet" [("xmlns:xsl", Instruction.uri), ("version", "1.0")]
      (((templates x).reverse.flatMap rules).map Rule.element))
  count : ((templates x).reverse.flatMap rules).length = r.tally.reversed + r.tally.declined
  reversed : ((templates x).reverse.flatMap rules).countP (·.names ≠ []) = r.tally.reversed
  declined : ((templates x).reverse.flatMap rules).countP (·.names = []) = r.tally.declined
  /-- There is one warning for every template that is left out with instructions in it. -/
  warnings : r.log.filter (·.level = .warn) =
    ((templates x).reverse.filter fun t => (path? x t).isNone && !(writers s x t).isEmpty).map fun t =>
      skipNote (x.location t) (skipReason x t)
  /-- There is one note for every rule without a body. -/
  notes : r.log.filter (·.level = .info) = (templates x).reverse.flatMap fun t => declineNotes x t (rules t)
  declineNotes : (r.log.filter (·.level = .info)).length = r.tally.declined

section Accounts

variable {s : Settings} {x : XmlDocument}

theorem found_of_names {rootName : String} {path : Expr} {names : List String}
    (h : Skeleton.names rootName path = .ok names) : found rootName path = names := by
  rw [found, h]

/-- The names that are found for a path are those of the elements for its steps. -/
theorem elements_found {rootName : String} {path : Expr} (h : Skeleton.Supported (Skeleton.steps path)) :
    Skeleton.Elements rootName (Skeleton.steps path) (found rootName path) := by
  obtain ⟨names, helements⟩ := (Skeleton.supported_iff rootName).1 h
  rw [found_of_names (Skeleton.names_eq_ok_iff.2 helements)]
  exact helements

theorem found_eq_nil_iff {rootName : String} {path : Expr} :
    found rootName path = [] ↔ ¬ Skeleton.Supported (Skeleton.steps path) := by
  constructor
  · intro hnil h
    exact (elements_found h).ne_nil (Skeleton.steps_ne_nil path) hnil
  · intro h
    unfold found
    split
    · next names hnames => exact absurd ((Skeleton.supported_iff rootName).2 ⟨names, Skeleton.names_eq_ok_iff.1 hnames⟩) h
    · rfl

/-- **What an instruction becomes** is told by its place and the steps of the path. -/
theorem becomes_iff {template instruction : Ref} {path : Expr} {r : Rule} :
    Becomes s x template path instruction r ↔ ruleOf s x template path instruction = r := by
  constructor
  · intro h
    obtain ⟨pattern, names⟩ := r
    have matched : rulePattern s x template instruction = pattern := by
      unfold rulePattern textPattern
      split
      · next hplace => exact (h.anywhere hplace).symm
      · next hplace => exact (h.somewhere _ rfl hplace).symm
    have body : found s.rootName path = names := by
      by_cases hpath : Skeleton.Supported (Skeleton.steps path)
      · exact found_of_names (Skeleton.names_eq_ok_iff.2 (h.body _ (Skeleton.joins_steps path) hpath))
      · have bodiless : names = [] := h.bodiless _ (Skeleton.joins_steps path) hpath
        rw [found_eq_nil_iff.2 hpath, bodiless]
    rw [ruleOf, matched, body]
  · rintro rfl
    refine ⟨fun hplace => if_pos hplace, ?_, fun steps hsteps hpath => ?_, fun steps hsteps hpath => ?_⟩
    · rintro place rfl hplace
      exact if_neg hplace
    · cases Skeleton.joins_iff.1 hsteps
      exact elements_found hpath
    · cases Skeleton.joins_iff.1 hsteps
      exact found_eq_nil_iff.2 hpath

/-- **What a template is reversed to** is told by what its instructions become. -/
theorem accounts_iff {template : Ref} {rules : List Rule} :
    Accounts s x template rules ↔ rulesOf s x template = rules := by
  unfold Accounts rulesOf
  rw [instructions_eq]
  cases path? x template with
  | none => exact eq_comm
  | some path =>
    have becomes : Becomes s x template path = fun i r => ruleOf s x template path i = r :=
      funext fun _ => funext fun _ => propext becomes_iff
    dsimp only
    rw [becomes, ← List.forall₂_map_left_iff, List.forall₂_eq_eq_eq]

theorem countP_names (rules : List Rule) :
    rules.countP (·.names ≠ []) + rules.countP (·.names = []) = rules.length := by
  induction rules with
  | nil => rfl
  | cons r rules ih => by_cases hr : r.names = [] <;> simp [hr] <;> simp at ih <;> omega

/-- The instructions of one template are either left out or have rules. -/
theorem length_rulesOf (t : Ref) : (rulesOf s x t).length + skippedOf s x t = (writers s x t).length := by
  unfold rulesOf skippedOf
  rw [instructions_eq]
  cases path? x t <;> simp

theorem length_allRules :
    (allRules s x).length + allSkipped s x = ((templates x).map fun t => (writers s x t).length).sum := by
  unfold allRules allSkipped
  rw [List.length_flatMap, List.map_reverse, List.sum_reverse]
  induction templates x with
  | nil => rfl
  | cons t ts ih =>
    have := length_rulesOf (s := s) (x := x) t
    simp only [List.map_cons, List.sum_cons]
    omega

theorem allSkipped_eq :
    allSkipped s x = (((templates x).filter fun t => (path? x t).isNone).map fun t => (writers s x t).length).sum := by
  unfold allSkipped
  induction templates x with
  | nil => rfl
  | cons t ts ih =>
    rw [List.map_cons, List.sum_cons, ih]
    cases h : path? x t <;> simp [skippedOf, h, instructions_eq]

/-! ## Records -/

theorem filter_parseLog {level : Log.Level} (h : level ≠ .trace ∧ level ≠ .debug) (pattern : String) :
    (Expr.parseLog pattern).filter (·.level = level) = [] := by
  unfold Expr.parseLog
  dsimp only
  split <;> simp [Log.trace, Log.debug, h.1.symm, h.2.symm]

theorem filter_parseLogs (level : Log.Level) (h : level ≠ .trace ∧ level ≠ .debug) (pattern? : Option String) :
    ((pattern?.map Expr.parseLog).getD []).filter (·.level = level) = [] := by
  cases pattern? with
  | none => rfl
  | some pattern => exact filter_parseLog h pattern

theorem filter_skeletonLog {level : Log.Level} (h : level ≠ .debug) (rootName : String) (path : Expr) :
    (Skeleton.log rootName path).filter (·.level = level) = [] := by
  unfold Skeleton.log
  split <;> simp [Log.debug, h.symm]

/-- Rules are warned about nowhere. -/
theorem warnings_ruleLog (t i : Ref) (pattern : String) (path : Expr) :
    (ruleLog s x t pattern path i).filter (·.level = .warn) = [] := by
  unfold ruleLog
  rw [List.filter_append, filter_skeletonLog (by decide)]
  split <;> simp [declineNote, Log.info]

/-- A rule without a body is noted. -/
theorem notes_ruleLog (t i : Ref) (pattern : String) (path : Expr) :
    (ruleLog s x t pattern path i).filter (·.level = .info) =
      if found s.rootName path = [] then [declineNote (x.location t) pattern (rulePattern s x t i)] else [] := by
  unfold ruleLog
  rw [List.filter_append, filter_skeletonLog (by decide)]
  split <;> simp [*, declineNote, Log.info]

theorem warnings_templateLog (t : Ref) : (templateLog s x t).filter (·.level = .warn) =
    if (path? x t).isNone && !(writers s x t).isEmpty then [skipNote (x.location t) (skipReason x t)] else [] := by
  have parsed := filter_parseLogs .warn (by decide) (x.attributeValue? "match" t)
  unfold templateLog
  rw [instructions_eq]
  cases (writers s x t).isEmpty with
  | true => simp
  | false =>
    simp only [Bool.false_eq_true, if_false, List.filter_append, parsed, List.nil_append]
    cases path? x t with
    | none => simp [skipNote, Log.warn]
    | some path => simp [List.filter_flatMap, warnings_ruleLog]

theorem notes_templateLog (t : Ref) : (templateLog s x t).filter (·.level = .info) = declineNotes x t (rulesOf s x t) := by
  have parsed := filter_parseLogs .info (by decide) (x.attributeValue? "match" t)
  unfold templateLog declineNotes rulesOf ruleOf
  rw [instructions_eq]
  cases hw : (writers s x t).isEmpty with
  | true =>
    rw [List.isEmpty_iff] at hw
    cases path? x t <;> simp [hw]
  | false =>
    simp only [Bool.false_eq_true, if_false, List.filter_append, parsed, List.nil_append]
    cases path? x t with
    | none => simp [skipNote, Log.warn]
    | some path =>
      simp only [List.filter_flatMap, notes_ruleLog]
      by_cases hf : found s.rootName path = []
      · simp only [hf, List.filter_map, Function.comp_def, rulePattern, if_true, decide_true, List.filter_true,
          List.map_map]
        exact (List.map_eq_flatMap ..).symm
      · simp [hf, List.filter_map, Function.comp_def]

theorem length_declineNotes (t : Ref) (rules : List Rule) :
    (declineNotes x t rules).length = rules.countP (·.names = []) := by
  rw [declineNotes, List.length_map, List.countP_eq_length_filter]

end Accounts

/-! ## Reversals -/

theorem filter_flatMap_single {α β : Type} (p : α → Bool) (f : α → β) (as : List α) :
    (as.flatMap fun a => if p a then [f a] else []) = (as.filter p).map f := by
  induction as with
  | nil => rfl
  | cons a as ih => cases h : p a <;> simp [h, ih]

/-- What a reversal that succeeds is made of. -/
theorem reverse_ok {s : Settings} {stylesheet : String} {r : Reversal} (h : reverse s stylesheet = .ok r) :
    ∃ x, XmlDocument.parse? stylesheet = some x ∧ isStylesheet x = true ∧
      r.xml = (sheet (allRules s x)).write (s.indent.map UInt64.toNat) ∧ r.tally = tallyOf (allRules s x) (allSkipped s x) ∧
      r.log = (templates x).reverse.flatMap (templateLog s x) ++ [summary (tallyOf (allRules s x) (allSkipped s x))] := by
  unfold reverse at h
  split at h
  · cases h
  · next x hx =>
    by_cases hs : isStylesheet x = true
    · rw [ofDocument_eq hs] at h
      cases h
      refine ⟨x, hx, hs, ?_, rfl, rfl⟩
      dsimp only [progress]
    · rw [ofDocument, if_neg hs] at h
      cases h

/-- **No instruction is lost or duplicated** in a reversal. -/
theorem reverse_conserves {s : Settings} {stylesheet : String} {r : Reversal} (h : reverse s stylesheet = .ok r) :
    ∃ x rules, XmlDocument.parse? stylesheet = some x ∧ Conserves s x rules r := by
  obtain ⟨x, hx, hs, hxml, htally, hlog⟩ := reverse_ok h
  have counts := countP_names (allRules s x)
  have lengths := length_allRules (s := s) (x := x)
  have noted : (r.log.filter (·.level = .info)) = (templates x).reverse.flatMap fun t => declineNotes x t (rulesOf s x t) := by
    rw [hlog, List.filter_append, List.filter_flatMap, funext notes_templateLog]
    simp [summary, Log.debug]
  refine ⟨x, rulesOf s x, hx, ?_⟩
  constructor
  · exact fun t _ => accounts_iff.2 rfl
  · rw [htally, ← lengths, ← counts]
    rfl
  · rw [htally, ← allSkipped_eq]
    rfl
  · exact ⟨_, ofDocument_eq hs, hxml, document_sheet _⟩
  · rw [htally]
    exact counts.symm
  · rw [htally]
    rfl
  · rw [htally]
    rfl
  · rw [hlog, List.filter_append, List.filter_flatMap, funext warnings_templateLog, filter_flatMap_single]
    simp [summary, Log.debug]
  · exact noted
  · have declined : r.tally.declined = (allRules s x).countP (·.names = []) := by
      rw [htally]
      rfl
    rw [noted, declined, allRules, List.length_flatMap, List.countP_flatMap]
    simp only [length_declineNotes]
    rfl

/-- There are no other rules that instructions become. -/
theorem Conserves.allRules_eq {s : Settings} {x : XmlDocument} {rules : Ref → List Rule} {r : Reversal}
    (h : Conserves s x rules r) : (templates x).reverse.flatMap rules = allRules s x := by
  unfold allRules
  rw [List.flatMap_def, List.flatMap_def]
  refine congrArg List.flatten (List.map_congr_left fun t ht => ?_)
  exact (accounts_iff.1 (h.accounts t (List.mem_reverse.1 ht))).symm

/-- Three templates: one is reversed, one has no skeleton, and one has no pattern. -/
def threeTemplates : String :=
  "<xsl:stylesheet xmlns:xsl='http://www.w3.org/1999/XSL/Transform'><xsl:template match='a/b'><p>" ++
    "<xsl:value-of/><i><xsl:value-of/></i></p></xsl:template><xsl:template match='@c'><xsl:value-of/></xsl:template>" ++
    "<xsl:template><q><xsl:value-of/></q></xsl:template></xsl:stylesheet>"

set_option maxRecDepth 2000 in
theorem reverse_conserves_three : ∃ r, reverse .default threeTemplates = .ok r ∧ r.tally = ⟨2, 1, 1⟩ ∧
    ∃ x rules, XmlDocument.parse? threeTemplates = some x ∧ Conserves .default x rules r ∧
      (templates x).reverse.flatMap rules = [⟨"//text()", []⟩, ⟨"//text()[parent::node()[name()='p']]", ["a", "b"]⟩,
        ⟨"//text()[parent::node()[name()='i' and preceding-sibling::value-of and parent::node()[name()='p']]]",
          ["a", "b"]⟩] := by
  -- only a text that is given by its characters is quick to take apart
  have chars : threeTemplates.toList = _ := String.toList_append.trans (congr (congrArg HAppend.hAppend
    (String.toList_append.trans (congr (congrArg HAppend.hAppend String.toList_ofList) String.toList_ofList)))
    String.toList_ofList)
  have run : (reverse .default threeTemplates).toOption.map Reversal.tally = some ⟨2, 1, 1⟩ := by
    rw [reverse, XmlDocument.parse?, chars]
    decide +kernel
  have emitted : (XmlDocument.parse? threeTemplates).map (allRules .default) = some [⟨"//text()", []⟩,
      ⟨"//text()[parent::node()[name()='p']]", ["a", "b"]⟩,
      ⟨"//text()[parent::node()[name()='i' and preceding-sibling::value-of and parent::node()[name()='p']]]",
        ["a", "b"]⟩] := by
    rw [XmlDocument.parse?, chars]
    decide +kernel
  obtain ⟨r, hr, htally⟩ := Option.map_eq_some_iff.1 run
  have reversed := eq_ok_of_toOption hr
  obtain ⟨x, rules, hx, conserved⟩ := reverse_conserves reversed
  rw [hx, Option.map_some, Option.some.injEq] at emitted
  exact ⟨r, reversed, htally, x, rules, hx, conserved, conserved.allRules_eq.trans emitted⟩

end StylesheetReversal.Reversal
