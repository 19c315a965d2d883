import StylesheetReversal.Proofs.Json.Objects
import StylesheetReversal.Settings
/-!
# Settings survive their writing

Some fields of given settings, written as an object in any way, are read back as they are, and the other fields get their
defaults (`read_fields`).  What `toJson` writes is one of these ways, with all of the fields (`writes_toJson`).
-/
namespace StylesheetReversal.Settings

/-- What can be set. -/
inductive Field
  | wrapperUri
  | rootName
  | applyTemplates
  | indent
  deriving DecidableEq, Repr

/-- The name under which a field is written. -/
def Field.key : Field → String
  | wrapperUri => "wrapper_namespace"
  | rootName => "skeleton_root_name"
  | applyTemplates => "reverse_apply_templates"
  | indent => "indent"

/-- All fields, as they are written. -/
def Field.all : List Field := [wrapperUri, rootName, applyTemplates, indent]

variable (s : Settings)

/-- The value of a field. -/
def scalar : Field → Json.Scalar
  | .wrapperUri => .string s.wrapperUri
  | .rootName => .string s.rootName
  | .applyTemplates => .bool s.applyTemplates
  | .indent =>
    match s.indent with
    | none => .null
    | some n => .natural n.toNat

/-- The members of the object that carries these fields. -/
def members (fields : List Field) : List (String × Json.Scalar) := fields.map fun f => (f.key, s.scalar f)

/-- These fields, with the defaults for the others. -/
def only (fields : List Field) : Settings :=
  ⟨if .wrapperUri ∈ fields then s.wrapperUri else default.wrapperUri,
    if .rootName ∈ fields then s.rootName else default.rootName,
    if .applyTemplates ∈ fields then s.applyTemplates else default.applyTemplates,
    if .indent ∈ fields then s.indent else default.indent⟩

theorem only_all : s.only Field.all = s := by simp [only, Field.all]

/-! ## Reading -/

/-- What is given once these fields have been read. -/
def given (fields : List Field) : Given :=
  ⟨if .wrapperUri ∈ fields then some s.wrapperUri else none,
    if .rootName ∈ fields then some s.rootName else none,
    if .applyTemplates ∈ fields then some s.applyTemplates else none,
    if .indent ∈ fields then some s.indent else none⟩

theorem given_nil : s.given [] = .nothing := by simp [given, Given.nothing]

theorem settings_given (fields : List Field) : (s.given fields).settings = s.only fields := by
  have pick {α : Type} (p : Prop) [Decidable p] (a b : α) : (if p then some a else none).getD b = if p then a else b := by
    split <;> rfl
  simp only [Given.settings, given, only, pick]

variable {s}

theorem indent?_of_denotes {value : Json.Value} (h : (s.scalar .indent).Denotes value) : indent? value = some s.indent := by
  simp only [scalar] at h
  cases hs : s.indent with
  | none =>
    rw [hs] at h
    cases h
    rfl
  | some n =>
    rw [hs] at h
    have word := h.word?
    cases h
    simp only [indent?, word, Option.map_some]

/-- **A field is taken** unless it was given before. -/
theorem takeMember?_given {f : Field} {fields : List Field} (hf : f ∉ fields) {read : List Json.Mark × Json.Value}
    (h : Json.DenotesMember (f.key, s.scalar f) read) :
    takeMember? (s.given fields) read = some (s.given (fields ++ [f])) := by
  obtain ⟨hkey, hvalue⟩ := h
  obtain ⟨key, value⟩ := read
  simp only [takeMember?, hkey, Option.bind_some, String.ofList_toList]
  cases f with
  | wrapperUri => simp [Field.key, given, hf, hvalue.string?]
  | rootName => simp [Field.key, given, hf, hvalue.string?]
  | applyTemplates => simp [Field.key, given, hf, hvalue.bool?]
  | indent => simp [Field.key, given, hf, indent?_of_denotes hvalue]

theorem foldlM_takeMember? {fields : List Field} {read : List (List Json.Mark × Json.Value)}
    (h : List.Forall₂ Json.DenotesMember (s.members fields) read) (done : List Field) (hnew : (done ++ fields).Nodup) :
    read.foldlM takeMember? (s.given done) = some (s.given (done ++ fields)) := by
  induction fields generalizing done read with
  | nil =>
    cases h
    simp
  | cons f fields ih =>
    cases h with
    | cons hfirst hothers =>
      have hf : f ∉ done := fun hmem => (List.nodup_append.1 hnew).2.2 f hmem f List.mem_cons_self rfl
      rw [List.append_cons] at hnew ⊢
      rw [List.foldlM_cons, takeMember?_given hf hfirst]
      exact ih hothers _ hnew

/-! ## Writing -/

/-- A member on a line of its own, up to what follows its value. -/
def line (f : Field) (value after : List Char) : List Char :=
  ['\n', ' ', ' '] ++ (('"' :: (f.key.toList ++ ['"'])) ++ ([] ++ ':' :: ([' '] ++ (value ++ after))))

theorem writesMember_line {f : Field} {value after : List Char} (h : (s.scalar f).Writes value) (hafter : Json.Gap after) :
    Json.WritesMember (f.key, s.scalar f) (line f value after) := by
  refine .mk ?_ (.mk (Json.spells_plain ?_)) (by simp [Json.Gap]) ?_ h hafter
  · simp [Json.Gap, Text.isSpace]
  · cases f <;> decide
  · simp [Json.Gap, Text.isSpace]

theorem toList_toJson :
    s.toJson.toList = '{' :: (line .wrapperUri (Json.encode s.wrapperUri).toList [] ++
      ',' :: (line .rootName (Json.encode s.rootName).toList [] ++
      ',' :: (line .applyTemplates (if s.applyTemplates then "true" else "false").toList [] ++
      ',' :: (line .indent (indentText s.indent).toList ['\n'] ++ ['}'])))) := by
  unfold toJson
  simp [line, Field.key]

theorem writes_indentText : (s.scalar .indent).Writes (indentText s.indent).toList := by
  simp only [scalar]
  cases s.indent with
  | none => exact .null
  | some n =>
    simp only [indentText, Nat.toString_eq_repr, Nat.toList_repr]
    exact .natural n.toNat

theorem writes_flag (b : Bool) : (Json.Scalar.bool b).Writes (if b then "true" else "false").toList := by
  cases b
  · exact .false
  · exact .true

/-- **What is written carries all fields.** -/
theorem writes_toJson : Json.Writes (s.members Field.all) s.toJson.toList := by
  have none : Json.Gap [] := by simp [Json.Gap]
  have newline : Json.Gap ['\n'] := by simp [Json.Gap, Text.isSpace]
  have members : Json.WritesMembers (s.members Field.all) _ :=
    .more (writesMember_line (.string (Json.quotes_encode s.wrapperUri)) none) <|
    .more (writesMember_line (.string (Json.quotes_encode s.rootName)) none) <|
    .more (writesMember_line (writes_flag s.applyTemplates) none) <|
    .last (writesMember_line writes_indentText newline)
  have writes := Json.Writes.members none members none
  rw [List.append_nil, List.nil_append] at writes
  rwa [toList_toJson]

/-- **Settings survive JSON.**  What is written for them is read as the same settings.  Of an object that carries some of their
fields, however it is written and in whatever order, these fields are read, and the others keep their defaults. -/
theorem read_fields (s : Settings) :
    ofJson? s.toJson = some s ∧
      ∀ fields : List Field, fields.Nodup → ∀ text : String, Json.Writes (s.members fields) text.toList →
        ofJson? text = some (s.only fields) := by
  have read : ∀ fields : List Field, fields.Nodup → ∀ text : String, Json.Writes (s.members fields) text.toList →
      ofJson? text = some (s.only fields) := by
    intro fields hfields text h
    obtain ⟨read, hparse, hdenotes⟩ := h.read
    have taken := foldlM_takeMember? hdenotes [] hfields
    rw [given_nil, List.nil_append] at taken
    simp only [ofJson?, hparse, Option.bind_some, taken, Option.map_some, settings_given]
  refine ⟨?_, read⟩
  have all := read Field.all (by decide) s.toJson writes_toJson
  rwa [only_all] at all

/-- Two fields in another order, with white space and with letters written as code units: no indentation is not the
indentation by default. -/
theorem read_fields_two :
    [Field.indent, Field.rootName].Nodup ∧
      Json.Writes (members ⟨"urn:w", "d\"oc", true, none⟩ [.indent, .rootName])
        "\x7b\"indent\" :null,\n\"skeleton_root_name\":\"\\u0064\\u0022\\u006Fc\" \x7d".toList ∧
      ofJson? "\x7b\"indent\" :null,\n\"skeleton_root_name\":\"\\u0064\\u0022\\u006Fc\" \x7d" =
        some ⟨Instruction.uri, "d\"oc", false, none⟩ := by
  have digit : ∀ v < 16, Json.IsHexDigit v (Json.hexDigit v) := fun v hv => ⟨hv, .inl rfl⟩
  have upper : Json.IsHexDigit 15 'F' := ⟨by decide, .inr rfl⟩
  have zero := digit 0 (by decide)
  have two := digit 2 (by decide)
  have six := digit 6 (by decide)
  have gap : Json.Gap [' '] ∧ Json.Gap ['\n'] ∧ Json.Gap [] := by simp [Json.Gap, Text.isSpace]
  have value : Json.Spells ['d', '"', 'o', 'c'] _ :=
    .unit (.digits zero zero six (digit 4 (by decide))) <| .unit (.digits zero zero two two) <|
    .unit (.digits zero zero six upper) <| Json.spells_plain (by decide)
  have indent : Json.WritesMember ("indent", .null) _ :=
    .mk gap.2.2 (.mk (Json.spells_plain (by decide))) gap.1 gap.2.2 .null gap.2.2
  have rootName : Json.WritesMember ("skeleton_root_name", .string "d\"oc") _ :=
    .mk gap.2.1 (.mk (Json.spells_plain (by decide))) gap.2.2 gap.2.2 (.string (.mk value)) gap.1
  have writes := Json.Writes.members gap.2.2 (.more indent (.last rootName)) gap.2.2
  exact ⟨by decide, writes, (read_fields ⟨"urn:w", "d\"oc", true, none⟩).2 [.indent, .rootName] (by decide) _ writes⟩

end StylesheetReversal.Settings
