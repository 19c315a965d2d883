import StylesheetReversal.Instruction
import StylesheetReversal.Json.Value
import StylesheetReversal.Skeleton
/-!
# Settings

What can be chosen about the reversal of a stylesheet, and how the choice is written as JSON.
Settings are read from an object, in which unknown members are passed over, or from an array
of the values in order.  What is not given keeps its default.
-/
namespace StylesheetReversal

/-- `wrapperUri` is the namespace whose elements are passed over in the description of a
place, `rootName` the name of the element made for the root alone.  With `applyTemplates`,
instructions to apply templates are reversed too.  The output is indented by `indent` spaces
a level, or not at all. -/
structure Settings where
  wrapperUri : String
  rootName : String
  applyTemplates : Bool
  indent : Option UInt64
  deriving DecidableEq, Repr

namespace Settings

def default : Settings := ⟨Instruction.uri, Skeleton.defaultRootName, false, some 2⟩

/-- The settings given so far. -/
structure Given where
  wrapperUri : Option String
  rootName : Option String
  applyTemplates : Option Bool
  indent : Option (Option UInt64)
  deriving DecidableEq, Repr

namespace Given

def nothing : Given := ⟨none, none, none, none⟩

/-- Completes the given settings by defaults. -/
def settings (g : Given) : Settings :=
  ⟨g.wrapperUri.getD default.wrapperUri, g.rootName.getD default.rootName,
    g.applyTemplates.getD default.applyTemplates, g.indent.getD default.indent⟩

end Given

/-- The indentation: a number, or `null` for none. -/
def indent? : Json.Value → Option (Option UInt64)
  | .null => some none
  | value => value.word?.map some

/-- Takes one member of an object.  No setting can be given twice. -/
def takeMember? (g : Given) : List Json.Mark × Json.Value → Option Given
  | (key, value) =>
    (Json.decode? key).bind fun key =>
      match String.ofList key with
      | "wrapper_namespace" =>
        if g.wrapperUri.isSome then none
        else value.string?.map fun s => { g with wrapperUri := some s }
      | "skeleton_root_name" =>
        if g.rootName.isSome then none
        else value.string?.map fun s => { g with rootName := some s }
      | "reverse_apply_templates" =>
        if g.applyTemplates.isSome then none
        else value.bool?.map fun b => { g with applyTemplates := some b }
      | "indent" =>
        if g.indent.isSome then none
        else (indent? value).map fun i => { g with indent := some i }
      | _ => some g

/-- Takes the items of an array. -/
def takeItems? : List Json.Value → Option Given
  | [] => some .nothing
  | [a] => a.string?.map fun a => { Given.nothing with wrapperUri := some a }
  | [a, b] =>
    a.string?.bind fun a => b.string?.map fun b =>
      { Given.nothing with wrapperUri := some a, rootName := some b }
  | [a, b, c] =>
    a.string?.bind fun a => b.string?.bind fun b => c.bool?.map fun c =>
      ⟨some a, some b, some c, none⟩
  | [a, b, c, d] =>
    a.string?.bind fun a => b.string?.bind fun b => c.bool?.bind fun c =>
      (indent? d).map fun d => ⟨some a, some b, some c, some d⟩
  | _ => none

/-- Reads settings. -/
def ofJson? (text : String) : Option Settings :=
  (Json.Value.parse? text.toList).bind fun
    | .object members => (members.foldlM takeMember? Given.nothing).map Given.settings
    | .array items => (takeItems? items).map Given.settings
    | _ => none

/-- The indentation as it is written. -/
def indentText : Option UInt64 → String
  | none => "null"
  | some n => toString n.toNat

/-- Writes settings, one to a line. -/
def toJson (s : Settings) : String :=
  "\x7b\n  \"wrapper_namespace\": " ++ Json.encode s.wrapperUri ++
  ",\n  \"skeleton_root_name\": " ++ Json.encode s.rootName ++
  ",\n  \"reverse_apply_templates\": " ++ (if s.applyTemplates then "true" else "false") ++
  ",\n  \"indent\": " ++ indentText s.indent ++ "\n\x7d"

end Settings

end StylesheetReversal
