import StylesheetReversal.Log
import StylesheetReversal.Path.Expr
/-!
# Skeletons of paths

A path that names one child element after another, perhaps from the root, is satisfied by a
chain of elements with these names.  `make` makes such a chain, the skeleton of the
path.  Any other path is declined, and then nothing is made.

The path of the root alone names no element; its skeleton is one element with a given name.
-/
namespace StylesheetReversal

open StylesheetReversal.Path

/-- Makes elements of type `ε` and links them, keeping a state of type `σ`. -/
structure Factory (σ ε : Type) where
  create : String → σ → ε × σ
  append : ε → ε → σ → σ

/-- A chain of elements: the outermost one, and those that have nothing below them yet. -/
structure Skeleton (ε : Type) where
  root : ε
  leaves : List ε
  deriving DecidableEq, Repr

namespace Skeleton

/-- The name of the element for the root alone, unless another one is chosen. -/
def defaultRootName : String := "any-given-root"

/-- The steps of a path from left to right, however they are joined. -/
def steps : Expr → List Expr
  | .join left right => steps left ++ steps right
  | step => [step]

/-- Whether a step stands for the root of the document. -/
def isRoot : Expr → Bool
  | .axis .root .. => true
  | _ => false

/-- The name of the element that a step asks for, if it asks for a child element by name. -/
def childName? : Expr → Option String
  | .axis .child .element qualifier (some name) =>
    match qualifier with
    | some q => some (q ++ ":" ++ name)
    | none => some name
  | _ => none

/-- The names of child steps, or the first step that is none. -/
def childNames : List Expr → Except Expr (List String)
  | [] => .ok []
  | step :: rest =>
    match childName? step with
    | none => .error step
    | some name => (childNames rest).map (name :: ·)

/-- The names of the elements of the chain, or the first step that there is no element
for. -/
def names (rootName : String) (path : Expr) : Except Expr (List String) :=
  match steps path with
  | [step] => if isRoot step then .ok [rootName] else childNames [step]
  | step :: rest => if isRoot step then childNames rest else childNames (step :: rest)
  | [] => .ok []

variable {σ ε : Type}

/-- Makes an element for each name, each below the one before; gives the last one. -/
def chain (f : Factory σ ε) (leaf : ε) : List String → σ → ε × σ
  | [], s => (leaf, s)
  | name :: rest, s =>
    let (child, s) := f.create name s
    chain f child rest (f.append leaf child s)

/-- Makes the skeleton of a path, unless the path is declined. -/
def make (f : Factory σ ε) (rootName : String) (path : Expr) (s : σ) :
    Option (Skeleton ε) × σ :=
  match names rootName path with
  | .ok (first :: rest) =>
    let (root, s) := f.create first s
    let (leaf, s) := chain f root rest s
    (some ⟨root, [leaf]⟩, s)
  | _ => (none, s)

/-- What is logged when the skeleton of a path is made. -/
def log (rootName : String) (path : Expr) : List Log.Record :=
  match names rootName path with
  | .ok _ => []
  | .error step => [Log.debug ("Cannot synthesize a skeleton for step " ++ step.display)]

end Skeleton

end StylesheetReversal
