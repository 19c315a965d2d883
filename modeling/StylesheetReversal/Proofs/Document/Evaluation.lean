import Mathlib.Data.List.Infix
import StylesheetReversal.Path.Expr
import StylesheetReversal.Proofs.Document.Sides
/-!
# Evaluating expressions

What an expression of the path language comes to at a node of a document, as far as descriptions of places need it:
six of the axes, all node tests without a qualifier, predicates that ask no number, the logical connectives, equality,
and the functions `name` and `contains`.  Any other expression comes to nothing (`Document.eval`).

A name without a qualifier stands for a name in no namespace.  Names with a qualifier would have to be looked up among
declarations outside of the document, numbers and the order of positions are not asked for.
-/
namespace StylesheetReversal

open StylesheetReversal.Path

/-- What an expression comes to: some nodes in document order, a string or a truth value. -/
inductive Value (ν : Type)
  | nodes (ns : List ν)
  | string (s : String)
  | truth (b : Bool)
  deriving DecidableEq, Repr

namespace Document

variable {ν : Type}

/-- Whether a node is in no namespace.  The empty namespace, which takes a default namespace back, is none. -/
def Plain (d : Document ν) (n : ν) : Prop := (d.uri n).getD "" = ""

instance (d : Document ν) (n : ν) : Decidable (d.Plain n) := inferInstanceAs (Decidable ((d.uri n).getD "" = ""))

/-- The name of a node with its qualifier, which it has only in a namespace. -/
def qualifiedName (d : Document ν) (n : ν) : String :=
  match d.name n with
  | some name => if d.Plain n then name.base else name.display
  | none => ""

/-- Whether a test for a kind of nodes, and maybe for a name, keeps the node. -/
def keeps (d : Document ν) (kind : NodeKind) (name : Option String) (n : ν) : Bool :=
  let typed :=
    match kind with
    | .all => true
    | .element => d.kind n = .element
    | .attribute => d.kind n = .attribute
    | .nspace => false
    | .text => d.kind n = .text
    | .comment => d.kind n = .comment
    | .processingInstruction => d.kind n = .instruction
  typed && name.all fun base => d.Plain n ∧ d.baseName n = base

end Document

namespace Value

variable {ν : Type} (d : Document ν)

def nodes? : Value ν → Option (List ν)
  | .nodes ns => some ns
  | _ => none

/-- The value as a truth value. -/
def holds : Value ν → Bool
  | .nodes ns => !ns.isEmpty
  | .string s => s ≠ ""
  | .truth b => b

/-- The value as a string; of some nodes, that of the first. -/
def said : Value ν → String
  | .nodes [] => ""
  | .nodes (n :: _) => d.value n
  | .string s => s
  | .truth b => if b then "true" else "false"

/-- Compares two values: nodes by what they say, where one of them is enough, and anything with a truth value as a truth
value. -/
def agrees : Value ν → Value ν → Bool
  | .truth b, v => b == v.holds
  | v, .truth b => v.holds == b
  | .nodes ns, .nodes ms => ns.any fun n => ms.any fun m => d.value n = d.value m
  | .nodes ns, .string s => ns.any fun n => d.value n = s
  | .string s, .nodes ns => ns.any fun n => d.value n = s
  | .string s, .string t => s = t

end Value

namespace Document

variable {ν : Type} [DecidableEq ν] (d : Document ν)

/-- The nodes along an axis, in document order. -/
def along? (n : ν) : Axis → Option (List ν)
  | .self => some [n]
  | .parent => some (d.parent n).toList
  | .child => some (d.children n)
  | .attribute => some (d.attributes n)
  | .precedingSibling => some (d.earlier n)
  | .followingSibling => some (d.later n)
  | _ => none

/-- The nodes of which a condition is true, if it can be decided of all of them. -/
def select? (condition : ν → Option (Value ν)) : List ν → Option (List ν)
  | [] => some []
  | n :: ns =>
    (condition n).bind fun v => (select? condition ns).map fun ms => if v.holds then n :: ms else ms

/-- What an expression comes to at a node. -/
def eval : Expr → ν → Option (Value ν)
  | .string s, _ => some (.string s)
  | .axis along kind none name, n => (d.along? n along).map fun ns => .nodes (ns.filter (d.keeps kind name))
  | .predicate step condition _, n =>
    ((eval step n).bind Value.nodes?).bind fun ns => (select? (eval condition) ns).map .nodes
  | .operator .or (some l) (some r), n => (eval l n).bind fun v => (eval r n).map fun w => .truth (v.holds || w.holds)
  | .operator .and (some l) (some r), n => (eval l n).bind fun v => (eval r n).map fun w => .truth (v.holds && w.holds)
  | .operator .eq (some l) (some r), n => (eval l n).bind fun v => (eval r n).map fun w => .truth (v.agrees d w)
  | .function none "name" [], n => some (.string (d.qualifiedName n))
  | .function none "contains" [whole, part], n =>
    (eval whole n).bind fun v => (eval part n).map fun w => .truth (decide ((w.said d).toList <:+: (v.said d).toList))
  | _, _ => none

/-- The expression is true at the node. -/
def Holds (e : Expr) (n : ν) : Prop := ∃ v, d.eval e n = some v ∧ v.holds = true

/-- The expression comes to something at every node. -/
def Decided (e : Expr) : Prop := ∀ n, ∃ v, d.eval e n = some v

/-! ## What is true -/

section Rules

variable {d} {l r step condition : Expr} {along : Axis} {n m : ν} {ns : List ν}

theorem Holds.and (hl : d.Holds l n) (hr : d.Holds r n) : d.Holds (.operator .and (some l) (some r)) n := by
  obtain ⟨v, hv, hholds⟩ := hl
  obtain ⟨w, hw, hholds'⟩ := hr
  refine ⟨.truth (v.holds && w.holds), by rw [eval, hv, hw]; rfl, ?_⟩
  rw [Value.holds, hholds, hholds', Bool.and_self]

theorem Decided.and (hl : d.Decided l) (hr : d.Decided r) : d.Decided (.operator .and (some l) (some r)) := by
  intro n
  obtain ⟨v, hv⟩ := hl n
  obtain ⟨w, hw⟩ := hr n
  exact ⟨.truth (v.holds && w.holds), by rw [eval, hv, hw]; rfl⟩

theorem eval_axis (ha : d.along? n along = some ns) (kind : NodeKind) (name : Option String) :
    d.eval (.axis along kind none name) n = some (.nodes (ns.filter (d.keeps kind name))) := by
  rw [eval, ha]
  rfl

omit [DecidableEq ν] in
theorem select?_eq {f : ν → Option (Value ν)} : ∀ {ns : List ν}, (∀ m ∈ ns, ∃ v, f m = some v) →
    select? f ns = some (ns.filter fun m => (f m).any Value.holds)
  | [], _ => rfl
  | n :: ns, hf => by
    obtain ⟨v, hv⟩ := hf n List.mem_cons_self
    rw [select?, hv, select?_eq fun m hm => hf m (List.mem_cons_of_mem n hm), List.filter_cons, hv]
    rfl

/-- Nodes for which a condition is true are found if it is true of one of them. -/
theorem Holds.predicate (hstep : d.eval step n = some (.nodes ns)) (hdecided : ∀ m ∈ ns, ∃ v, d.eval condition m = some v)
    (hm : m ∈ ns) (hholds : d.Holds condition m) (reverse : Bool) : d.Holds (.predicate step condition reverse) n := by
  obtain ⟨v, hv, htrue⟩ := hholds
  have kept : m ∈ ns.filter fun m => (d.eval condition m).any Value.holds :=
    List.mem_filter.2 ⟨hm, by rw [hv]; exact htrue⟩
  refine ⟨.nodes (ns.filter fun m => (d.eval condition m).any Value.holds), ?_, ?_⟩
  · rw [eval, hstep]
    exact congrArg (Option.map Value.nodes) (select?_eq hdecided)
  · simp [Value.holds, List.ne_nil_of_mem kept]

end Rules

end Document

end StylesheetReversal
