import StylesheetReversal.Proofs.Path.LongestMatch
import StylesheetReversal.Proofs.Path.Variables
/-!
# The trees of texts

Not every tree is that of a text.  What the parser builds has at every node the shape that its construction calls for
(`Expr.Built`): a number is a numeral, an operator has the operands it takes, and names are spelled like names, apart
from the targets of processing instructions, which are strings like others.  This is proved along a derivation
(`Derives.sound`), from what the lexemes of a text look like (`scan_spelled`).
-/
namespace StylesheetReversal

/-- A name, or a star for all names, with or without a qualifier. -/
structure QName.IsNameTest (n : QName) : Prop where
  base : Text.isName n.base.toList = true ∨ n.base = "*"
  qualifier : ∀ q ∈ n.qualifier, Text.isName q.toList = true

theorem QName.IsQualified.isNameTest {n : QName} (h : n.IsQualified) : n.IsNameTest := ⟨.inl h.base, h.qualifier⟩

theorem QName.IsWildcard.isNameTest {n : QName} (h : n.IsWildcard) : n.IsNameTest := by
  obtain ⟨q, hq, hname⟩ := h.qualifier
  refine ⟨.inr h.base, fun q' hq' => ?_⟩
  rw [hq] at hq'
  cases hq'
  exact hname

namespace Path

/-! ## The lexemes of a text -/

/-- How names and numbers among the tokens of a text are spelled. -/
structure Token.Spelled (x : Token) : Prop where
  name : x.kind = .name → Spells x.text
  number : x.kind = .number → Numeral x.text

theorem munch_numeral {prev : Kind} {front w behind : List Char} (h : munch prev front = ⟨.number, w, behind, none⟩) :
    Numeral w := by
  have kind : (munch prev front).kind = .number := by rw [h]
  have fixedKinds : ∀ entry ∈ Munch.fixed, entry.2 ≠ .number := by decide
  cases front with
  | nil => cases kind
  | cons c cs =>
    by_cases hn : Munch.startsNumber (c :: cs) = true
    · rw [munch_number prev hn] at h
      have whole := Munch.number_eq (congrArg Munch.defect h)
      rw [h] at whole
      injection whole with _ hw
      exact hw ▸ Munch.numeral_decimal hn
    · rw [munch, if_neg hn] at kind
      split at kind
      · rw [quoted_kind] at kind
        cases kind
      · split at kind
        · exact absurd (kind ▸ word_kind prev (c :: cs)) (by decide)
        · split at kind
          · next hf =>
            dsimp only at kind
            split at kind
            · cases kind
            · exact absurd kind (fixedKinds _ (List.mem_of_find?_eq_some hf))
          · cases kind

theorem scan_spelled {text : String} {start : Nat} {l : Lexeme} (hl : l ∈ (scan text start).lexemes) :
    l.token.Spelled := by
  refine ⟨scan_spells hl, fun hk => ?_⟩
  obtain ⟨prev, front, behind, hm⟩ := scan_munched hl
  rw [show l.kind = .number from hk] at hm
  exact munch_numeral hm

/-! ## The nodes of a tree -/

namespace Expr

mutual

/-- A tree and the trees inside it, each in front of those inside it. -/
def nodes : Expr → List Expr
  | .string value => [.string value]
  | .number text => [.number text]
  | .operator op left right => .operator op left right :: (nodesOfOperand left ++ nodesOfOperand right)
  | .axis along kind qualifier name => [.axis along kind qualifier name]
  | .join left right => .join left right :: (nodes left ++ nodes right)
  | .predicate node condition reverse => .predicate node condition reverse :: (nodes node ++ nodes condition)
  | .variable qualifier name => [.variable qualifier name]
  | .function qualifier name args => .function qualifier name args :: nodesOfAll args

def nodesOfOperand : Option Expr → List Expr
  | none => []
  | some operand => nodes operand

def nodesOfAll : List Expr → List Expr
  | [] => []
  | arg :: args => nodes arg ++ nodesOfAll args

end

/-- What a node has to do with what it is called and with the number of nodes inside it. -/
inductive Built : Expr → Prop
  | string {value : String} : Built (.string value)
  | number {text : String} : Numeral text.toList → Built (.number text)
  | binary {op : Operator} {left right : Expr} : op ≠ .unaryMinus → Built (.operator op (some left) (some right))
  | negation {inner : Expr} : Built (.operator .unaryMinus (some inner) none)
  | named {along : Axis} {kind : NodeKind} {qualifier name : Option String} : kind.isNamed = true →
      (⟨qualifier, name.getD "*"⟩ : QName).IsNameTest → name ≠ some "*" → Built (.axis along kind qualifier name)
  | unnamed {along : Axis} {kind : NodeKind} : kind.isNamed = false → Built (.axis along kind none none)
  | instruction {along : Axis} {target : String} : Built (.axis along .processingInstruction none (some target))
  | join {left right : Expr} : Built (.join left right)
  | predicate {node condition : Expr} {reverse : Bool} : Built (.predicate node condition reverse)
  | variable {qualifier : Option String} {name : String} : (⟨qualifier, name⟩ : QName).IsNameTest →
      Built (.variable qualifier name)
  | function {qualifier : Option String} {name : String} {args : List Expr} : (⟨qualifier, name⟩ : QName).IsQualified →
      Built (.function qualifier name args)

namespace Built

variable {qualifier : Option String} {name text : String} {args : List Expr}

theorem numeral (h : Built (.number text)) : Numeral text.toList := by
  cases h
  assumption

theorem isNameTest (h : Built (.variable qualifier name)) : (⟨qualifier, name⟩ : QName).IsNameTest := by
  cases h
  assumption

theorem isQualified (h : Built (.function qualifier name args)) : (⟨qualifier, name⟩ : QName).IsQualified := by
  cases h
  assumption

end Built

/-- Every node is built as it should be. -/
def Sound (t : Expr) : Prop := ∀ x ∈ t.nodes, Built x

namespace Sound

variable {t l r : Expr} {op : Operator}

theorem leaf (h : Built t) (hnodes : t.nodes = [t]) : Sound t := by
  rw [Sound, hnodes, List.forall_mem_singleton]
  exact h

theorem binary (hop : op ≠ .unaryMinus) (hl : Sound l) (hr : Sound r) : Sound (.binary op l r) :=
  List.forall_mem_cons.2 ⟨.binary hop, List.forall_mem_append.2 ⟨hl, hr⟩⟩

theorem negation (h : Sound t) : Sound (.negation t) :=
  List.forall_mem_cons.2 ⟨.negation, List.forall_mem_append.2 ⟨h, nofun⟩⟩

theorem join (hl : Sound l) (hr : Sound r) : Sound (.join l r) :=
  List.forall_mem_cons.2 ⟨.join, List.forall_mem_append.2 ⟨hl, hr⟩⟩

theorem predicate {reverse : Bool} (hl : Sound l) (hr : Sound r) : Sound (.predicate l r reverse) :=
  List.forall_mem_cons.2 ⟨.predicate, List.forall_mem_append.2 ⟨hl, hr⟩⟩

theorem whole (along : Axis) : Sound (.whole along) := leaf (.unnamed rfl) rfl

theorem slashSlash (hl : Sound l) (hr : Sound r) : Sound (.slashSlash l r) :=
  hl.join ((whole .descendantOrSelf).join hr)

end Sound

end Expr

/-! ## Along a derivation -/

/-- All tokens are spelled as in a text. -/
def AllSpelled (w : List Token) : Prop := ∀ x ∈ w, x.Spelled

namespace AllSpelled

variable {v w : List Token} {x y : Token}

theorem left (h : AllSpelled (v ++ w)) : AllSpelled v := (List.forall_mem_append.1 h).1

theorem right (h : AllSpelled (v ++ w)) : AllSpelled w := (List.forall_mem_append.1 h).2

theorem head (h : AllSpelled (x :: w)) : x.Spelled := (List.forall_mem_cons.1 h).1

theorem tail (h : AllSpelled (x :: w)) : AllSpelled w := (List.forall_mem_cons.1 h).2

end AllSpelled

theorem isNamed_principalKind (a : Axis) : a.principalKind.isNamed = true := by cases a <;> rfl

theorem isNamed_of_typeName {name : String} {k : NodeKind} (h : NodeKind.ofTypeName? name = some k) :
    k.isNamed = false := by
  unfold NodeKind.ofTypeName? at h
  split at h <;> cases h <;> rfl

/-- A minus before an operand is no binary operator. -/
theorem ne_unaryMinus_of_operator? {k : Kind} {op : Operator} (h : k.operator? = some op) : op ≠ .unaryMinus := by
  rintro rfl
  cases k <;> cases h

namespace Token

variable {x : Token}

theorem isNameTest_qname (h : x.Spelled) (hk : x.kind = .name) : x.qname.IsNameTest :=
  (qualified_or_wildcard (h.name hk)).elim (·.isNameTest) (·.isNameTest)

/-- The names of functions are no tests. -/
theorem isQualified_of_isFunctionName (h : x.Spelled) (hx : x.isFunctionName = true) : x.qname.IsQualified := by
  refine (qualified_or_wildcard (h.name (kind_of_isFunctionName hx))).resolve_right fun hwild => ?_
  simp only [isFunctionName, Bool.and_eq_true, Bool.not_eq_true'] at hx
  have : x.name.isWildcard = true := decide_eq_true hwild.base
  rw [this] at hx
  exact absurd hx.1.2 (by decide)

theorem built_test (a : Axis) (h : x.Spelled) (hk : x.kind = .name) :
    Expr.Built (.axis a a.principalKind x.name.qualifier? x.name.base?) := by
  have base : x.name.base?.getD "*" = x.name.base ∧ x.name.base? ≠ some "*" := by
    rw [WrittenName.base?]
    by_cases hw : x.name.isWildcard = true
    · rw [if_pos hw]
      exact ⟨(of_decide_eq_true hw).symm, nofun⟩
    · rw [if_neg hw]
      exact ⟨rfl, fun heq => hw (decide_eq_true (Option.some.inj heq))⟩
  exact .named (isNamed_principalKind a) (by rw [base.1]; exact isNameTest_qname h hk) base.2

end Token

mutual

/-- **What tokens derive is sound** if their names and numbers are spelled as in a text. -/
theorem Derives.sound {s : Symbol} {w : List Token} {t : Expr} : Derives s w t → AllSpelled w → t.Sound
  -- a node without others in it
  | .root _, _ => .whole .root
  | .dot _, _ => .whole .self
  | .dotDot _, _ => .whole .parent
  | .star _, _ => .leaf (.named (isNamed_principalKind _) ⟨.inr rfl, nofun⟩ nofun) rfl
  | .name hx, h => .leaf (Token.built_test _ h.head hx) rfl
  | .nodeType _ _ hk _ _, _ => .leaf (.unnamed (isNamed_of_typeName hk)) rfl
  | .instruction _ _ _ _ _ _, _ => .leaf .instruction rfl
  | .string _, _ => .leaf .string rfl
  | .number hx, h => .leaf (.number (by rw [String.toList_ofList]; exact h.head.number hx)) rfl
  | .variable _ hy, h => .leaf (.variable (Token.isNameTest_qname h.tail.head hy)) rfl
  | .call hx _ _, h => .leaf (.function (Token.isQualified_of_isFunctionName h.head hx)) rfl
  | .callWith hx _ _ hs, h => List.forall_mem_cons.2
    ⟨.function (Token.isQualified_of_isFunctionName h.head hx), hs.sound h.tail.tail.left⟩
  -- the node of a phrase inside
  | .tighter _ hd, h => hd.sound h
  | .unary hd, h => hd.sound h
  | .member hd, h => hd.sound h
  | .location hd, h => hd.sound h
  | .filter hd, h => hd.sound h
  | .relative hd, h => hd.sound h
  | .step hd, h => hd.sound h
  | .child hd, h => hd.sound h
  | .test hd, h => hd.sound h
  | .primary hd, h => hd.sound h
  | .attribute _ hd, h => hd.sound h.tail
  | .axis _ _ _ hd, h => hd.sound h.tail.tail
  | .parens _ _ hd, h => hd.sound h.tail.left
  -- a node of one phrase or two
  | .negation _ hd, h => .negation (hd.sound h.tail)
  | .binary _ hop hl hr, h => .binary (ne_unaryMinus_of_operator? hop) (hl.sound h.left) (hr.sound h.right.tail)
  | .union _ hl hr, h => .binary (by decide) (hl.sound h.left) (hr.sound h.right.tail)
  | .rootSlash _ hd, h => .join (.whole .root) (hd.sound h.tail)
  | .rootSlashSlash _ hd, h => .slashSlash (.whole .root) (hd.sound h.tail)
  | .filterSlash _ hl hr, h => .join (hl.sound h.left) (hr.sound h.right.tail)
  | .filterSlashSlash _ hl hr, h => .slashSlash (hl.sound h.left) (hr.sound h.right.tail)
  | .stepSlash _ hl hr, h => .join (hl.sound h.left) (hr.sound h.right.tail)
  | .stepSlashSlash _ hl hr, h => .slashSlash (hl.sound h.left) (hr.sound h.right.tail)
  | .testPredicate _ _ hl hr, h => .predicate (hl.sound h.left) (hr.sound h.right.tail.left)
  | .filterPredicate _ _ hl hr, h => .predicate (hl.sound h.left) (hr.sound h.right.tail.left)

theorem DerivesArguments.sound {w : List Token} {args : List Expr} :
    DerivesArguments w args → AllSpelled w → ∀ x ∈ Expr.nodesOfAll args, Expr.Built x
  | .last hd, h => by
    rw [Expr.nodesOfAll, Expr.nodesOfAll, List.append_nil]
    exact hd.sound h
  | .more _ hd hs, h => List.forall_mem_append.2 ⟨hd.sound h.left, hs.sound h.right.tail⟩

end

/-- **Every node of a tree that was read** is built as its construction calls for. -/
theorem Expr.sound_of_parse {text : String} {t : Expr} (h : parse text = .ok t) : t.Sound := by
  refine (derives_of_parse h).2.sound fun x hx => ?_
  obtain ⟨l, hl, rfl⟩ := List.mem_map.1 hx
  exact scan_spelled hl

end Path

end StylesheetReversal
