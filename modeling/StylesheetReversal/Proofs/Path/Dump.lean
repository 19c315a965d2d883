import Mathlib.Data.List.Nodup
import StylesheetReversal.Proofs.Path.Built
import StylesheetReversal.Proofs.Path.Respacing
/-!
# Reading a printed tree

A tree is printed with nothing but parentheses and spaces between its parts, and yet there is one way only to read what
is printed, if no string literal in it has an apostrophe and no target of a processing instruction a closing parenthesis
(`Expr.Quotable`).  Each part ends at a character that cannot be inside it, and behind the parenthesis that opens a tree
stands a word that tells its shape (`Head.word_injective`).  So no printed tree is the beginning of another
(`Expr.display_append_inj`), and trees that were read are equal if they are printed alike (`Expr.display_injective`).
-/
namespace StylesheetReversal.Path

/-! ## Parts of a text -/

/-- Texts are alike up to where both stop. -/
theorem append_inj_of_stop {stop : Char → Prop} : ∀ {u u' r r' : List Char}, (∀ c ∈ u, ¬ stop c) →
    (∀ c ∈ u', ¬ stop c) → (∀ c ∈ r.head?, stop c) → (∀ c ∈ r'.head?, stop c) → u ++ r = u' ++ r' → u = u' ∧ r = r'
  | [], [], _, _, _, _, _, _, h => ⟨rfl, h⟩
  | [], d :: u', r, _, _, hu', hr, _, h => by
    rw [List.nil_append] at h
    subst h
    exact absurd (hr d rfl) (hu' d List.mem_cons_self)
  | d :: u, [], _, r', hu, _, _, hr', h => by
    rw [List.nil_append] at h
    subst h
    exact absurd (hr' d rfl) (hu d List.mem_cons_self)
  | d :: u, d' :: u', _, _, hu, hu', hr, hr', h => by
    obtain ⟨rfl, hmore⟩ := List.cons.inj h
    obtain ⟨rfl, hrest⟩ := append_inj_of_stop (List.forall_mem_cons.1 hu).2 (List.forall_mem_cons.1 hu').2 hr hr' hmore
    exact ⟨rfl, hrest⟩

/-- Texts are alike up to a character that is in neither. -/
theorem append_inj_of_notMem {c : Char} {u u' r r' : List Char} (hu : c ∉ u) (hu' : c ∉ u')
    (h : u ++ c :: r = u' ++ c :: r') : u = u' ∧ r = r' := by
  have stops : ∀ {w : List Char}, c ∉ w → ∀ d ∈ w, ¬ d = c := fun hw d hd hdc => hw (hdc ▸ hd)
  have head : ∀ {w : List Char}, ∀ d ∈ (c :: w).head?, d = c := fun d hd => (Option.some.inj hd).symm
  obtain ⟨hstart, hrest⟩ := append_inj_of_stop (stops hu) (stops hu') head head h
  exact ⟨hstart, (List.cons.inj hrest).2⟩

theorem Dense.append_inj {u u' r r' : List Char} (hu : Dense u) (hu' : Dense u') (hr : ∀ c ∈ r.head?, c ∈ breaks)
    (hr' : ∀ c ∈ r'.head?, c ∈ breaks) (h : u ++ r = u' ++ r') : u = u' ∧ r = r' :=
  append_inj_of_stop hu hu' hr hr' h

theorem head_mem_breaks {c : Char} (hc : c ∈ breaks) (w : List Char) : ∀ d ∈ (c :: w).head?, d ∈ breaks := by
  rintro d ⟨⟩
  exact hc

theorem Dense.notMem {u : List Char} {c : Char} (hu : Dense u) (hc : c ∈ breaks) : c ∉ u := fun hmem => hu c hmem hc

/-! ## Printed names -/

section Names

open StylesheetReversal.Path.Expr

variable {q q' : Option String} {n n' : String}

theorem displayName_some {q : String} (hq : Text.isName q.toList = true) (n : String) :
    displayName (some q) n = q ++ ":" ++ n := by
  refine if_neg fun hempty => ?_
  subst hempty
  cases hq

theorem colon_notMem_of_base (h : Text.isName n.toList = true ∨ n = "*") : ':' ∉ n.toList := by
  rcases h with h | rfl
  · exact fun hmem => absurd (Text.ne_colon_of_isName h ':' hmem) (by decide)
  · decide

theorem dense_displayName (h : (⟨q, n⟩ : QName).IsNameTest) : Dense (displayName q n).toList := by
  have base : Dense n.toList := by
    rcases h.base with hbase | hbase
    · exact .of_isName hbase
    · rw [show n = "*" from hbase]
      decide
  cases q with
  | none => exact base
  | some q =>
    have name := h.qualifier q rfl
    rw [displayName_some name, String.toList_append, String.toList_append]
    exact ((Dense.of_isName name).append (by decide)).append base

theorem displayName_injective (h : (⟨q, n⟩ : QName).IsNameTest) (h' : (⟨q', n'⟩ : QName).IsNameTest)
    (heq : displayName q n = displayName q' n') : q = q' ∧ n = n' := by
  have colon : ∀ {q n}, Text.isName q.toList = true → ':' ∈ (displayName (some q) n).toList := fun hq => by
    rw [displayName_some hq]
    simp
  have noColon : ∀ {n : String}, Text.isName n.toList = true ∨ n = "*" → ':' ∉ (displayName none n).toList :=
    colon_notMem_of_base
  cases q with
  | none =>
    cases q' with
    | none => exact ⟨rfl, heq⟩
    | some q' => exact absurd (heq ▸ colon (h'.qualifier q' rfl)) (noColon h.base)
  | some q =>
    have name := h.qualifier q rfl
    cases q' with
    | none => exact absurd (heq ▸ colon name) (noColon h'.base)
    | some q' =>
      have name' := h'.qualifier q' rfl
      rw [displayName_some name, displayName_some name', ← String.toList_inj] at heq
      simp only [String.toList_append, List.append_assoc] at heq
      obtain ⟨hq, hn⟩ := append_inj_of_notMem (colon_notMem_of_base (.inl name)) (colon_notMem_of_base (.inl name')) heq
      exact ⟨congrArg some (String.toList_inj.1 hq), String.toList_inj.1 hn⟩

end Names

/-! ## Printed node tests -/

section Tests

open StylesheetReversal.Path.Expr

variable {a a' : Axis} {k : NodeKind} {q q' n n' : Option String}

theorem NodeKind.label_injective {k k' : NodeKind} (h : k.label = k'.label) : k = k' := by
  cases k <;> cases k' <;> first | rfl | exact absurd h (by decide)

theorem NodeKind.dense_label (k : NodeKind) : Dense k.label.toList := by
  cases k <;> decide

theorem displayTest_named (hk : k.isNamed = true) : displayTest k q n = " " ++ displayName q (n.getD "*") := by
  cases n with
  | none => exact if_pos hk
  | some name => rfl

theorem displayTest_unnamed (hk : k.isNamed = false) : displayTest k q none = "" :=
  if_neg (by rw [hk]; decide)

/-- What is printed for a test begins with a space, if it is anything. -/
theorem displayTest_head (k : NodeKind) (q n : Option String) (r : List Char) :
    ∀ c ∈ ((displayTest k q n).toList ++ ')' :: r).head?, c ∈ breaks := by
  have space : ∀ s : String, ∀ c ∈ ((" " ++ s).toList ++ ')' :: r).head?, c ∈ breaks := by
    intro s
    rw [String.toList_append]
    exact head_mem_breaks (c := ' ') (by decide) _
  unfold displayTest
  split
  · exact space _
  · split
    · exact space _
    · exact head_mem_breaks (c := ')') (by decide) r

theorem paren_notMem_displayTest (h : Built (.axis a k q n))
    (ht : ∀ target, k = .processingInstruction → n = some target → ')' ∉ target.toList) :
    ')' ∉ (displayTest k q n).toList := by
  cases h with
  | named hk hn _ =>
    rw [displayTest_named hk, String.toList_append, List.mem_append, not_or]
    exact ⟨by decide, (dense_displayName hn).notMem (by decide)⟩
  | unnamed hk =>
    rw [displayTest_unnamed hk]
    exact List.not_mem_nil
  | @instruction _ target =>
    rw [displayTest, String.toList_append, List.mem_append, not_or]
    exact ⟨by decide, ht target rfl rfl⟩

theorem displayTest_instruction_ne (target : String) :
    displayTest .processingInstruction none (some target) ≠ displayTest .processingInstruction none none := by
  intro heq
  have := congrArg String.toList heq
  simp [displayTest, NodeKind.isNamed] at this

theorem displayTest_injective (h : Built (.axis a k q n)) (h' : Built (.axis a' k q' n'))
    (heq : displayTest k q n = displayTest k q' n') : q = q' ∧ n = n' := by
  cases h with
  | named hk hn hstar =>
    cases h' with
    | named _ hn' hstar' =>
      rw [displayTest_named hk, displayTest_named hk] at heq
      obtain ⟨hq, hname⟩ := displayName_injective hn hn' ((String.append_right_inj " ").1 heq)
      refine ⟨hq, ?_⟩
      cases n <;> cases n' <;> simp_all
    | unnamed hk' =>
      rw [hk] at hk'
      cases hk'
    | instruction => cases hk
  | unnamed hk =>
    cases h' with
    | named hk' _ _ =>
      rw [hk] at hk'
      cases hk'
    | unnamed _ => exact ⟨rfl, rfl⟩
    | @instruction _ target => exact absurd heq.symm (displayTest_instruction_ne target)
  | @instruction _ target =>
    cases h' with
    | named hk' _ _ => cases hk'
    | unnamed _ => exact absurd heq (displayTest_instruction_ne target)
    | @instruction _ target' => exact ⟨rfl, congrArg some ((String.append_right_inj " ").1 heq)⟩

end Tests

/-! ## The word behind the parenthesis -/

/-- The shapes of trees as far as the word in front tells them. -/
inductive Head
  | string
  | number
  | operator (op : Operator)
  | axis (along : Axis)
  | join
  | predicate (reverse : Bool)
  | variable
  | function
  deriving DecidableEq

namespace Head

def word : Head → String
  | .string => "string"
  | .number => "number"
  | .operator op => op.label
  | .axis along => along.label
  | .join => "step"
  | .predicate false => "predicate"
  | .predicate true => "predicate-reverse"
  | .variable => "variable"
  | .function => "function"

def operators : List Operator :=
  [.or, .and, .eq, .ne, .lt, .le, .gt, .ge, .plus, .minus, .multiply, .divide, .modulo, .unaryMinus, .union]

def axes : List Axis :=
  [.ancestor, .ancestorOrSelf, .attribute, .child, .descendant, .descendantOrSelf, .following, .followingSibling,
    .nspace, .parent, .preceding, .precedingSibling, .self, .root]

def all : List Head :=
  [.string, .number, .join, .predicate false, .predicate true, .variable, .function] ++ operators.map .operator ++
    axes.map .axis

theorem mem_all (x : Head) : x ∈ all := by
  cases x with
  | operator op => cases op <;> decide
  | axis along => cases along <;> decide
  | predicate reverse => cases reverse <;> decide
  | _ => decide

/-- **The words tell the shapes.** -/
theorem word_injective {x y : Head} (h : x.word = y.word) : x = y := by
  have nodup : (all.map word).Nodup := by decide +kernel
  exact List.inj_on_of_nodup_map nodup (mem_all x) (mem_all y) h

theorem dense_word (x : Head) : Dense x.word.toList := by
  cases x with
  | operator op => cases op <;> decide
  | axis along => cases along <;> decide
  | predicate reverse => cases reverse <;> decide
  | _ => decide

end Head

namespace Expr

def head : Expr → Head
  | .string _ => .string
  | .number _ => .number
  | .operator op _ _ => .operator op
  | .axis along _ _ _ => .axis along
  | .join _ _ => .join
  | .predicate _ _ reverse => .predicate reverse
  | .variable _ _ => .variable
  | .function _ _ _ => .function

/-- What is printed behind the word and a space. -/
def body : Expr → List Char
  | .string value => '\'' :: (value.toList ++ ['\'', ')'])
  | .number text => text.toList ++ [')']
  | .operator _ (some left) (some right) => left.display.toList ++ ' ' :: (right.display.toList ++ [')'])
  | .operator _ (some inner) none => inner.display.toList ++ [')']
  | .operator _ none _ => []
  | .axis _ kind qualifier name => kind.label.toList ++ ((displayTest kind qualifier name).toList ++ [')'])
  | .join left right => left.display.toList ++ ' ' :: (right.display.toList ++ [')'])
  | .predicate node condition _ => node.display.toList ++ ' ' :: (condition.display.toList ++ [')'])
  | .variable qualifier name => '$' :: ((displayName qualifier name).toList ++ [')'])
  | .function qualifier name args => (displayName qualifier name).toList ++ ((displayArguments args).toList ++ [')'])

theorem toList_display {t : Expr} (h : Built t) : t.display.toList = '(' :: (t.head.word.toList ++ ' ' :: t.body) := by
  cases h with
  | @predicate _ _ reverse => cases reverse <;> simp [display, head, Head.word, body]
  | _ => simp [display, displayOperand, head, Head.word, body]

/-- Trees that are printed alike have the same shape, and what is printed behind it is the same. -/
theorem head_and_body {t t' : Expr} {r r' : List Char} (ht : Built t) (ht' : Built t')
    (h : t.display.toList ++ r = t'.display.toList ++ r') : t.head = t'.head ∧ t.body ++ r = t'.body ++ r' := by
  rw [toList_display ht, toList_display ht'] at h
  simp only [List.cons_append, List.append_assoc, List.cons.injEq, true_and] at h
  have space := head_mem_breaks (c := ' ') (by decide)
  obtain ⟨hword, hbody⟩ := (Head.dense_word t.head).append_inj (Head.dense_word t'.head) (space _) (space _) h
  exact ⟨Head.word_injective (String.toList_inj.1 hword), (List.cons.inj hbody).2⟩

/-! ## Trees that can be read -/

/-- No string literal has an apostrophe, and no target of a processing instruction a closing parenthesis. -/
structure Quotable (t : Expr) : Prop where
  string : ∀ value, .string value ∈ t.nodes → '\'' ∉ value.toList
  target : ∀ along qualifier target, .axis along .processingInstruction qualifier (some target) ∈ t.nodes →
    ')' ∉ target.toList

/-- Built as a parser builds it, and quotable. -/
structure Legible (t : Expr) : Prop extends Quotable t where
  sound : t.Sound

theorem mem_nodes_self (t : Expr) : t ∈ t.nodes := by
  cases t <;> simp [nodes]

theorem nodes_subset_of_mem {arg : Expr} : ∀ {args : List Expr}, arg ∈ args → arg.nodes ⊆ nodesOfAll args
  | [], h => by cases h
  | other :: args, h => by
    rw [nodesOfAll]
    rcases List.mem_cons.1 h with rfl | h
    · exact List.subset_append_left _ _
    · exact List.Subset.trans (nodes_subset_of_mem h) (List.subset_append_right _ _)

namespace Legible

variable {t u : Expr}

theorem built (h : Legible t) : Built t := h.sound t (mem_nodes_self t)

/-- What is inside a legible tree is legible. -/
theorem sub (h : Legible t) (hsub : u.nodes ⊆ t.nodes) : Legible u where
  string value hmem := h.string value (hsub hmem)
  target along qualifier target hmem := h.target along qualifier target (hsub hmem)
  sound x hx := h.sound x (hsub hx)

variable {op : Operator} {reverse : Bool} {qualifier : Option String} {name : String} {args : List Expr}

theorem operand (h : Legible (.operator op (some t) none)) : Legible t := h.sub (by simp [nodes, nodesOfOperand])

theorem operands (h : Legible (.operator op (some t) (some u))) : Legible t ∧ Legible u :=
  ⟨h.sub (by simp [nodes, nodesOfOperand]), h.sub (by simp [nodes, nodesOfOperand])⟩

theorem join (h : Legible (.join t u)) : Legible t ∧ Legible u :=
  ⟨h.sub (by simp [nodes]), h.sub (by simp [nodes])⟩

theorem predicate (h : Legible (.predicate t u reverse)) : Legible t ∧ Legible u :=
  ⟨h.sub (by simp [nodes]), h.sub (by simp [nodes])⟩

theorem arguments (h : Legible (.function qualifier name args)) : ∀ arg ∈ args, Legible arg :=
  fun _ harg => h.sub (List.subset_cons_of_subset _ (nodes_subset_of_mem harg))

end Legible

/-! ## Unique readability -/

theorem toList_displayArguments (arg : Expr) (args : List Expr) :
    (displayArguments (arg :: args)).toList = ' ' :: (arg.display.toList ++ (displayArguments args).toList) := by
  simp [displayArguments]

theorem displayArguments_head (args : List Expr) (r : List Char) :
    ∀ c ∈ ((displayArguments args).toList ++ ')' :: r).head?, c ∈ breaks := by
  cases args with
  | nil => exact head_mem_breaks (c := ')') (by decide) r
  | cons arg args =>
    rw [toList_displayArguments]
    exact head_mem_breaks (c := ' ') (by decide) _

/-- Two trees with a space between them, if each can be told from others. -/
theorem pair_append_inj {t t' u u' : Expr} {r r' : List Char}
    (ht : ∀ {r r' : List Char}, t.display.toList ++ r = t'.display.toList ++ r' → t = t' ∧ r = r')
    (hu : ∀ {r r' : List Char}, u.display.toList ++ r = u'.display.toList ++ r' → u = u' ∧ r = r')
    (h : t.display.toList ++ ' ' :: (u.display.toList ++ [')']) ++ r =
      t'.display.toList ++ ' ' :: (u'.display.toList ++ [')']) ++ r') : t = t' ∧ u = u' ∧ r = r' := by
  simp only [List.append_assoc, List.cons_append, List.nil_append] at h
  obtain ⟨hfirst, hrest⟩ := ht h
  obtain ⟨hsecond, hrest⟩ := hu (List.cons.inj hrest).2
  exact ⟨hfirst, hsecond, (List.cons.inj hrest).2⟩

mutual

-- Induction on the first tree.  The word in front leaves one shape for the second tree, and what is printed behind it is
-- taken apart from the left, each part up to where it has to stop.

/-- **No printed tree is the beginning of another.** -/
theorem display_append_inj : ∀ {t t' : Expr} {r r' : List Char}, Legible t → Legible t' →
    t.display.toList ++ r = t'.display.toList ++ r' → t = t' ∧ r = r'
  | .string value, t', r, r', ht, ht', h => by
    obtain ⟨hhead, hbody⟩ := head_and_body ht.built ht'.built h
    cases t' with
    | string value' =>
      simp only [body, List.cons_append, List.append_assoc, List.cons.injEq, true_and] at hbody
      obtain ⟨hvalue, hrest⟩ := append_inj_of_notMem (ht.string value (mem_nodes_self _))
        (ht'.string value' (mem_nodes_self _)) hbody
      exact ⟨congrArg _ (String.toList_inj.1 hvalue), (List.cons.inj hrest).2⟩
    | _ => cases hhead
  | .number text, t', r, r', ht, ht', h => by
    obtain ⟨hhead, hbody⟩ := head_and_body ht.built ht'.built h
    cases t' with
    | number text' =>
      simp only [body, List.append_assoc] at hbody
      obtain ⟨htext, hrest⟩ := append_inj_of_notMem (ht.built.numeral.dense.notMem (by decide))
        (ht'.built.numeral.dense.notMem (by decide)) hbody
      exact ⟨congrArg _ (String.toList_inj.1 htext), hrest⟩
    | _ => cases hhead
  | .operator op none right, t', r, r', ht, ht', h => nomatch ht.built
  | .operator op (some left) none, t', r, r', ht, ht', h => by
    obtain ⟨hhead, hbody⟩ := head_and_body ht.built ht'.built h
    cases t' with
    | operator op' left' right' =>
      obtain rfl : op = op' := Head.operator.inj hhead
      have minus : op = .unaryMinus := by cases ht.built; rfl
      cases ht'.built with
      | binary hop => exact absurd minus hop
      | @negation left' =>
        simp only [body, List.append_assoc] at hbody
        obtain ⟨rfl, hrest⟩ := display_append_inj ht.operand ht'.operand hbody
        exact ⟨rfl, (List.cons.inj hrest).2⟩
    | _ => cases hhead
  | .operator op (some left) (some right), t', r, r', ht, ht', h => by
    obtain ⟨hhead, hbody⟩ := head_and_body ht.built ht'.built h
    cases t' with
    | operator op' left' right' =>
      obtain rfl : op = op' := Head.operator.inj hhead
      have notMinus : op ≠ .unaryMinus := by cases ht.built; assumption
      cases ht'.built with
      | negation => exact absurd rfl notMinus
      | @binary _ left' right' =>
        obtain ⟨rfl, rfl, hrest⟩ := pair_append_inj (display_append_inj ht.operands.1 ht'.operands.1)
          (display_append_inj ht.operands.2 ht'.operands.2) hbody
        exact ⟨rfl, hrest⟩
    | _ => cases hhead
  | .axis along kind qualifier name, t', r, r', ht, ht', h => by
    obtain ⟨hhead, hbody⟩ := head_and_body ht.built ht'.built h
    cases t' with
    | axis along' kind' qualifier' name' =>
      obtain rfl : along = along' := Head.axis.inj hhead
      simp only [body, List.append_assoc] at hbody
      obtain ⟨hlabel, htest⟩ := (NodeKind.dense_label kind).append_inj (NodeKind.dense_label kind')
        (displayTest_head _ _ _ _) (displayTest_head _ _ _ _) hbody
      obtain rfl := NodeKind.label_injective (String.toList_inj.1 hlabel)
      -- the kinds are the same, so both tests end at the first closing parenthesis
      have clear : ∀ {q n}, Legible (.axis along kind q n) → ')' ∉ (displayTest kind q n).toList := fun hl =>
        paren_notMem_displayTest hl.built fun target hk hn => by
          subst hk hn
          exact hl.target _ _ target (mem_nodes_self _)
      obtain ⟨hprinted, hrest⟩ := append_inj_of_notMem (clear ht) (clear ht') htest
      obtain ⟨rfl, rfl⟩ := displayTest_injective ht.built ht'.built (String.toList_inj.1 hprinted)
      exact ⟨rfl, hrest⟩
    | _ => cases hhead
  | .join left right, t', r, r', ht, ht', h => by
    obtain ⟨hhead, hbody⟩ := head_and_body ht.built ht'.built h
    cases t' with
    | join left' right' =>
      obtain ⟨rfl, rfl, hrest⟩ := pair_append_inj (display_append_inj ht.join.1 ht'.join.1)
        (display_append_inj ht.join.2 ht'.join.2) hbody
      exact ⟨rfl, hrest⟩
    | _ => cases hhead
  | .predicate node condition reverse, t', r, r', ht, ht', h => by
    obtain ⟨hhead, hbody⟩ := head_and_body ht.built ht'.built h
    cases t' with
    | predicate node' condition' reverse' =>
      obtain rfl : reverse = reverse' := Head.predicate.inj hhead
      obtain ⟨rfl, rfl, hrest⟩ := pair_append_inj (display_append_inj ht.predicate.1 ht'.predicate.1)
        (display_append_inj ht.predicate.2 ht'.predicate.2) hbody
      exact ⟨rfl, hrest⟩
    | _ => cases hhead
  | .variable qualifier name, t', r, r', ht, ht', h => by
    obtain ⟨hhead, hbody⟩ := head_and_body ht.built ht'.built h
    cases t' with
    | «variable» qualifier' name' =>
      have named := ht.built.isNameTest
      have named' := ht'.built.isNameTest
      simp only [body, List.cons_append, List.append_assoc, List.cons.injEq, true_and] at hbody
      obtain ⟨hname, hrest⟩ := append_inj_of_notMem ((dense_displayName named).notMem (by decide))
        ((dense_displayName named').notMem (by decide)) hbody
      obtain ⟨rfl, rfl⟩ := displayName_injective named named' (String.toList_inj.1 hname)
      exact ⟨rfl, hrest⟩
    | _ => cases hhead
  | .function qualifier name args, t', r, r', ht, ht', h => by
    obtain ⟨hhead, hbody⟩ := head_and_body ht.built ht'.built h
    cases t' with
    | function qualifier' name' args' =>
      have named := ht.built.isQualified.isNameTest
      have named' := ht'.built.isQualified.isNameTest
      simp only [body, List.append_assoc] at hbody
      obtain ⟨hname, hargs⟩ := (dense_displayName named).append_inj (dense_displayName named')
        (displayArguments_head _ _) (displayArguments_head _ _) hbody
      obtain ⟨rfl, rfl⟩ := displayName_injective named named' (String.toList_inj.1 hname)
      obtain ⟨rfl, hrest⟩ := arguments_append_inj ht.arguments ht'.arguments hargs
      exact ⟨rfl, hrest⟩
    | _ => cases hhead

theorem arguments_append_inj : ∀ {args args' : List Expr} {r r' : List Char}, (∀ arg ∈ args, Legible arg) →
    (∀ arg ∈ args', Legible arg) →
    (displayArguments args).toList ++ ')' :: r = (displayArguments args').toList ++ ')' :: r' → args = args' ∧ r = r'
  | [], [], _, _, _, _, h => ⟨rfl, (List.cons.inj h).2⟩
  | [], arg' :: args', _, _, _, _, h => by
    rw [toList_displayArguments] at h
    cases h
  | arg :: args, [], _, _, _, _, h => by
    rw [toList_displayArguments] at h
    cases h
  | arg :: args, arg' :: args', r, r', ha, ha', h => by
    rw [toList_displayArguments, toList_displayArguments] at h
    simp only [List.cons_append, List.append_assoc, List.cons.injEq, true_and] at h
    obtain ⟨hhere, hthere⟩ := List.forall_mem_cons.1 ha
    obtain ⟨hhere', hthere'⟩ := List.forall_mem_cons.1 ha'
    obtain ⟨rfl, hmore⟩ := display_append_inj hhere hhere' h
    obtain ⟨rfl, hrest⟩ := arguments_append_inj hthere hthere' hmore
    exact ⟨rfl, hrest⟩

end

/-- **Trees that were read are equal if they are printed alike**, provided that there are no apostrophes in their string
literals and no closing parentheses in the targets of their processing instructions. -/
theorem display_injective {text text' : String} {t t' : Expr} (h : parse text = .ok t) (h' : parse text' = .ok t')
    (ht : t.Quotable) (ht' : t'.Quotable) (heq : t.display = t'.display) : t = t' := by
  have legible : Legible t := ⟨ht, sound_of_parse h⟩
  have legible' : Legible t' := ⟨ht', sound_of_parse h'⟩
  exact (display_append_inj legible legible' (congrArg (·.toList ++ []) heq)).1

/-- One tree that is written in two ways. -/
theorem display_injective_call :
    parse "f('x')" = .ok (.function none "f" [.string "x"]) ∧
      parse "f (\"x\")" = .ok (.function none "f" [.string "x"]) ∧
      Quotable (.function none "f" [.string "x"]) ∧
      (function none "f" [.string "x"]).display = (function none "f" [.string "x"]).display ∧
      function none "f" [.string "x"] = function none "f" [.string "x"] := by
  have h : parse "f('x')" = .ok (.function none "f" [.string "x"]) := by
    rw [parse, parseFrom_eq]
    rfl
  have h' : parse "f (\"x\")" = .ok (.function none "f" [.string "x"]) := by
    rw [parse, parseFrom_eq]
    rfl
  have nodes : (function none "f" [.string "x"]).nodes = [.function none "f" [.string "x"], .string "x"] := rfl
  have quotable : Quotable (.function none "f" [.string "x"]) := by
    constructor
    · intro value hmem
      rw [nodes] at hmem
      simp only [List.mem_cons, reduceCtorEq, string.injEq, List.not_mem_nil, or_false, false_or] at hmem
      subst hmem
      decide
    · intro along qualifier target hmem
      rw [nodes] at hmem
      simp at hmem
  exact ⟨h, h', quotable, rfl, display_injective h h' quotable quotable rfl⟩

/-- With an apostrophe in a literal, two trees are printed alike. -/
example : (Expr.function none "f" [.string "a", .string "b"]).display =
    (Expr.function none "f" [.string "a') (string 'b"]).display := by decide

end Expr

end StylesheetReversal.Path
