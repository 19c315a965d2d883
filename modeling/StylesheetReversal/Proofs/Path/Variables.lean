import StylesheetReversal.Document.Basic
import StylesheetReversal.Proofs.Path.Parsing
import StylesheetReversal.Proofs.Path.Spelling
/-!
# The variables of an expression

The variables of an expression are the names behind the dollar signs in its text, in the same order
(`Token.mentions_of_derives`).  Behind a dollar sign there can be any lexeme that is spelled like a name, and one of these
spellings is a name test, `qualifier:*`.  So all variables are called by names exactly if no dollar sign stands before
such a test (`Expr.variableNames_qualified_iff`).
-/
namespace StylesheetReversal

/-- A name without a colon, or two of them, of which the first is the qualifier. -/
structure QName.IsQualified (n : QName) : Prop where
  base : Text.isName n.base.toList = true
  qualifier : ∀ q ∈ n.qualifier, Text.isName q.toList = true

/-- Not a name but a test for all names with a qualifier. -/
structure QName.IsWildcard (n : QName) : Prop where
  base : n.base = "*"
  qualifier : ∃ q, n.qualifier = some q ∧ Text.isName q.toList = true

namespace Path

namespace Expr

mutual

/-- The variables in an expression, from left to right. -/
def variableNames : Expr → List QName
  | .string .. => []
  | .number .. => []
  | .operator _ left right => variableNamesOfOperand left ++ variableNamesOfOperand right
  | .axis .. => []
  | .join left right => variableNames left ++ variableNames right
  | .predicate node condition _ => variableNames node ++ variableNames condition
  | .variable qualifier name => [⟨qualifier, name⟩]
  | .function _ _ args => variableNamesOfAll args

def variableNamesOfOperand : Option Expr → List QName
  | none => []
  | some operand => variableNames operand

def variableNamesOfAll : List Expr → List QName
  | [] => []
  | arg :: args => variableNames arg ++ variableNamesOfAll args

end

theorem variableNames_slashSlash (left right : Expr) :
    (slashSlash left right).variableNames = left.variableNames ++ right.variableNames := rfl

end Expr

namespace Token

/-- The name that a token spells. -/
def qname (x : Token) : QName := ⟨x.name.qualifier?, x.name.base⟩

/-- The variables that stand behind a dollar sign. -/
def variableNames : List Token → List QName
  | [] => []
  | x :: w => (if x.kind = .dollar then (w.head?.map Token.qname).toList else []) ++ variableNames w

theorem variableNames_cons {x : Token} (hx : x.kind ≠ .dollar) (w : List Token) :
    variableNames (x :: w) = variableNames w := by
  rw [variableNames, if_neg hx]
  rfl

theorem mem_variableNames {n : QName} : ∀ {w : List Token},
    n ∈ variableNames w ↔ ∃ front x y back, w = front ++ x :: y :: back ∧ x.kind = .dollar ∧ n = y.qname
  | [] => by simp [variableNames]
  | x :: w => by
    rw [variableNames, List.mem_append, mem_variableNames]
    constructor
    · rintro (here | ⟨front, x', y, back, rfl, hx', hn⟩)
      · split at here
        · next hx =>
          cases w with
          | nil => cases here
          | cons y back => exact ⟨[], x, y, back, rfl, hx, List.mem_singleton.1 here⟩
        · cases here
      · exact ⟨x :: front, x', y, back, rfl, hx', hn⟩
    · rintro ⟨front, x', y, back, hw, hx', hn⟩
      cases front with
      | nil =>
        obtain ⟨rfl, rfl⟩ := List.cons.inj hw
        rw [if_pos hx']
        exact .inl (List.mem_singleton.2 hn)
      | cons z front =>
        obtain ⟨rfl, rfl⟩ := List.cons.inj hw
        exact .inr ⟨front, x', y, back, rfl, hx', hn⟩

/-! ## Variables along a derivation -/

/-- These are the variables in the tokens, whatever follows them, and each is spelled by a token of kind `name`. -/
structure Mentions (w : List Token) (vs : List QName) : Prop where
  append_rest : ∀ rest, variableNames (w ++ rest) = vs ++ variableNames rest
  spelled : ∀ n ∈ vs, ∃ y ∈ w, y.kind = .name ∧ n = y.qname

namespace Mentions

variable {v w : List Token} {vs ws : List QName} {x y : Token} {k : Kind}

theorem nil : Mentions [] [] := ⟨fun _ => rfl, nofun⟩

theorem append (hv : Mentions v vs) (hw : Mentions w ws) : Mentions (v ++ w) (vs ++ ws) where
  append_rest rest := by
    rw [List.append_assoc, hv.append_rest, hw.append_rest, List.append_assoc]
  spelled n hn := by
    rcases List.mem_append.1 hn with hn | hn
    · obtain ⟨y, hy, found⟩ := hv.spelled n hn
      exact ⟨y, List.mem_append_left w hy, found⟩
    · obtain ⟨y, hy, found⟩ := hw.spelled n hn
      exact ⟨y, List.mem_append_right v hy, found⟩

/-- Any token but a dollar sign leaves the variables as they are. -/
theorem cons (hx : x.kind = k) (hk : k ≠ .dollar) (hw : Mentions w ws) : Mentions (x :: w) ws where
  append_rest rest := by
    rw [List.cons_append, variableNames_cons (hx ▸ hk), hw.append_rest]
  spelled n hn := by
    obtain ⟨y, hy, found⟩ := hw.spelled n hn
    exact ⟨y, List.mem_cons_of_mem x hy, found⟩

theorem single (hx : x.kind = k) (hk : k ≠ .dollar) : Mentions [x] [] := nil.cons hx hk

theorem between (hx : x.kind = k) (hk : k ≠ .dollar) (hv : Mentions v vs) (hw : Mentions w ws) :
    Mentions (v ++ x :: w) (vs ++ ws) :=
  hv.append (hw.cons hx hk)

/-- Tokens in brackets or parentheses. -/
theorem enclosed {k' : Kind} (hx : x.kind = k) (hk : k ≠ .dollar) (hy : y.kind = k') (hk' : k' ≠ .dollar)
    (hw : Mentions w ws) : Mentions (x :: (w ++ [y])) ws := by
  have inside := hw.append (single hy hk')
  rw [List.append_nil] at inside
  exact inside.cons hx hk

theorem dollar (hx : x.kind = .dollar) (hy : y.kind = .name) : Mentions [x, y] [y.qname] where
  append_rest rest := by
    have here : variableNames ([x, y] ++ rest) = y.qname :: variableNames (y :: rest) := by
      rw [List.cons_append, variableNames, if_pos hx]
      rfl
    have behind : variableNames (y :: rest) = variableNames rest := variableNames_cons (by rw [hy]; decide) rest
    rw [here, behind]
    rfl
  spelled n hn := ⟨y, by simp, hy, List.mem_singleton.1 hn⟩

end Mentions

open Mentions in
mutual

/-- **The variables of an expression** are those behind the dollar signs among its tokens. -/
theorem mentions_of_derives {s : Symbol} {w : List Token} {t : Expr} : Derives s w t → Mentions w t.variableNames
  -- one token or a few, and no variable
  | .root hx => single hx (by decide)
  | .dot hx => single hx (by decide)
  | .dotDot hx => single hx (by decide)
  | .star hx => single hx (by decide)
  | .name hx => single hx (by decide)
  | .nodeType hx _ _ hy hz => ((single hz (by decide)).cons hy (by decide)).cons hx (by decide)
  | .instruction hx _ _ hy hs hz =>
    (((single hz (by decide)).cons hs (by decide)).cons hy (by decide)).cons hx (by decide)
  | .string hx => single hx (by decide)
  | .number hx => single hx (by decide)
  | .call hx hy hz =>
    ((single hz (by decide)).cons hy (by decide)).cons (kind_of_isFunctionName hx) (by decide)
  -- a variable
  | .variable hx hy => dollar hx hy
  -- the variables of one phrase inside
  | .tighter _ h => mentions_of_derives h
  | .negation hx h => by
    rw [Expr.negation, Expr.variableNames, Expr.variableNamesOfOperand, Expr.variableNamesOfOperand, List.append_nil]
    exact (mentions_of_derives h).cons hx (by decide)
  | .unary h => mentions_of_derives h
  | .member h => mentions_of_derives h
  | .location h => mentions_of_derives h
  | .filter h => mentions_of_derives h
  | .relative h => mentions_of_derives h
  | .rootSlash hx h => (mentions_of_derives h).cons hx (by decide)
  | .rootSlashSlash hx h => by
    rw [Expr.variableNames_slashSlash]
    exact (mentions_of_derives h).cons hx (by decide)
  | .step h => mentions_of_derives h
  | .child h => mentions_of_derives h
  | .attribute hx h => (mentions_of_derives h).cons hx (by decide)
  | .axis hx _ hy h => ((mentions_of_derives h).cons hy (by decide)).cons hx (by decide)
  | .test h => mentions_of_derives h
  | .primary h => mentions_of_derives h
  | .parens hx hy h => (mentions_of_derives h).enclosed hx (by decide) hy (by decide)
  | .callWith hx hy hz h =>
    ((mentions_of_arguments h).enclosed hy (by decide) hz (by decide)).cons (kind_of_isFunctionName hx) (by decide)
  -- the variables of two
  | .binary _ hop hl hr => by
    refine (mentions_of_derives hl).between rfl (fun hx => ?_) (mentions_of_derives hr)
    rw [hx] at hop
    cases hop
  | .union hx hl hr => (mentions_of_derives hl).between hx (by decide) (mentions_of_derives hr)
  | .filterSlash hx hl hr => (mentions_of_derives hl).between hx (by decide) (mentions_of_derives hr)
  | .filterSlashSlash hx hl hr => by
    rw [Expr.variableNames_slashSlash]
    exact (mentions_of_derives hl).between hx (by decide) (mentions_of_derives hr)
  | .stepSlash hx hl hr => (mentions_of_derives hl).between hx (by decide) (mentions_of_derives hr)
  | .stepSlashSlash hx hl hr => by
    rw [Expr.variableNames_slashSlash]
    exact (mentions_of_derives hl).between hx (by decide) (mentions_of_derives hr)
  | .testPredicate hx hy hl hr =>
    (mentions_of_derives hl).append ((mentions_of_derives hr).enclosed hx (by decide) hy (by decide))
  | .filterPredicate hx hy hl hr =>
    (mentions_of_derives hl).append ((mentions_of_derives hr).enclosed hx (by decide) hy (by decide))

theorem mentions_of_arguments {w : List Token} {args : List Expr} :
    DerivesArguments w args → Mentions w (Expr.variableNamesOfAll args)
  | .last h => by
    rw [Expr.variableNamesOfAll, Expr.variableNamesOfAll, List.append_nil]
    exact mentions_of_derives h
  | .more hx h hs => (mentions_of_derives h).between hx (by decide) (mentions_of_arguments hs)

end

/-! ## How variables are spelled -/

theorem qualified_or_wildcard {y : Token} (h : Spells y.text) : y.qname.IsQualified ∨ y.qname.IsWildcard := by
  obtain ⟨kind, text⟩ := y
  rw [qname, name]
  dsimp only at h ⊢
  cases h with
  | plain hbase =>
    rw [WrittenName.ofChars_of_isName hbase]
    exact .inl ⟨by rw [String.toList_ofList]; exact hbase, nofun⟩
  | qualified hqualifier hbase =>
    rw [WrittenName.ofChars_append hqualifier, WrittenName.qualifier?_of_isName hqualifier]
    refine .inl ⟨by rw [String.toList_ofList]; exact hbase, fun q hq => ?_⟩
    cases hq
    rw [String.toList_ofList]
    exact hqualifier
  | wildcard hqualifier =>
    rw [WrittenName.ofChars_append hqualifier, WrittenName.qualifier?_of_isName hqualifier]
    exact .inr ⟨rfl, _, rfl, by rw [String.toList_ofList]; exact hqualifier⟩

end Token

/-- **The variables of an expression that was read** are the names behind the dollar signs in its text, in the same order,
and tests for all names with a qualifier among them.  They are all names exactly if there is no such test behind a dollar
sign. -/
theorem Expr.variableNames_qualified_iff {text : String} {t : Expr} (h : parse text = .ok t) : ∃ ls,
    tokenize text = .ok ls ∧ t.variableNames = Token.variableNames (ls.map Lexeme.token) ∧
      (∀ n ∈ t.variableNames, n.IsQualified ∨ n.IsWildcard) ∧
      ((∀ n ∈ t.variableNames, n.IsQualified) ↔
        ∀ front x y back, ls = front ++ x :: y :: back → x.kind = .dollar → y.name.isWildcard = false) := by
  obtain ⟨htokens, derives⟩ := derives_of_parse h
  have mentions := Token.mentions_of_derives derives
  have all : t.variableNames = Token.variableNames ((scan text 0).lexemes.map Lexeme.token) := by
    have whole := mentions.append_rest []
    rwa [List.append_nil, Token.variableNames, List.append_nil, eq_comm] at whole
  have spelled : ∀ n ∈ t.variableNames, n.IsQualified ∨ n.IsWildcard := by
    intro n hn
    obtain ⟨y, hy, hkind, rfl⟩ := mentions.spelled n hn
    obtain ⟨l, hl, rfl⟩ := List.mem_map.1 hy
    exact Token.qualified_or_wildcard (scan_spells hl hkind)
  refine ⟨_, htokens, all, spelled, fun qualified front x y back hls hx => ?_, fun noTest n hn => ?_⟩
  · have member : y.token.qname ∈ t.variableNames := by
      rw [all, hls]
      exact Token.mem_variableNames.2 ⟨front.map Lexeme.token, x.token, y.token, back.map Lexeme.token, by simp, hx, rfl⟩
    exact decide_eq_false (WrittenName.ne_star_of_isName (qualified _ member).base)
  · refine (spelled n hn).resolve_right fun wildcard => ?_
    rw [all] at hn
    obtain ⟨front, x, y, back, hw, hx, rfl⟩ := Token.mem_variableNames.1 hn
    obtain ⟨front, behind, hls, rfl, hbehind⟩ := List.map_eq_append_iff.1 hw
    obtain ⟨l, behind, rfl, rfl, hback⟩ := List.map_eq_cons_iff.1 hbehind
    obtain ⟨m, back, rfl, rfl, -⟩ := List.map_eq_cons_iff.1 hback
    have test : m.name.isWildcard = true := decide_eq_true wildcard.base
    rw [noTest front l m back hls hx] at test
    cases test

theorem Expr.variableNames_qualified_iff_negation :
    parse "-$p:*" = .ok (.negation (.variable (some "p") "*")) ∧ ∃ ls,
      tokenize "-$p:*" = .ok ls ∧ [⟨some "p", "*"⟩] = Token.variableNames (ls.map Lexeme.token) ∧
        (∀ n ∈ ([⟨some "p", "*"⟩] : List QName), n.IsQualified ∨ n.IsWildcard) ∧
        ((∀ n ∈ ([⟨some "p", "*"⟩] : List QName), n.IsQualified) ↔
          ∀ front x y back, ls = front ++ x :: y :: back → x.kind = .dollar → y.name.isWildcard = false) := by
  have read : parse "-$p:*" = .ok (.negation (.variable (some "p") "*")) := by
    rw [parse, parseFrom_eq]
    rfl
  exact ⟨read, variableNames_qualified_iff read⟩

/-- A variable can be called by a name test, which is no name. -/
theorem Expr.wildcard_variable : ¬ ∀ text t, parse text = .ok t → ∀ n ∈ t.variableNames, n.IsQualified := by
  intro qualified
  have read : parse "$p:*" = .ok (.variable (some "p") "*") := by
    rw [parse, parseFrom_eq]
    rfl
  have named := qualified _ _ read ⟨some "p", "*"⟩ (List.mem_singleton_self _)
  exact WrittenName.ne_star_of_isName named.base rfl

end Path

end StylesheetReversal
