import StylesheetReversal.Proofs.Document.Ascent
import StylesheetReversal.Proofs.Xml.Escaping
/-!
# Surroundings are proper

What is said about a place is put together from names and values of the document.  If these are proper, it is
proper as well (`Document.proper_surroundings`).
-/
namespace StylesheetReversal

namespace Xml.Proper

variable {a b : String}

theorem concat (ha : Proper a.toList) (hb : Proper b.toList) : Proper (a ++ b).toList := by
  rw [String.toList_append]
  exact ha.append hb

theorem intercalate (hb : Proper b.toList) : ∀ {parts : List String}, (∀ p ∈ parts, Proper p.toList) →
    Proper (b.intercalate parts).toList
  | [], _ => .nil
  | [p], h => by
    rw [String.intercalate_singleton]
    exact h p List.mem_cons_self
  | p :: q :: parts, h => by
    rw [String.intercalate_cons_cons]
    have others := hb.intercalate fun r hr => h r (List.mem_cons_of_mem p hr)
    exact ((h p List.mem_cons_self).concat hb).concat others

theorem trim {cs : List Char} (h : Proper cs) : Proper (Text.trim cs) := by
  refine h.subset fun c hc => ?_
  have := List.dropWhile_subset _ (List.mem_reverse.1 hc)
  exact List.dropWhile_subset _ (List.mem_reverse.1 this)

end Xml.Proper

namespace Document

open Xml (Proper)

variable {ν : Type}

/-- The names and values in a document are proper. -/
structure Proper (d : Document ν) : Prop where
  baseName : ∀ n, Xml.Proper (d.baseName n).toList
  value : ∀ n, Xml.Proper (d.value n).toList

namespace Proper

variable {d : Document ν}

theorem attributeTest (h : d.Proper) (n : ν) : Xml.Proper (d.attributeTest n).toList := by
  have name : Xml.Proper ("@" ++ d.baseName n).toList := .concat (by decide) (h.baseName n)
  have equals : Xml.Proper "='".toList := by decide
  exact ((name.concat equals).concat (h.value n)).concat (by decide)

theorem attributeTests (h : d.Proper) (n : ν) : ∀ t ∈ (d.attributes n).map d.attributeTest, Xml.Proper t.toList := by
  intro t ht
  obtain ⟨m, -, rfl⟩ := List.mem_map.1 ht
  exact h.attributeTest m

theorem mention (h : d.Proper) {n : ν} {said : String} (hsaid : d.mention n = some said) : Xml.Proper said.toList := by
  unfold Document.mention at hsaid
  split at hsaid
  · dsimp only at hsaid
    split at hsaid
    · cases hsaid
    · cases hsaid
      refine Xml.Proper.concat (.concat (by decide) ?_) (by decide)
      rw [String.toList_ofList]
      exact (h.value n).trim
  · dsimp only at hsaid
    cases hsaid
    split
    · exact h.baseName n
    · have tests := Xml.Proper.intercalate (b := " and ") (by decide) (h.attributeTests n)
      exact (((h.baseName n).concat (by decide)).concat tests).concat (by decide)
  · cases hsaid

theorem mentions (h : d.Proper) {side : String} (hside : Xml.Proper side.toList) (ns : List ν) :
    ∀ t ∈ (ns.filterMap d.mention).map (side ++ ·), Xml.Proper t.toList := by
  intro t ht
  obtain ⟨said, hsaid, rfl⟩ := List.mem_map.1 ht
  obtain ⟨n, -, hn⟩ := List.mem_filterMap.1 hsaid
  exact hside.concat (h.mention hn)

variable [DecidableEq ν]

theorem conditions (h : d.Proper) (n : ν) : ∀ t ∈ d.conditions n, Xml.Proper t.toList := by
  have name : Xml.Proper ("name()='" ++ d.baseName n ++ "'").toList :=
    .concat (.concat (by decide) (h.baseName n)) (by decide)
  unfold Document.conditions
  intro t ht
  simp only [List.mem_append, List.cons_append, List.mem_cons] at ht
  rcases ht with rfl | (ht | ht) | ht
  · exact name
  · exact h.attributeTests n t ht
  · exact h.mentions (by decide) _ t ht
  · exact h.mentions (by decide) _ t ht

theorem nested (h : d.Proper) : ∀ trail : List ν, Xml.Proper (d.nested trail).toList
  | [] => .nil
  | n :: above => by
    have all : ∀ t ∈ d.conditions n ++ (if above.isEmpty then [] else [d.nested above]), Xml.Proper t.toList := by
      intro t ht
      rcases List.mem_append.1 ht with ht | ht
      · exact h.conditions n t ht
      · split at ht
        · cases ht
        · rw [List.mem_singleton] at ht
          rw [ht]
          exact h.nested above
    have joined := Xml.Proper.intercalate (b := " and ") (by decide) all
    have opening : Xml.Proper "parent::node()[".toList := by decide
    rw [Document.nested_cons]
    exact (opening.concat joined).concat (by decide)

/-- **What is said about a place is proper.** -/
theorem surroundings (h : d.Proper) (wrapper : Option String → Bool) (source boundary : ν) :
    Xml.Proper (d.surroundings wrapper source boundary).toList := by
  rw [surroundings_eq_nested]
  exact h.nested _

end Proper

end Document

end StylesheetReversal
