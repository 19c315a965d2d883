import StylesheetReversal.Proofs.Xml.Names
/-!
# The pieces of a document are proper

A document is refused when it has a character that may not stand in it.  What is cut off a text of proper
characters, and what is left of the text, has proper characters too; so all pieces of a document do
(`pieces?_proper`).
-/
namespace StylesheetReversal.Xml

namespace Proper

variable {cs : List Char}

theorem takeWhile (h : Proper cs) (p : Char → Bool) : Proper (cs.takeWhile p) :=
  h.subset (List.takeWhile_subset p)

theorem dropWhile (h : Proper cs) (p : Char → Bool) : Proper (cs.dropWhile p) :=
  h.subset (List.dropWhile_subset p)

theorem drop (h : Proper cs) (n : Nat) : Proper (cs.drop n) := h.subset (List.drop_subset n cs)

theorem skipSpace (h : Proper cs) : Proper (skipSpace cs) := h.dropWhile _

end Proper

/-- What is cut off a text has the property, and the rest of the text is proper. -/
def Keeps {α : Type} (P : α → Prop) (cut : Option (α × List Char)) : Prop :=
  ∀ a rest, cut = some (a, rest) → P a ∧ Proper rest

namespace Keeps

variable {α β : Type} {P : α → Prop} {Q : β → Prop} {cut : Option (α × List Char)}

theorem none : Keeps P none := nofun

theorem some {a : α} {rest : List Char} (ha : P a) (hrest : Proper rest) : Keeps P (some (a, rest)) := by
  intro b rest' h
  cases h
  exact ⟨ha, hrest⟩

theorem bind {next : α × List Char → Option (β × List Char)} (h : Keeps P cut)
    (hn : ∀ a rest, P a → Proper rest → Keeps Q (next (a, rest))) : Keeps Q (cut.bind next) := by
  intro b rest' hb
  obtain ⟨⟨a, rest⟩, hcut, hnext⟩ := Option.bind_eq_some_iff.1 hb
  obtain ⟨ha, hrest⟩ := h a rest hcut
  exact hn a rest ha hrest b rest' hnext

theorem map {f : α × List Char → β × List Char} (h : Keeps P cut)
    (hf : ∀ a rest, P a → Proper rest → Q (f (a, rest)).1 ∧ Proper (f (a, rest)).2) : Keeps Q (cut.map f) := by
  intro b rest' hb
  obtain ⟨⟨a, rest⟩, hcut, hmap⟩ := Option.map_eq_some_iff.1 hb
  obtain ⟨ha, hrest⟩ := h a rest hcut
  have := hf a rest ha hrest
  rw [hmap] at this
  exact this

end Keeps

/-! ## Parts of pieces -/

theorem splitAt?_proper (mark : List Char) : ∀ {cs : List Char}, Proper cs → Keeps Proper (splitAt? mark cs)
  | [], _ => .none
  | c :: cs, h => by
    rw [splitAt?]
    split
    · exact .some .nil (h.drop _)
    · exact (splitAt?_proper mark h.tail).map fun front back hfront hback => ⟨hfront.cons h.head, hback⟩

/-- The part of a name behind its qualifier is proper. -/
def TagName.Proper (n : TagName) : Prop := Xml.Proper n.base

theorem TagName.ofChars?_proper {cs : List Char} {n : TagName} (h : Xml.Proper cs) (hn : ofChars? cs = some n) :
    n.Proper := by
  unfold ofChars? at hn
  split at hn
  · next q b hsplit =>
    dsimp only at hn
    split at hn
    · cases hn
      unfold Text.splitColon? at hsplit
      split at hsplit
      · cases hsplit
      · next heq =>
        cases hsplit
        exact (h.dropWhile _ |>.subset (by rw [heq]; exact fun c hc => hc)).tail
    · cases hn
  · dsimp only at hn
    split at hn
    · cases hn
      exact h
    · cases hn

theorem TagName.next?_proper {text : List Char} (h : Xml.Proper text) : Keeps TagName.Proper (next? text) := by
  intro n rest hn
  obtain ⟨name, hname, hpair⟩ := Option.map_eq_some_iff.1 hn
  cases hpair
  exact ⟨ofChars?_proper (h.takeWhile _) hname, h.dropWhile _⟩

/-- An attribute whose name and value are proper. -/
def RawAttribute.Proper (a : RawAttribute) : Prop := a.name.Proper ∧ Xml.Proper a.raw

namespace RawAttribute

theorem value?_proper {text : List Char} (h : Xml.Proper text) : Keeps Xml.Proper (value? text) := by
  unfold value?
  split
  · exact .none
  · split
    · dsimp only
      split
      · next c rest heq =>
        have behind : Xml.Proper (c :: rest) := by
          rw [← heq]
          exact h.tail.dropWhile _
        split
        · exact .some (h.tail.takeWhile _) behind.tail
        · exact .none
      · exact .none
    · exact .none

theorem next?_proper {text : List Char} (h : Xml.Proper text) : Keeps RawAttribute.Proper (next? text) := by
  refine (TagName.next?_proper h).bind fun name rest hname hrest => ?_
  dsimp only
  split
  · next heq =>
    have behind := hrest.skipSpace
    rw [heq] at behind
    exact (value?_proper behind.tail.skipSpace).map fun raw rest hraw hrest => ⟨⟨hname, hraw⟩, hrest⟩
  · exact .none

end RawAttribute

namespace Piece

/-- A piece whose texts, targets, values and names of attributes and of the element are proper. -/
def Proper : Piece → Prop
  | .text raw => Xml.Proper raw
  | .cdata raw => Xml.Proper raw
  | .comment body => Xml.Proper body
  | .instruction target value => Xml.Proper target ∧ Xml.Proper value
  | .opening name attributes _ => name.Proper ∧ ∀ a ∈ attributes, a.Proper
  | .closing _ => True

/-- The attributes of a tag are proper, and so is what follows. -/
theorem attributes?_proper : ∀ (fuel : Nat) {cs : List Char}, Xml.Proper cs →
    ∀ as closed rest, attributes? fuel cs = some (as, closed, rest) → (∀ a ∈ as, a.Proper) ∧ Xml.Proper rest
  | 0, _, _, _, _, _, h => by cases h
  | fuel + 1, cs, hcs, as, closed, rest, h => by
    have ahead := hcs.skipSpace
    rw [attributes?] at h
    split at h
    · next heq =>
      cases h
      rw [heq] at ahead
      exact ⟨nofun, ahead.tail⟩
    · next heq =>
      cases h
      rw [heq] at ahead
      exact ⟨nofun, ahead.tail.tail⟩
    · split at h
      · obtain ⟨⟨first, rest'⟩, hfirst, h⟩ := Option.bind_eq_some_iff.1 h
        obtain ⟨⟨more, closed', rest''⟩, hmore, h⟩ := Option.map_eq_some_iff.1 h
        cases h
        obtain ⟨hproper, hrest'⟩ := RawAttribute.next?_proper ahead first rest' hfirst
        obtain ⟨hall, hrest⟩ := attributes?_proper fuel hrest' more _ _ hmore
        refine ⟨fun a ha => ?_, hrest⟩
        rcases List.mem_cons.1 ha with rfl | ha
        · exact hproper
        · exact hall a ha
      · cases h

variable {text : List Char}

theorem comment?_proper (h : Xml.Proper text) : Keeps Proper (comment? text) := by
  refine (splitAt?_proper _ h).bind fun body rest hbody hrest => ?_
  dsimp only
  split
  · exact .some hbody hrest
  · exact .none

theorem cdata?_proper (h : Xml.Proper text) : Keeps Proper (cdata? text) :=
  (splitAt?_proper _ h).map fun _ _ hraw hrest => ⟨hraw, hrest⟩

theorem instruction?_proper (h : Xml.Proper text) : Keeps Proper (instruction? text) := by
  unfold instruction?
  dsimp only
  split
  · exact .none
  · exact (splitAt?_proper _ (h.dropWhile _).skipSpace).map fun value rest hvalue hrest =>
      ⟨⟨h.takeWhile _, hvalue⟩, hrest⟩

theorem closing?_proper (h : Xml.Proper text) : Keeps Proper (closing? text) := by
  refine (TagName.next?_proper h).bind fun name rest _ hrest => ?_
  dsimp only
  split
  · next heq =>
    have behind := hrest.skipSpace
    rw [heq] at behind
    exact .some trivial behind.tail
  · exact .none

theorem opening?_proper (h : Xml.Proper text) : Keeps Proper (opening? text) := by
  refine (TagName.next?_proper h).bind fun name rest hname hrest => ?_
  intro p rest' hp
  obtain ⟨⟨as, closed, behind⟩, has, hpair⟩ := Option.map_eq_some_iff.1 hp
  cases hpair
  obtain ⟨hall, hbehind⟩ := attributes?_proper _ hrest _ _ _ has
  exact ⟨⟨hname, hall⟩, hbehind⟩

theorem text?_proper (h : Xml.Proper text) : Keeps Proper (text? text) := by
  unfold text?
  dsimp only
  split
  · exact .some (h.takeWhile _) (h.dropWhile _)
  · exact .none

/-- **One piece is proper, and so is what follows.** -/
theorem next?_proper (h : Xml.Proper text) : Keeps Proper (next? text) := by
  unfold next?
  split
  · exact comment?_proper h.tail.tail.tail.tail
  · exact cdata?_proper (h.drop 9)
  · exact instruction?_proper h.tail.tail
  · exact closing?_proper h.tail.tail
  · exact opening?_proper h.tail
  · exact text?_proper h

end Piece

/-! ## All pieces -/

theorem piecesFrom?_proper : ∀ {fuel start : Nat} {text : List Char} {ps : List Placed}, Proper text →
    piecesFrom? fuel start text = some ps → ∀ p ∈ ps, p.piece.Proper
  | 0, _, _, _, _, h => by cases h
  | fuel + 1, start, text, ps, ht, h => by
    rw [piecesFrom?] at h
    split at h
    · cases h
      exact nofun
    · obtain ⟨⟨piece, rest⟩, hnext, h⟩ := Option.bind_eq_some_iff.1 h
      obtain ⟨more, hmore, h⟩ := Option.map_eq_some_iff.1 h
      cases h
      obtain ⟨hpiece, hrest⟩ := Piece.next?_proper ht piece rest hnext
      intro p hp
      rcases List.mem_cons.1 hp with rfl | hp
      · exact hpiece
      · exact piecesFrom?_proper hrest hmore p hp

/-- What is left of a text, if anything is, is proper. -/
def Leaves (rest : Option (List Char)) : Prop := ∀ cs, rest = some cs → Proper cs

namespace Leaves

variable {text : List Char}

theorem none : Leaves none := nofun

theorem some (h : Proper text) : Leaves (some text) := by
  intro cs hcs
  cases hcs
  exact h

theorem bind {cut : Option (List Char)} {next : List Char → Option (List Char)} (h : Leaves cut)
    (hn : ∀ cs, Proper cs → Leaves (next cs)) : Leaves (cut.bind next) := by
  intro cs hcs
  obtain ⟨ds, hcut, hnext⟩ := Option.bind_eq_some_iff.1 hcs
  exact hn ds (h ds hcut) cs hnext

theorem pseudo? (name : String) (h : Proper text) : Leaves (pseudo? name text) := by
  unfold Xml.pseudo?
  split
  · intro cs hcs
    obtain ⟨⟨a, rest⟩, hnext, rfl⟩ := Option.map_eq_some_iff.1 hcs
    exact (RawAttribute.next?_proper h a rest hnext).2
  · exact .none

theorem gap? (h : Proper text) : Leaves (gap? text) := by
  unfold Xml.gap?
  split
  · exact .some h.skipSpace
  · exact .none

theorem declaration? (h : Proper text) : Leaves (declaration? text) := by
  refine (pseudo? _ h.skipSpace).bind fun rest hrest => (gap? hrest).bind fun rest hrest => ?_
  refine Leaves.bind ?_ fun rest hrest => Leaves.bind ?_ fun rest hrest => ?_
  · split
    · exact (pseudo? _ hrest).bind fun rest hrest => gap? hrest
    · exact .some hrest
  · split
    · exact pseudo? _ hrest
    · exact .some hrest
  · split
    · next heq =>
      have behind := hrest.skipSpace
      rw [heq] at behind
      exact .some behind.tail.tail
    · exact .none

theorem prolog? (h : Proper text) : Leaves (prolog? text) := by
  have body : Proper (if text.head? = Option.some '\uFEFF' then text.drop 1 else text) := by
    split
    · exact h.drop 1
    · exact h
  unfold Xml.prolog?
  dsimp only
  generalize (if text.head? = Option.some '\uFEFF' then text.drop 1 else text) = cs at body
  split
  · exact declaration? (body.drop 5)
  · exact .some body

end Leaves

/-- **The pieces of a document are proper.** -/
theorem pieces?_proper {text : List Char} {ps : List Placed} (h : pieces? text = some ps) : ∀ p ∈ ps, p.piece.Proper := by
  unfold pieces? at h
  split at h
  · next hall =>
    obtain ⟨body, hbody, h⟩ := Option.bind_eq_some_iff.1 h
    exact piecesFrom?_proper (Leaves.prolog? (List.all_eq_true.1 hall) body hbody) h
  · cases h

end StylesheetReversal.Xml
