import StylesheetReversal.Proofs.Path.RuleSpecs
/-!
# The rules for operators

A loop of operators is entered with a phrase of some level behind it and no tighter operator ahead;
what it adds makes a phrase of the level that was asked for.
-/
namespace StylesheetReversal.Path.RuleSpecs

variable {k k' limit : Nat} {e : Ending} {unit : Option Span} {p : Place}

theorem operand_succ (ih : RuleSpecs k) (hk : k ≤ k') (hp : p.Stands e) (hl : limit ≤ 7)
    (need : 12 * p.ahead.length + 6 ≤ k + 1) :
    (Rule.operand e (k + 1) unit limit p).Meets e p
      (fun w t kind => Derives (levelAbove limit) w t.expr ∧ Closed limit kind) False
      (fun e' p' => Rule.operand e' (k' + 1) unit limit p') := by
  by_cases hm : p.kind = .minus
  · obtain ⟨l, ls, hls, hlk⟩ := Place.eq_cons_of_kind hm (by decide)
    have negates : ∀ {w : List Token} {t : Phrase} (blame : Span), Derives (.level 7) w t.expr →
        Derives (.level 7) (l.token :: w) (Phrase.negation blame t).expr := fun _ h => .negation hlk h
    have loosened : ∀ {w : List Token} {t : Expr}, Derives (.level 7) w t → Derives (levelAbove limit) w t :=
      fun h => h.loosen (by omega) (Nat.le_refl 7)
    rw [Rule.operand, if_pos hm]
    refine Outcome.Meets.congr ?_ fun e' p' h => by rw [Rule.operand, if_pos (h.kind.trans hm)]
    refine (Place.advance_andThen_meets hls (fun q hq hs => ?_) ?_).weaken False.elim
    · subst hq
      rw [hls, List.length_cons] at need
      refine (ih.operand hk hs (Nat.le_refl 7) (by omega)).andThen (fun inner q' w hw _ hs' hL => ?_) ?_
      · refine Outcome.Meets.congr (ih.operators hk hs' hl ?_ (negates _ hL.1) (by omega) (Nat.le_refl 7) hL.2)
          fun e' p' h => by rw [h.blame]
        rw [hw, List.length_append] at need
        omega
      · intro w inner _ hL
        refine ⟨[], .negation ⟨0, 0⟩ inner, .eof, ?_, closed_eof limit⟩
        rw [List.append_nil]
        exact loosened (negates _ hL.1)
    · exact ⟨[Token.anyName], .negation ⟨0, 0⟩ (.anyName .child), .eof,
        loosened (negates _ (derives_anyName_level (Nat.le_refl 7))), closed_eof limit⟩
  · rw [Rule.operand, if_neg hm]
    refine Outcome.Meets.congr ?_ fun e' p' h => by rw [Rule.operand, if_neg (by rw [h.kind]; exact hm)]
    refine (ih.union hk hp (by omega)).andThen (fun left q w hw _ hs hL => ?_) ?_
    · refine ih.operators hk hs hl ?_ (.unary hL.1) (by omega) (Nat.le_refl 7) hL.2
      rw [hw, List.length_append] at need
      omega
    · intro w left _ hL
      refine ⟨[], left, .eof, ?_, closed_eof limit⟩
      rw [List.append_nil]
      exact Derives.loosen (by omega) (Nat.le_refl 7) (.unary hL.1)

theorem operators_succ (ih : RuleSpecs k) (hk : k ≤ k') (hp : p.Stands e) (hl : limit ≤ 7)
    {v : List Token} {left : Phrase} {m : Nat} (need : 12 * p.ahead.length + 1 ≤ k + 1)
    (hv : Derives (.level m) v left.expr) (hlm : min (limit + 1) 7 ≤ m) (hm : m ≤ 7)
    (hc : Closed m p.kind) :
    (Rule.operators e (k + 1) unit limit left p).Meets e p
      (fun w t kind => Derives (levelAbove limit) (v ++ w) t.expr ∧ Closed limit kind) False
      (fun e' p' => Rule.operators e' (k' + 1) unit limit left p') := by
  have whole : Derives (levelAbove limit) (v ++ []) left.expr := by
    rw [List.append_nil]
    exact hv.loosen hlm hm
  cases hop : p.kind.operator? with
  | none =>
    simp only [Rule.operators, hop]
    refine (Outcome.Meets.read hp ⟨whole, fun op h => by rw [hop] at h; cases h⟩).congr fun e' p' h => ?_
    simp only [h.kind, hop]
  | some op =>
    have hu : op ≠ .union := Closed.ne_union (fun o h => Nat.le_trans (hc o h) hm) hop
    by_cases hle : op.precedence ≤ limit
    · have stop : op = .union ∨ op.precedence ≤ limit := .inr hle
      simp only [Rule.operators, hop, if_pos stop]
      refine (Outcome.Meets.read hp ⟨whole, fun o h => ?_⟩).congr fun e' p' h => ?_
      · simp only [h.kind, hop, if_pos stop]
      · rw [hop] at h
        cases h
        exact hle
    · have goesOn : ¬ (op = .union ∨ op.precedence ≤ limit) := fun h => h.elim hu hle
      obtain ⟨hmem, -, hsix⟩ := mem_operatorsAt hop hu
      obtain ⟨l, ls, hls, hlk⟩ := Place.eq_cons_of_kind rfl (show p.kind ≠ .eof by
        intro h; rw [h] at hop; cases hop)
      have loose : Derives (.level op.precedence) v left.expr := hv.loosen (hc op hop) hm
      have joins : ∀ {w : List Token} {t : Phrase} (blame : Span), Derives (levelAbove op.precedence) w t.expr →
          Derives (.level op.precedence) (v ++ l.token :: w) (Phrase.binary blame op left t).expr := by
        intro w t blame h
        rw [levelAbove, Nat.min_eq_left (by omega)] at h
        exact .binary (x := l.token) (by rw [Lexeme.token, hlk]; exact hmem)
          (by rw [Lexeme.token, hlk]; exact hop) loose h
      have done : ∀ {w : List Token} {t : Expr}, Derives (.level op.precedence) w t →
          Derives (levelAbove limit) w t := fun h => h.loosen (by omega) (by omega)
      simp only [Rule.operators, hop, if_neg goesOn]
      refine Outcome.Meets.congr ?_ fun e' p' h => by
        simp only [h.kind, hop, if_neg goesOn]
        rfl
      refine (Place.advance_andThen_meets hls (fun q hq hs => ?_) ?_).weaken False.elim
      · subst hq
        rw [hls, List.length_cons] at need
        refine (ih.operand hk hs (by omega) (by omega)).andThen (fun right q' w hw _ hs' hL => ?_) ?_
        · have fuel : 12 * q'.ahead.length + 1 ≤ k := by
            rw [hw, List.length_append] at need
            omega
          refine (Outcome.Meets.congr (ih.operators hk hs' hl fuel (joins _ hL.1) (by omega) (by omega) hL.2)
            fun e' p' h => by rw [h.blame]).imp fun z t kind h => ?_
          simpa using h
        · intro w right _ hL
          exact ⟨[], .binary ⟨0, 0⟩ op left right, .eof, by simpa using done (joins _ hL.1), closed_eof limit⟩
      · exact ⟨[Token.anyName], .binary ⟨0, 0⟩ op left (.anyName .child), .eof,
          done (joins _ (derives_anyName_level (by omega))), closed_eof limit⟩

theorem union_succ (ih : RuleSpecs k) (hk : k ≤ k') (hp : p.Stands e)
    (need : 12 * p.ahead.length + 5 ≤ k + 1) :
    (Rule.union e (k + 1) unit p).Meets e p
      (fun w t kind => Derives .union w t.expr ∧ Closed 7 kind) False
      (fun e' p' => Rule.union e' (k' + 1) unit p') := by
  rw [Rule.union]
  refine Outcome.Meets.congr ?_ fun e' p' _ => by rw [Rule.union]
  refine (ih.path hk hp (by omega)).andThen (fun left q w hw _ hs hL => ?_) ?_
  · refine ih.members hk hs ?_ (.member hL)
    rw [hw, List.length_append] at need
    omega
  · intro w left _ hL
    exact ⟨[], left, .eof, by simpa using Derives.member hL, closed_eof 7⟩

theorem members_succ (ih : RuleSpecs k) (hk : k ≤ k') (hp : p.Stands e)
    {v : List Token} {left : Phrase} (need : 12 * p.ahead.length + 1 ≤ k + 1)
    (hv : Derives .union v left.expr) :
    (Rule.members e (k + 1) unit left p).Meets e p
      (fun w t kind => Derives .union (v ++ w) t.expr ∧ Closed 7 kind) False
      (fun e' p' => Rule.members e' (k' + 1) unit left p') := by
  by_cases hu : p.kind = .union
  · obtain ⟨l, ls, hls, hlk⟩ := Place.eq_cons_of_kind hu (by decide)
    have joins : ∀ {w : List Token} {t : Phrase} (blame : Span), Derives .path w t.expr →
        Derives .union (v ++ l.token :: w) (Phrase.binary blame .union left t).expr :=
      fun _ h => .union hlk hv h
    rw [Rule.members, if_pos hu]
    refine Outcome.Meets.congr ?_ fun e' p' h => by rw [Rule.members, if_pos (h.kind.trans hu)]
    refine (Place.advance_andThen_meets hls (fun q hq hs => ?_) ?_).weaken False.elim
    · subst hq
      rw [hls, List.length_cons] at need
      refine Outcome.Meets.congr ?_ fun e' p' h => by rw [h.span]
      refine (ih.path hk hs (by omega)).andThen (fun right q' w hw _ hs' hL => ?_) ?_
      · have fuel : 12 * q'.ahead.length + 1 ≤ k := by
          rw [hw, List.length_append] at need
          omega
        refine (Outcome.Meets.congr (ih.members hk hs' fuel (joins _ hL)) fun e' p' h => by rw [h.last]).imp
          fun z t kind h => ?_
        simpa using h
      · intro w right _ hL
        exact ⟨[], .binary ⟨0, 0⟩ .union left right, .eof, by simpa using joins ⟨0, 0⟩ hL, closed_eof 7⟩
    · exact ⟨[Token.anyName], .binary ⟨0, 0⟩ .union left (.anyName .child), .eof,
        joins _ derives_anyName_path, closed_eof 7⟩
  · rw [Rule.members, if_neg hu]
    refine (Outcome.Meets.read hp ⟨by simpa using hv, closed_seven hu⟩).congr fun e' p' h => ?_
    rw [Rule.members, if_neg (by rw [h.kind]; exact hu)]

end StylesheetReversal.Path.RuleSpecs
