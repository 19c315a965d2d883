import StylesheetReversal.Proofs.Path.Traversal
/-!
# A builder that refuses

When a builder refuses a construction, the parse is over: it has been asked for what it would have been asked for
anyway, up to the construction it refuses, and it is told of the end and nothing else (`Builder.refusing_parse`).
This holds of any text, also of one that is no expression.

A builder that numbers its nodes shows what becomes of them (`Builder.Spends`): each is handed back at most once, in a
later call, and when the text is an expression only that of the whole is left over.
-/
namespace StylesheetReversal.Path

variable {σ ν α β : Type}

/-- The nodes that a call is given. -/
def Call.nodes : Call ν → List ν
  | .operator _ left right => left.toList ++ right.toList
  | .join left right => [left, right]
  | .predicate node condition _ => [node, condition]
  | .function _ _ args => args
  | _ => []

namespace Builder

/-- The builder, which counts its calls and refuses the one with this number. -/
def refusing (b : Builder σ ν) (number : Nat) (reason : String) : Builder (σ × Nat) ν where
  start d := (b.start d.1, d.2)
  construct c d :=
    if d.2 = number then (.error reason, d.1, d.2 + 1)
    else ((b.construct c d.1).1, (b.construct c d.1).2, d.2 + 1)
  finish result d := ((b.finish result d.1).1, (b.finish result d.1).2, d.2)

/-- A builder that refuses nothing; its nodes are the numbers of the calls. -/
def numbering : Builder Nat Nat where
  start := id
  construct _ n := (.ok n, n + 1)
  finish result n := (result, n)

theorem Work.andThen_ok {w : Work σ α} {next : α → Work σ β} {s s' : σ} {a : α} (h : w s = (.ok a, s')) :
    w.andThen next s = next a s' := by
  rw [Work.andThen, h]

theorem Work.andThen_error {w : Work σ α} {next : α → Work σ β} {s s' : σ} {f : Fault} (h : w s = (.error f, s')) :
    w.andThen next s = (.error f, s') := by
  rw [Work.andThen, h]

/-! ## What is left out -/

/-- Work done with a builder that refuses call number `k` asks for what other work asks for; if that includes this call,
it ends there, and otherwise the two come to the same. -/
def Cuts (w : Nat → String → Work ((σ × Nat) × List (Event ν)) α) (v : Work (σ × List (Event ν)) α) : Prop :=
  ∀ s n log, ∃ calls : List (Call ν), (v (s, log)).2.2 = log ++ calls.map .call ∧ ∀ k reason, n ≤ k →
    (n + calls.length ≤ k →
      w k reason ((s, n), log) = ((v (s, log)).1, ((v (s, log)).2.1, n + calls.length), log ++ calls.map .call)) ∧
    (k < n + calls.length → ∃ blame d,
      w k reason ((s, n), log) = (.error ⟨.rejected reason, blame⟩, d, log ++ (calls.take (k - n + 1)).map .call))

theorem Cuts.andThen {w : Nat → String → Work ((σ × Nat) × List (Event ν)) α} {v : Work (σ × List (Event ν)) α}
    {next : α → Nat → String → Work ((σ × Nat) × List (Event ν)) β} {next' : α → Work (σ × List (Event ν)) β}
    (h : Cuts w v) (hn : ∀ a, Cuts (next a) (next' a)) :
    Cuts (fun k reason => (w k reason).andThen fun a => next a k reason) (v.andThen next') := by
  intro s n log
  obtain ⟨calls, hlog, hcuts⟩ := h s n log
  cases hv : v (s, log) with
  | mk answer d =>
    obtain ⟨s', log'⟩ := d
    rw [hv] at hlog hcuts
    dsimp only at hlog hcuts
    subst hlog
    cases answer with
    | error f =>
      rw [Work.andThen_error hv]
      refine ⟨calls, rfl, fun k reason hle => ⟨fun hk => ?_, fun hk => ?_⟩⟩
      · exact Work.andThen_error ((hcuts k reason hle).1 hk)
      · obtain ⟨blame, d, hw⟩ := (hcuts k reason hle).2 hk
        exact ⟨blame, d, Work.andThen_error hw⟩
    | ok a =>
      obtain ⟨more, hmore, hcuts'⟩ := hn a s' (n + calls.length) (log ++ calls.map .call)
      rw [Work.andThen_ok hv]
      refine ⟨calls ++ more, ?_, fun k reason hle => ?_⟩
      · rw [hmore, List.map_append, List.append_assoc]
      · rw [List.length_append, ← Nat.add_assoc, List.map_append, ← List.append_assoc]
        rcases Nat.lt_or_ge k (n + calls.length) with hk | hk
        · -- the call that is refused lies in the first piece, so the second is never begun
          obtain ⟨blame, d, hw⟩ := (hcuts k reason hle).2 hk
          refine ⟨fun h => by omega, fun _ => ⟨blame, d, ?_⟩⟩
          rw [List.take_append_of_le_length (by omega)]
          exact Work.andThen_error hw
        · obtain ⟨hall, hcut⟩ := hcuts' k reason hk
          have first := (hcuts k reason hle).1 hk
          refine ⟨fun h => (Work.andThen_ok first).trans (hall h), fun h => ?_⟩
          obtain ⟨blame, d, hw⟩ := hcut h
          have taken : k - n + 1 = calls.length + (k - (n + calls.length) + 1) := by omega
          rw [taken, List.take_length_add_append, List.map_append, ← List.append_assoc]
          exact ⟨blame, d, (Work.andThen_ok first).trans hw⟩

theorem cuts_done (result : Except Fault α) :
    Cuts (σ := σ) (ν := ν) (fun _ _ d => (result, d)) (fun d => (result, d)) := by
  intro s n log
  refine ⟨[], (List.append_nil log).symm, fun k reason hle => ⟨fun _ => ?_, fun h => ?_⟩⟩
  · rw [List.map_nil, List.append_nil]
    rfl
  · exact absurd h (Nat.not_lt_of_le hle)

section

variable (b : Builder σ ν)

theorem cuts_ask (blame : Span) (c : Call ν) :
    Cuts (fun k reason => (b.refusing k reason).traced.ask blame c) (b.traced.ask blame c) := by
  intro s n log
  refine ⟨[c], ?_, fun k reason hle => ⟨fun h => ?_, fun h => ?_⟩⟩
  · unfold ask traced
    dsimp only
    cases b.construct c s with
    | mk result s' => cases result <;> rfl
  · have other : n ≠ k := by
      rw [List.length_singleton] at h
      omega
    unfold ask traced refusing
    dsimp only
    rw [if_neg other]
    cases b.construct c s with
    | mk result s' => cases result <;> rfl
  · obtain rfl : n = k := by
      rw [List.length_singleton] at h
      omega
    refine ⟨blame, (s, n + 1), ?_⟩
    unfold ask traced refusing
    dsimp only
    rw [if_pos rfl, Nat.sub_self]
    rfl

mutual

theorem cuts_build : ∀ p : Phrase, Cuts (fun k reason => (b.refusing k reason).traced.build p) (b.traced.build p)
  | .string .. | .number .. | .axis .. | .variable .. => cuts_ask b _ _
  | .binary _ _ left right | .join _ left right | .predicate _ left right _ =>
    (cuts_build left).andThen fun _ => (cuts_build right).andThen fun _ => cuts_ask b _ _
  | .negation _ inner => (cuts_build inner).andThen fun _ => cuts_ask b _ _
  | .function _ _ _ args => (cuts_buildAll args).andThen fun _ => cuts_ask b _ _

theorem cuts_buildAll : ∀ ps : List Phrase,
    Cuts (fun k reason => (b.refusing k reason).traced.buildAll ps) (b.traced.buildAll ps)
  | [] => cuts_done _
  | p :: ps => (cuts_build p).andThen fun _ => (cuts_buildAll ps).andThen fun _ => cuts_done _

end

theorem cuts_buildOutcome (o : Outcome Phrase) :
    Cuts (fun k reason => (b.refusing k reason).traced.buildOutcome o) (b.traced.buildOutcome o) := by
  cases o with
  | read phrase q => exact cuts_build b phrase
  | broken complete fault => exact (cuts_buildAll b complete).andThen fun _ => cuts_done _

end

/-- What a builder is told in all, when these are its calls and this is the node of the whole. -/
def told (calls : List (Call ν)) (whole : Option ν) : List (Event ν) :=
  .start :: (calls.map .call ++ [.finish whole])

theorem told_inj {calls calls' : List (Call ν)} {whole whole' : Option ν} (h : told calls whole = told calls' whole') :
    calls = calls' ∧ whole = whole' := by
  obtain ⟨hcalls, hwhole⟩ := List.append_inj' (List.cons.inj h).2 rfl
  cases hwhole
  exact ⟨(List.map_inj_right fun _ _ => Event.call.inj).1 hcalls, rfl⟩

/-- **A refusal ends the parse and does nothing else.**  The calls of a builder are those that it would have made, up to
the one it refuses; when there are fewer calls than that, refusing makes no difference. -/
theorem refusing_parse (b : Builder σ ν) (text : String) (start : Nat) (s : σ) :
    ∃ (calls : List (Call ν)) (whole : Option ν),
      let run := b.traced.parse text start (s, [])
      run.2.2 = told calls whole ∧ ∀ k reason,
        (calls.length ≤ k → (b.refusing k reason).traced.parse text start ((s, 0), []) =
          (run.1, (run.2.1, calls.length), told calls whole)) ∧
        (k < calls.length → ∃ window d, (b.refusing k reason).traced.parse text start ((s, 0), []) =
          (.error ⟨⟨.rejected reason, window⟩, text⟩, d, told (calls.take (k + 1)) none)) := by
  obtain ⟨calls, hlog, hcuts⟩ := cuts_buildOutcome b (Phrase.ofText text start) (b.start s) 0 [.start]
  simp only [Nat.zero_add, Nat.zero_le, true_imp_iff, Nat.sub_zero] at hcuts
  have started : b.traced.start (s, []) = (b.start s, [.start]) := rfl
  have counted : ∀ k reason, (b.refusing k reason).traced.start ((s, 0), []) = ((b.start s, 0), [.start]) :=
    fun _ _ => rfl
  simp only [parse_eq, started, counted]
  cases hrun : b.traced.buildOutcome (Phrase.ofText text start) (b.start s, [.start]) with
  | mk answer d =>
    obtain ⟨s', log⟩ := d
    rw [hrun] at hlog hcuts
    dsimp only at hlog hcuts
    subst hlog
    refine ⟨calls, answer.toOption, ?_, fun k reason => ⟨fun hk => ?_, fun hk => ?_⟩⟩
    · cases answer with
      | error f => rfl
      | ok node =>
        dsimp only [traced]
        cases b.finish (some node) s' with
        | mk left s'' => cases left <;> rfl
    · rw [(hcuts k reason).1 hk]
      cases answer with
      | error f => rfl
      | ok node =>
        dsimp only [traced, refusing]
        cases b.finish (some node) s' with
        | mk left s'' => cases left <;> rfl
    · obtain ⟨blame, d, hcut⟩ := (hcuts k reason).2 hk
      rw [hcut]
      exact ⟨blame, _, rfl⟩

/-! ## What becomes of the nodes -/

/-- The work hands back some of the nodes `held` and some of those that it is given, each at most once and only after it
was given; at the end those in `nodes` are left over. -/
def Spends (held : List Nat) (w : Work (Nat × List (Event Nat)) α) (nodes : α → List Nat) : Prop :=
  ∀ n log, (∀ node ∈ held, node < n) → ∃ (calls : List (Call Nat)) (left : List Nat),
    (w (n, log)).2 = (n + calls.length, log ++ calls.map .call) ∧
    (∀ i c, calls[i]? = some c → ∀ node ∈ c.nodes, node < n + i) ∧
    (calls.flatMap Call.nodes ++ left).Perm (held ++ List.range' n calls.length) ∧
    ∀ a, (w (n, log)).1 = .ok a → left = nodes a

namespace Spends

variable {held : List Nat} {w : Work (Nat × List (Event Nat)) α} {nodes : α → List Nat}

open scoped List in
theorem andThen {next : α → Work (Nat × List (Event Nat)) β} {nodes' : β → List Nat} (h : Spends held w nodes)
    (hn : ∀ a, Spends (nodes a) (next a) nodes') : Spends held (w.andThen next) nodes' := by
  intro n log hheld
  obtain ⟨calls, left, hd, hearlier, hperm, hleft⟩ := h n log hheld
  cases hw : w (n, log) with
  | mk answer d =>
    rw [hw] at hd hleft
    dsimp only at hd hleft
    subst hd
    cases answer with
    | error f =>
      rw [Work.andThen_error hw]
      exact ⟨calls, left, rfl, hearlier, hperm, nofun⟩
    | ok a =>
      obtain rfl := hleft a rfl
      have given : ∀ node ∈ nodes a, node < n + calls.length := by
        intro node hnode
        rcases List.mem_append.1 (hperm.subset (List.mem_append_right _ hnode)) with hm | hm
        · have := hheld node hm
          omega
        · exact (List.mem_range'_1.1 hm).2
      obtain ⟨more, left, hd, hearlier', hperm', hleft'⟩ := hn a (n + calls.length) (log ++ calls.map .call) given
      rw [Work.andThen_ok hw]
      refine ⟨calls ++ more, left, ?_, fun i c hc => ?_, ?_, hleft'⟩
      · rw [hd, List.length_append, List.map_append, Nat.add_assoc, List.append_assoc]
      · rcases Nat.lt_or_ge i calls.length with hi | hi
        · rw [List.getElem?_append_left hi] at hc
          exact hearlier i c hc
        · rw [List.getElem?_append_right hi] at hc
          intro node hnode
          have := hearlier' _ c hc node hnode
          omega
      · rw [List.flatMap_append, List.length_append, ← List.range'_append_1, List.append_assoc]
        calc calls.flatMap Call.nodes ++ (more.flatMap Call.nodes ++ left)
          _ ~ calls.flatMap Call.nodes ++ (nodes a ++ List.range' (n + calls.length) more.length) :=
            hperm'.append_left _
          _ = (calls.flatMap Call.nodes ++ nodes a) ++ List.range' (n + calls.length) more.length :=
            (List.append_assoc ..).symm
          _ ~ (held ++ List.range' n calls.length) ++ List.range' (n + calls.length) more.length :=
            hperm.append_right _
          _ = held ++ (List.range' n calls.length ++ List.range' (n + calls.length) more.length) :=
            List.append_assoc ..

/-- Nodes that the work does not know of are left over. -/
theorem beside (h : Spends held w nodes) (more : List Nat) : Spends (more ++ held) w fun a => more ++ nodes a := by
  intro n log hheld
  obtain ⟨calls, left, hd, hearlier, hperm, hleft⟩ := h n log fun node hm => hheld node (List.mem_append_right _ hm)
  refine ⟨calls, more ++ left, hd, hearlier, ?_, fun a ha => by rw [hleft a ha]⟩
  rw [List.append_assoc]
  exact (List.perm_append_comm_assoc ..).trans (hperm.append_left more)

theorem done {a : α} (ha : nodes a = held) : Spends held (fun d => (.ok a, d)) nodes := by
  subst ha
  intro n log hheld
  refine ⟨[], nodes a, by simp, by simp, by simp, fun a' ha => ?_⟩
  cases ha
  rfl

theorem fail (f : Fault) : Spends held (fun d => (.error f, d)) nodes := by
  intro n log hheld
  exact ⟨[], held, by simp, by simp, by simp, nofun⟩

theorem ask (blame : Span) {c : Call Nat} (hc : c.nodes = held) :
    Spends held (numbering.traced.ask blame c) fun node => [node] := by
  subst hc
  intro n log hheld
  refine ⟨[c], [n], rfl, fun i c' hc => ?_, by simp, fun a ha => ?_⟩
  · cases i with
    | zero =>
      cases hc
      exact hheld
    | succ i => cases hc
  · cases ha
    rfl

end Spends

mutual

theorem spends_build : ∀ p : Phrase, Spends [] (numbering.traced.build p) fun node => [node]
  | .string .. | .number .. | .axis .. | .variable .. => .ask _ rfl
  | .binary _ _ left right | .join _ left right | .predicate _ left right _ =>
    (spends_build left).andThen fun l => ((spends_build right).beside [l]).andThen fun _ => .ask _ rfl
  | .negation _ inner => (spends_build inner).andThen fun _ => .ask _ rfl
  | .function _ _ _ args => (spends_buildAll args).andThen fun _ => .ask _ rfl

theorem spends_buildAll : ∀ ps : List Phrase, Spends [] (numbering.traced.buildAll ps) fun nodes => nodes
  | [] => .done rfl
  | p :: ps => (spends_build p).andThen fun node => ((spends_buildAll ps).beside [node]).andThen fun _ =>
    .done rfl

end

theorem spends_buildOutcome : ∀ o : Outcome Phrase, Spends [] (numbering.traced.buildOutcome o) fun node => [node]
  | .read phrase _ => spends_build phrase
  | .broken complete fault => (spends_buildAll complete).andThen fun _ => .fail fault

/-- **What is refused is where the parse ends.**  Of the nodes that were given for a text each is handed back at most
once and later than it was given, and all but that of the whole are handed back if the text is an expression.  A refusal
leaves out the calls behind it and nothing else. -/
theorem refusal_truncates (text : String) (start : Nat) :
    ∃ (calls : List (Call Nat)) (result : Except ParseError Nat) (left : List Nat),
      numbering.traced.parse text start (0, []) = (result, calls.length, told calls result.toOption) ∧
      (∀ (i : Nat) (c : Call Nat), calls[i]? = some c → ∀ node ∈ c.nodes, node < i) ∧
      (calls.flatMap Call.nodes ++ left).Perm (List.range calls.length) ∧
      (∀ node, result = .ok node → left = [node]) ∧
      ∀ k reason,
        (k < calls.length → ∃ window d, (numbering.refusing k reason).traced.parse text start ((0, 0), []) =
          (.error ⟨⟨.rejected reason, window⟩, text⟩, d, told (calls.take (k + 1)) none)) ∧
        (calls.length ≤ k → (numbering.refusing k reason).traced.parse text start ((0, 0), []) =
          (result, (calls.length, calls.length), told calls result.toOption)) := by
  obtain ⟨calls, left, hd, hearlier, hperm, hleft⟩ :=
    spends_buildOutcome (Phrase.ofText text start) 0 [.start] nofun
  obtain ⟨calls', whole, htold, hrefused⟩ := refusing_parse numbering text start 0
  have run : ∃ result, numbering.traced.parse text start (0, []) =
      (result, calls.length, told calls result.toOption) ∧ ∀ node, result = .ok node → left = [node] := by
    have started : numbering.traced.start (0, []) = (0, [.start]) := rfl
    rw [parse_eq, started]
    cases hw : numbering.traced.buildOutcome (Phrase.ofText text start) (0, [.start]) with
    | mk answer d =>
      rw [hw] at hd hleft
      dsimp only at hd hleft
      rw [hd, Nat.zero_add]
      cases answer with
      | error f => exact ⟨_, rfl, nofun⟩
      | ok node =>
        refine ⟨.ok node, rfl, fun node' h => ?_⟩
        cases h
        exact hleft node rfl
  obtain ⟨result, hrun, hresult⟩ := run
  rw [hrun] at htold hrefused
  obtain ⟨rfl, rfl⟩ := told_inj htold
  rw [List.nil_append, ← List.range_eq_range'] at hperm
  refine ⟨calls, result, left, hrun, fun i c hc node hnode => ?_, hperm, hresult, fun k reason => ?_⟩
  · rw [← Nat.zero_add i]
    exact hearlier i c hc node hnode
  · exact ⟨(hrefused k reason).2, (hrefused k reason).1⟩

theorem refusal_truncates_union : 1 < 3 ∧ ∃ window d,
    (numbering.refusing 1 "no").traced.parse "a|b" 0 ((0, 0), []) =
      (.error ⟨⟨.rejected "no", window⟩, "a|b"⟩, d, [.start, .call (.axis .child .element none (some "a")),
        .call (.axis .child .element none (some "b")), .finish none]) := by
  refine ⟨by decide, ?_⟩
  obtain ⟨calls, result, left, hrun, -, -, -, hrefused⟩ := refusal_truncates "a|b" 0
  have parsed : (numbering.traced.parse "a|b" 0 (0, [])).2 = (3, told [.axis .child .element none (some "a"),
      .axis .child .element none (some "b"), .operator .union (some 0) (some 1)] (some 2)) := by
    decide +kernel
  obtain ⟨rfl, -⟩ := told_inj ((congrArg (fun run => run.2.2) hrun).symm.trans (congrArg Prod.snd parsed))
  exact (hrefused 1 "no").1 (by decide)

end Builder

end StylesheetReversal.Path
