import StylesheetReversal.Proofs.Path.InStep
import StylesheetReversal.Proofs.Path.Promises
import StylesheetReversal.Proofs.Path.Strict.Parser
/-!
# Working without a slip

Strict work agrees with a piece of reading (`Agrees`) if it never comes to a slip, finds what the reading finds and leaves
everything as the reading does.  What has been read of the current lexeme is what is held of it, as long as that lexeme is
no faulty one (`Scanner.Read`), and what a lexeme has announced is read behind it.  From there on the judgement is closed
under sequencing, under asking and under working inside a unit.
-/
namespace StylesheetReversal.Path

variable {σ ν α β γ : Type}

/-! ## What is held -/

namespace Scanner

variable {c : Scanner}

/-- The current lexeme has been read, and there is nothing wrong with it. -/
def Read (c : Scanner) : Prop := ∃ previous : Scanner, previous.advance = (c, none)

theorem read_advance {next : Scanner} (h : c.advance = (next, none)) : next.Read := ⟨c, h⟩

theorem session_of_advance {next : Scanner} {fault : Option Fault} (h : c.advance = (next, fault)) :
    c.session.advance = (next.session, fault) := by
  cases h
  rfl

/-- A name is held as it is written, with what follows it. -/
theorem Read.name (h : c.Read) (hk : c.session.kind ∈ wordKinds) : c.named = c.turn ∧ c.name = c.session.name ∧
    c.callable = (!c.session.name.isWildcard && Munch.beforeParen c.session.rest) := by
  obtain ⟨previous, hadvance⟩ := h
  obtain rfl : previous.advance.1 = c := by rw [hadvance]
  have spelled : previous.session.advance.1.kind ∈ wordKinds := hk
  exact ⟨if_pos spelled, if_pos spelled, if_pos spelled⟩

theorem Read.callable (h : c.Read) (hk : c.session.kind = .name) : c.callable = c.session.isCallable := by
  rw [(h.name (by rw [hk]; decide)).2.2, Session.isCallable, hk]
  rfl

/-- A string is held as it is read. -/
theorem Read.closed (h : c.Read) (hk : c.session.kind = .string) : c.closed = c.turn := by
  obtain ⟨previous, hadvance⟩ := h
  obtain rfl : previous.advance.1 = c := by rw [hadvance]
  have sound : previous.session.advance.2 = none := congrArg Prod.snd (session_of_advance hadvance)
  have string : previous.session.advance.1.kind = .string ∧ previous.session.advance.2.isNone := ⟨hk, by rw [sound]; rfl⟩
  exact if_pos string

theorem Read.axis (h : c.Read) (hk : c.session.kind = .axis) :
    c.session.axis.isSome = true ∧ c.session.Announces .colonColon := by
  obtain ⟨previous, hadvance⟩ := h
  obtain rfl : previous.advance.1 = c := by rw [hadvance]
  exact Session.axis_promises hk

/-- What has been announced is what is read. -/
theorem kind_of_announces {k : Kind} {next : Scanner} {fault : Option Fault} (h : c.session.Announces k)
    (hadvance : c.advance = (next, fault)) : next.session.kind = k := by
  obtain ⟨s, hs, hk⟩ := h
  rw [session_of_advance hadvance] at hs
  cases hs
  exact hk

end Scanner

/-! ## Agreement -/

/-- What is demanded of a lexeme that was not announced. -/
def demandable : List Kind := [.name, .string, .rparen, .rbracket]

/-- No lexeme that was announced is missing. -/
def Fault.Fair (f : Fault) : Prop := ∀ expected found, f.cause = .tokenExpected expected found → expected ∈ demandable

/-- From here, the strict work `g` comes to no slip and does what the reading `r` does; if it succeeds, its result and the
scanner behind it are as they should be. -/
def Agrees (c : Scanner) (g : Strict σ α) (r : Reading σ α) (Q : α → Scanner → Prop) : Prop :=
  ∀ us st, ∃ result c' st', g ⟨c, us, st⟩ = .ok (result, ⟨c', us, st'⟩) ∧
    r ⟨c.session, us, st⟩ = (result, ⟨c'.session, us, st'⟩) ∧
    match result with
    | .ok a => Q a c'
    | .error f => f.Fair

/-- The strict work gives `v` and leaves everything as it is. -/
def Looks (c : Scanner) (g : Strict σ α) (v : α) : Prop := ∀ us st, g ⟨c, us, st⟩ = .ok (.ok v, ⟨c, us, st⟩)

namespace Looks

variable {c : Scanner} {v : α}

theorem pure : Looks (σ := σ) c (pure v) v := fun _ _ => rfl

theorem look (view : Session → α) : Looks (σ := σ) c (Strict.look view) (view c.session) := fun _ _ => rfl

theorem bind {g : Strict σ α} {k : α → Strict σ β} {w : β} (hg : Looks c g v) (hk : Looks c (k v) w) :
    Looks c (g >>= k) w := by
  intro us st
  have first := hg us st
  have second := hk us st
  simp only [Bind.bind, first, second]

theorem held {kinds : List Kind} {stamp : Scanner → Nat} {view : Scanner → α} (hk : c.session.kind ∈ kinds)
    (hs : stamp c = c.turn) : Looks (σ := σ) c (Strict.held kinds stamp view) (view c) := by
  intro us st
  simp [Strict.held, hk, hs]

variable (hc : c.Read)
include hc

theorem name (hk : c.session.kind = .name) : Looks (σ := σ) c Strict.name c.session.name := by
  obtain ⟨hnamed, hname, -⟩ := hc.name (by rw [hk]; decide)
  rw [← hname]
  exact held (by rw [hk]; decide) hnamed

theorem callable (hk : c.session.kind = .name) : Looks (σ := σ) c Strict.callable c.session.isCallable := by
  rw [← hc.callable hk]
  exact held (by rw [hk]; decide) (hc.name (by rw [hk]; decide)).1

theorem axis (hk : c.session.kind = .axis) : Looks (σ := σ) c Strict.axis c.session.axis :=
  held (by rw [hk]; decide) (hc.name (by rw [hk]; decide)).1

theorem content (hk : c.session.kind = .string) : Looks (σ := σ) c Strict.content c.session.content :=
  held (by rw [hk]; decide) (hc.closed hk)

theorem namesNodeType (hk : c.session.kind = .name) :
    Looks (σ := σ) c Strict.namesNodeType c.session.namesNodeType :=
  bind (name hc hk) pure

theorem callsNodeType (hk : c.session.kind = .name) :
    Looks (σ := σ) c Strict.callsNodeType (c.session.isCallable && c.session.namesNodeType) := by
  refine bind (callable hc hk) ?_
  by_cases hcall : c.session.isCallable = true
  · simp only [hcall, if_true, Bool.true_and]
    exact namesNodeType hc hk
  · simp only [hcall, Bool.false_and]
    exact pure

/-- Only a name is asked whether it may be called. -/
theorem startsPrimary : Looks (σ := σ) c Strict.startsPrimary c.session.startsPrimary := by
  refine bind (look Session.kind) ?_
  unfold Session.startsPrimary
  by_cases hk : c.session.kind = .name
  · simp only [hk]
    refine bind (callable hc hk) ?_
    by_cases hcall : c.session.isCallable = true
    · simp only [hcall, if_true, Bool.true_and]
      exact bind (namesNodeType hc hk) pure
    · simp only [hcall, Bool.false_and]
      exact pure
  · cases hkind : c.session.kind
    case name => exact absurd hkind hk
    all_goals exact pure

end Looks

/-- Passing a lexeme is checking it and moving on. -/
theorem Strict.pass_eq (k : Kind) : (pass k : Strict σ Unit) = check k >>= fun _ => advance := by
  funext d
  simp only [pass, check, advance, move, Scanner.pass, Bind.bind]
  cases d.scanner.session.check k <;> rfl

namespace Agrees

variable {c : Scanner} {g : Strict σ α} {r : Reading σ α} {P : α → Scanner → Prop} {Q : β → Scanner → Prop}

theorem pure {v : α} (h : P v c) : Agrees (σ := σ) c (pure v) (pure v) P := fun _ st => ⟨.ok v, c, st, rfl, rfl, h⟩

/-- **Sequencing.** -/
theorem bind {k : α → Strict σ β} {l : α → Reading σ β} (h : Agrees c g r P)
    (hk : ∀ a c', P a c' → Agrees c' (k a) (l a) Q) : Agrees c (g >>= k) (r >>= l) Q := by
  intro us st
  obtain ⟨result, c', st', hg, hr, hresult⟩ := h us st
  cases result with
  | error f => exact ⟨.error f, c', st', by simp only [Bind.bind, hg], by simp only [Bind.bind, hr], hresult⟩
  | ok a =>
    obtain ⟨result, c'', st'', hg', hr', hresult'⟩ := hk a c' hresult us st'
    exact ⟨result, c'', st'', by simp only [Bind.bind, hg, hg'], by simp only [Bind.bind, hr, hr'], hresult'⟩

theorem mono {P' : α → Scanner → Prop} (h : Agrees c g r P) (hp : ∀ a c', P a c' → P' a c') : Agrees c g r P' := by
  intro us st
  obtain ⟨result, c', st', hg, hr, hresult⟩ := h us st
  refine ⟨result, c', st', hg, hr, ?_⟩
  cases result with
  | error f => exact hresult
  | ok a => exact hp a c' hresult

/-- Looking at the session is free in a reading. -/
theorem here {l : Session → Reading σ α} (h : Agrees c g (l c.session) P) : Agrees c g (Reading.here >>= l) P := h

theorem look {v : γ} {a : Strict σ γ} {k : γ → Strict σ α} (ha : Looks c a v) (h : Agrees c (k v) r P) :
    Agrees c (a >>= k) r P := by
  intro us st
  obtain ⟨result, c', st', hg, rest⟩ := h us st
  have first := ha us st
  exact ⟨result, c', st', by simp only [Bind.bind, first, hg], rest⟩

/-- Looking at what the current lexeme has of whatever kind it is. -/
theorem glance {view : Session → γ} {k : γ → Strict σ α} (h : Agrees c (k (view c.session)) r P) :
    Agrees c (Strict.look view >>= k) r P := look (Looks.look view) h

theorem blame {fault : Session → Fault} (h : (fault c.session).Fair) :
    Agrees (σ := σ) c (Strict.blame fault) (Reading.fail (fault c.session)) P :=
  fun _ st => ⟨.error (fault c.session), c, st, rfl, rfl, h⟩

theorem unexpected : Agrees (σ := σ) c (Strict.blame Session.unexpected) (Reading.fail c.session.unexpected) P :=
  blame fun _ _ h => by cases h

/-- A faulty lexeme is not one that another was demanded for. -/
theorem fair_advance {next : Scanner} {f : Fault} (h : c.advance = (next, some f)) : f.Fair := by
  have fault : c.session.advance.2 = some f := by rw [Scanner.session_of_advance h]
  intro expected found hcause
  rcases Session.advance_fault fault with hf | hf <;> rw [hf] at hcause <;> cases hcause

theorem advance : Agrees (σ := σ) c Strict.advance Reading.advance fun _ c' => c.advance = (c', none) := by
  intro us st
  cases h : c.advance with
  | mk next fault =>
    have session := Scanner.session_of_advance h
    cases fault with
    | none =>
      refine ⟨.ok (), next, st, ?_, ?_, rfl⟩
      · simp only [Strict.advance, Strict.move, h]
      · simp only [Reading.advance, Reading.move, session]
    | some f =>
      refine ⟨.error f, next, st, ?_, ?_, fair_advance h⟩
      · simp only [Strict.advance, Strict.move, h]
      · simp only [Reading.advance, Reading.move, session]

/-- Only a fair demand is made of a lexeme that was not announced. -/
theorem check {k : Kind} (hk : k ∈ .eof :: demandable) :
    Agrees (σ := σ) c (Strict.check k) (Reading.check k) fun _ c' => c' = c ∧ c.session.kind = k := by
  intro us st
  by_cases h : c.session.kind = k
  · have passes : c.session.check k = none := if_pos h
    refine ⟨.ok (), c, st, ?_, ?_, rfl, h⟩
    · simp only [Strict.check, Strict.move, passes]
    · simp only [Reading.check, Reading.move, passes]
  · obtain ⟨f, hf⟩ : ∃ f, c.session.check k = some f := by
      unfold Session.check
      rw [if_neg h]
      split <;> exact ⟨_, rfl⟩
    have fair : f.Fair := by
      intro expected found hcause
      unfold Session.check at hf
      rw [if_neg h] at hf
      split at hf
      · cases hf
        cases hcause
      · next heof =>
        cases hf
        cases hcause
        exact (List.mem_cons.1 hk).resolve_left heof
    refine ⟨.error f, c, st, ?_, ?_, fair⟩
    · simp only [Strict.check, Strict.move, hf]
    · simp only [Reading.check, Reading.move, hf]

theorem pass {k : Kind} (hk : k ∈ demandable) :
    Agrees (σ := σ) c (Strict.pass k) (Reading.pass k) fun _ c' => c.session.kind = k ∧ c.advance = (c', none) := by
  rw [Strict.pass_eq, InStep.pass_eq]
  refine bind (check (List.mem_cons_of_mem _ hk)) fun _ c' h => ?_
  obtain ⟨rfl, hkind⟩ := h
  exact advance.mono fun _ _ hadvance => ⟨hkind, hadvance⟩

/-- What was announced is passed without a demand. -/
theorem announced {k : Kind} (h : c.session.kind = k) :
    Agrees (σ := σ) c (Strict.announced k) (Reading.pass k) fun _ c' => c.advance = (c', none) := by
  have passes : c.session.check k = none := if_pos h
  intro us st
  obtain ⟨result, c', st', hg, hr, hresult⟩ := advance (σ := σ) (c := c) us st
  refine ⟨result, c', st', ?_, ?_, hresult⟩
  · rw [← hg]
    exact if_pos h
  · rw [← hr]
    simp only [Reading.pass, Reading.advance, Reading.move, Session.pass, passes]

theorem ask (b : Builder σ ν) (call : Call ν) :
    Agrees c (Strict.ask b call) (Reading.ask b call) fun _ c' => c' = c := by
  intro us st
  simp only [Strict.ask, Reading.ask]
  cases b.construct call st with
  | mk result st' =>
    cases result with
    | ok node => exact ⟨.ok node, c, st', rfl, rfl, rfl⟩
    | error reason => exact ⟨.error _, c, st', rfl, rfl, fun _ _ h => by cases h⟩

/-- Asking leaves the lexeme as it is. -/
theorem ask_bind (b : Builder σ ν) (call : Call ν) {k : ν → Strict σ α} {l : ν → Reading σ α}
    (h : ∀ node, Agrees c (k node) (l node) P) :
    Agrees c (Strict.ask b call >>= k) (Reading.ask b call >>= l) P :=
  bind (ask b call) fun node _ hc => hc ▸ h node

/-- What is built of a lexeme that has been read leaves it to be looked at. -/
theorem ask_read (b : Builder σ ν) (hc : c.Read) (call : Call ν) :
    Agrees c (Strict.ask b call) (Reading.ask b call) fun _ => Scanner.Read :=
  (ask b call).mono fun _ _ same => same ▸ hc

/-- Moving on to what is not looked at any more. -/
theorem advance_pure (v : α) : Agrees (σ := σ) c (Strict.advance >>= fun _ => Pure.pure v)
    (Reading.advance >>= fun _ => Pure.pure v) fun _ => Scanner.Read :=
  bind advance fun _ _ hadvance => pure (Scanner.read_advance hadvance)

theorem pass_pure {k : Kind} (hk : k ∈ demandable) (v : α) : Agrees (σ := σ) c (Strict.pass k >>= fun _ => Pure.pure v)
    (Reading.pass k >>= fun _ => Pure.pure v) fun _ => Scanner.Read :=
  bind (pass hk) fun _ _ hpass => pure (Scanner.read_advance hpass.2)

/-- A unit is left as the innermost one, since the work inside leaves all units as they were. -/
theorem within {window : Span} (h : Agrees c g r P) : Agrees c (Strict.within window g) (Reading.within window r) P := by
  intro us st
  obtain ⟨result, c', st', hg, hr, hresult⟩ := h (window :: us) st
  refine ⟨result, c', st', ?_, ?_, hresult⟩
  · simp [Strict.within, hg]
  · simp [Reading.within, hr]

end Agrees

end StylesheetReversal.Path
