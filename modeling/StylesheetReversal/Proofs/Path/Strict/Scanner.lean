import StylesheetReversal.Path.Desk
import StylesheetReversal.Proofs.Path.Munch
/-!
# A scanner that watches over what it holds

A scanner holds on to what it has read of names and strings: a name and whether it may be called, its axis, and the content
of a string.  All of it stays when a lexeme of another kind is read, and the content of a string also when a string is read
that is not closed.  So it matters when it is asked for.

Here it is known of what is held which lexeme it was read from.  `Strict` is work like `Reading`, but it comes to a `Slip`
when it asks for what the current lexeme does not have, when a lexeme is missing that was announced, and when a unit is left
that is not the innermost one.
-/
namespace StylesheetReversal.Path

/-- A session with all that its scanner holds on to, and the number of its current lexeme.  The name, its flag and the axis
were read from lexeme number `named`, and the content from lexeme number `closed`. -/
structure Scanner where
  session : Session
  name : WrittenName
  callable : Bool
  turn : Nat
  named : Nat
  closed : Nat
  deriving DecidableEq, Repr

namespace Scanner

/-- In front of the text, where nothing has been read. -/
def fresh (text : String) (start : Nat) : Scanner := ⟨Session.fresh text start, ⟨"", ""⟩, false, 0, 0, 0⟩

/-- Moves to the next lexeme.  Whatever is spelled like a name is held as a name, also an operator, and a string is held if
it is closed. -/
def advance (c : Scanner) : Scanner × Option Fault :=
  let (s, fault) := c.session.advance
  let turn := c.turn + 1
  let next : Scanner :=
    { session := s
      name := if s.kind ∈ wordKinds then s.name else c.name
      callable := if s.kind ∈ wordKinds then !s.name.isWildcard && Munch.beforeParen s.rest else c.callable
      turn := turn
      named := if s.kind ∈ wordKinds then turn else c.named
      closed := if s.kind = .string ∧ fault.isNone then turn else c.closed }
  (next, fault)

/-- Checks the current lexeme and moves past it. -/
def pass (c : Scanner) (expected : Kind) : Scanner × Option Fault :=
  match c.session.check expected with
  | some fault => (c, some fault)
  | none => c.advance

end Scanner

/-- What strict work must not come to. -/
inductive Slip
  /-- Something is asked for that a lexeme of this kind does not have. -/
  | misread (kind : Kind)
  /-- What is held was read from an earlier lexeme than the current one, which is of this kind. -/
  | leftOver (kind : Kind)
  /-- The lexeme of this kind that was announced is not there. -/
  | unkept (announced : Kind)
  /-- A name that stands for an axis or a node type is none. -/
  | meaningless
  /-- A unit is left while there are others inside it, or after it has been left already. -/
  | disorder
  /-- There are units left at the end. -/
  | unfinished
  deriving DecidableEq, Repr

/-- Like a `Desk`. -/
structure Bench (σ : Type) where
  scanner : Scanner
  units : List Span
  state : σ

/-- A piece of strict work. -/
def Strict (σ α : Type) := Bench σ → Except Slip (Except Fault α × Bench σ)

namespace Strict

variable {σ ν α β : Type}

instance : Monad (Strict σ) where
  pure a := fun d => .ok (.ok a, d)
  bind g next := fun d =>
    match g d with
    | .ok (.ok a, d) => next a d
    | .ok (.error f, d) => .ok (.error f, d)
    | .error slip => .error slip

def slip (s : Slip) : Strict σ α := fun _ => .error s

/-! ## Looking

The kind, the window and the characters are those of the current lexeme, of whatever kind it is. -/

def look (view : Session → α) : Strict σ α := fun d => .ok (.ok (view d.scanner.session), d)

def kind : Strict σ Kind := look Session.kind

def start : Strict σ Nat := look Session.start

def stop : Strict σ Nat := look Session.stop

/-- The end of the lexeme before the current one. -/
def before : Strict σ Nat := look Session.before

def text : Strict σ (List Char) := look Session.text

/-- Fails at the current lexeme. -/
def blame (fault : Session → Fault) : Strict σ α := fun d => .ok (.error (fault d.scanner.session), d)

/-- Looks up what is held of lexemes of these kinds; it has to be that of the current one. -/
def held (kinds : List Kind) (stamp : Scanner → Nat) (view : Scanner → α) : Strict σ α := fun d =>
  if d.scanner.session.kind ∉ kinds then .error (.misread d.scanner.session.kind)
  else if stamp d.scanner ≠ d.scanner.turn then .error (.leftOver d.scanner.session.kind)
  else .ok (.ok (view d.scanner), d)

/-- The current name, with its qualifier. -/
def name : Strict σ WrittenName := held [.name, .axis] Scanner.named Scanner.name

/-- Whether the current name may be called. -/
def callable : Strict σ Bool := held [.name] Scanner.named Scanner.callable

/-- The current axis. -/
def axis : Strict σ (Option Axis) := held [.axis] Scanner.named fun c => c.session.axis

/-- The content of the current string. -/
def content : Strict σ (List Char) := held [.string] Scanner.closed fun c => c.session.content

/-- A string that is not closed leaves the content of the one before it. -/
example : (content : Strict Unit (List Char)) ⟨(Scanner.fresh "'a' 'b" 0).advance.1.advance.1, [], ()⟩ =
    .error (.leftOver .string) := rfl

/-! ## Moving, asking and units -/

def move (step : Scanner → Scanner × Option Fault) : Strict σ Unit := fun d =>
  match step d.scanner with
  | (c, none) => .ok (.ok (), { d with scanner := c })
  | (c, some f) => .ok (.error f, { d with scanner := c })

def advance : Strict σ Unit := move Scanner.advance

def check (expected : Kind) : Strict σ Unit := move fun c => (c, c.session.check expected)

def pass (expected : Kind) : Strict σ Unit := move fun c => c.pass expected

/-- Goes past a lexeme that has been announced. -/
def announced (k : Kind) : Strict σ Unit := fun d =>
  if d.scanner.session.kind = k then advance d else .error (.unkept k)

def ask (b : Builder σ ν) (call : Call ν) : Strict σ ν := fun d =>
  match b.construct call d.state with
  | (.ok node, s) => .ok (.ok node, { d with state := s })
  | (.error reason, s) =>
    .ok (.error ⟨.rejected reason, d.units.head?.getD d.scanner.session.span⟩, { d with state := s })

/-- Works inside a unit, which has to be the innermost one when it is left. -/
def within (window : Span) (g : Strict σ α) : Strict σ α := fun d =>
  match g { d with units := window :: d.units } with
  | .error slip => .error slip
  | .ok (result, after) =>
    if after.units.length = d.units.length + 1 then .ok (result, { after with units := after.units.tail })
    else .error .disorder

end Strict

end StylesheetReversal.Path
