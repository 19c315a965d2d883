import StylesheetReversal.Path.Builder
/-!
# The desk of the parser

The parser works at a `Desk`: a session of the text, the state of the builder, and the windows of the
units that are being read, of which the innermost is blamed when the builder refuses something.

A `Reading` is a piece of this work.  A fault ends it, and what lies on the desk then stays there: a
builder keeps the state it has come to.
-/
namespace StylesheetReversal.Path

/-- `units` has the innermost window first. -/
structure Desk (σ : Type) where
  session : Session
  units : List Span
  state : σ

/-- A piece of the work at a desk. -/
def Reading (σ α : Type) := Desk σ → Except Fault α × Desk σ

namespace Reading

variable {σ ν α β : Type}

instance : Monad (Reading σ) where
  pure a := fun d => (.ok a, d)
  bind r next := fun d =>
    match r d with
    | (.ok a, d) => next a d
    | (.error f, d) => (.error f, d)

/-- The session as it is now. -/
def here : Reading σ Session := fun d => (.ok d.session, d)

/-- Ends the work. -/
def fail (f : Fault) : Reading σ α := fun d => (.error f, d)

/-- Does something in the session, where it may find a fault. -/
def move (step : Session → Session × Option Fault) : Reading σ Unit := fun d =>
  match step d.session with
  | (s, none) => (.ok (), { d with session := s })
  | (s, some f) => (.error f, { d with session := s })

/-- Goes on to the next lexeme. -/
def advance : Reading σ Unit := move Session.advance

/-- Fails unless the current lexeme is of the expected kind. -/
def check (expected : Kind) : Reading σ Unit := move fun s => (s, s.check expected)

/-- Goes past a lexeme of the expected kind. -/
def pass (expected : Kind) : Reading σ Unit := move fun s => s.pass expected

/-- Asks the builder for a construction.  A refusal is a fault in the innermost unit, or in the
current lexeme if there is none. -/
def ask (b : Builder σ ν) (call : Call ν) : Reading σ ν := fun d =>
  match b.construct call d.state with
  | (.ok node, s) => (.ok node, { d with state := s })
  | (.error reason, s) =>
    (.error ⟨.rejected reason, d.units.head?.getD d.session.span⟩, { d with state := s })

/-- Works inside a unit, which is left again however the work ends. -/
def within (window : Span) (r : Reading σ α) : Reading σ α := fun d =>
  let (result, after) := r { d with units := window :: d.units }
  (result, { after with units := after.units.tail })

end Reading

end StylesheetReversal.Path
