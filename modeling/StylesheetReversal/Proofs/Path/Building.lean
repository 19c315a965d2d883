import StylesheetReversal.Path.Builder
import StylesheetReversal.Proofs.Path.Phrase
/-!
# Building phrases

What a builder is asked for when a phrase is built: its parts from left to right and then the phrase
itself, until something is refused.  A reading that breaks is built as far as it has come.
-/
namespace StylesheetReversal.Path

namespace Builder

variable {σ ν : Type}

/-- Building keeps the state of the builder, also when it is stopped by a fault. -/
abbrev Work (σ α : Type) := σ → Except Fault α × σ

/-- Works on with what was built. -/
def Work.andThen {α β : Type} (w : Work σ α) (next : α → Work σ β) : Work σ β := fun s =>
  match w s with
  | (.ok a, s) => next a s
  | (.error f, s) => (.error f, s)

/-- Asks for one construction; a refusal is a fault in the window to blame. -/
def ask (b : Builder σ ν) (blame : Span) (call : Call ν) : Work σ ν := fun s =>
  match b.construct call s with
  | (.ok node, s) => (.ok node, s)
  | (.error reason, s) => (.error ⟨.rejected reason, blame⟩, s)

mutual

/-- Builds a phrase: its parts from left to right, and then the phrase itself. -/
def build (b : Builder σ ν) : Phrase → Work σ ν
  | .string blame value => b.ask blame (.string value)
  | .number blame text => b.ask blame (.number text)
  | .binary blame op left right =>
    (b.build left).andThen fun left => (b.build right).andThen fun right =>
      b.ask blame (.operator op (some left) (some right))
  | .negation blame inner =>
    (b.build inner).andThen fun inner => b.ask blame (.operator .unaryMinus (some inner) none)
  | .axis blame axis kind qualifier name => b.ask blame (.axis axis kind qualifier name)
  | .join blame left right =>
    (b.build left).andThen fun left => (b.build right).andThen fun right =>
      b.ask blame (.join left right)
  | .predicate blame node condition reverse =>
    (b.build node).andThen fun node => (b.build condition).andThen fun condition =>
      b.ask blame (.predicate node condition reverse)
  | .variable blame qualifier name => b.ask blame (.variable qualifier name)
  | .function blame qualifier name args =>
    (b.buildAll args).andThen fun args => b.ask blame (.function qualifier name args)

/-- Builds phrases from left to right. -/
def buildAll (b : Builder σ ν) : List Phrase → Work σ (List ν)
  | [] => fun s => (.ok [], s)
  | p :: ps =>
    (b.build p).andThen fun node => (b.buildAll ps).andThen fun nodes => fun s =>
      (.ok (node :: nodes), s)

end

/-- Builds what a reading came to: the whole expression, or the phrases complete before the
fault and then the fault. -/
def buildOutcome (b : Builder σ ν) : Outcome Phrase → Work σ ν
  | .read phrase _ => b.build phrase
  | .broken complete fault =>
    (b.buildAll complete).andThen fun _ => fun s => (.error fault, s)

end Builder

end StylesheetReversal.Path
