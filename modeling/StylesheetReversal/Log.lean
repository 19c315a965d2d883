/-!
# Log records

What the library reports while it works is a value like any other: a list of records, in the
order in which they arise.
-/
namespace StylesheetReversal.Log

inductive Level
  | trace
  | debug
  | info
  | warn
  deriving DecidableEq, Repr

def Level.label : Level → String
  | .trace => "TRACE"
  | .debug => "DEBUG"
  | .info => "INFO"
  | .warn => "WARN"

structure Record where
  level : Level
  text : String
  deriving DecidableEq, Repr

def Record.display (r : Record) : String := r.level.label ++ " " ++ r.text

def trace (text : String) : Record := ⟨.trace, text⟩

def debug (text : String) : Record := ⟨.debug, text⟩

def info (text : String) : Record := ⟨.info, text⟩

def warn (text : String) : Record := ⟨.warn, text⟩

end StylesheetReversal.Log
