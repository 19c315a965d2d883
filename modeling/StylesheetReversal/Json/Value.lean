import StylesheetReversal.Json.Text
import StylesheetReversal.Text.Blank
/-!
# JSON values

`Value.parse?` reads the value that a text consists of.  Strings are kept as marks and numbers
as they are written: what they mean is asked only where they are used.
-/
namespace StylesheetReversal.Json

inductive Value
  | null
  | bool (b : Bool)
  | number (text : List Char)
  | string (marks : List Mark)
  | array (items : List Value)
  | object (members : List (List Mark × Value))
  deriving Repr

namespace Value

/-- One or more digits, and what follows them. -/
def digits? (text : List Char) : Option (List Char × List Char) :=
  if text.head?.any Char.isDigit then
    some (text.takeWhile Char.isDigit, text.dropWhile Char.isDigit)
  else none

/-- The digits in front of a point, without a needless zero. -/
def whole? : List Char → Option (List Char × List Char)
  | '0' :: rest => some (['0'], rest)
  | text => digits? text

/-- A point and digits, if there is a point. -/
def fraction? : List Char → Option (List Char × List Char)
  | '.' :: rest => (digits? rest).map fun (digits, rest) => ('.' :: digits, rest)
  | text => some ([], text)

/-- An exponent, if there is one. -/
def exponent? : List Char → Option (List Char × List Char)
  | [] => some ([], [])
  | c :: rest =>
    if c = 'e' ∨ c = 'E' then
      match rest with
      | '+' :: rest => (digits? rest).map fun (digits, rest) => (c :: '+' :: digits, rest)
      | '-' :: rest => (digits? rest).map fun (digits, rest) => (c :: '-' :: digits, rest)
      | rest => (digits? rest).map fun (digits, rest) => (c :: digits, rest)
    else some ([], c :: rest)

/-- A number without a sign. -/
def unsigned? (text : List Char) : Option (List Char × List Char) :=
  (whole? text).bind fun (whole, rest) => (fraction? rest).bind fun (fraction, rest) =>
  (exponent? rest).map fun (exponent, rest) => (whole ++ fraction ++ exponent, rest)

def number? : List Char → Option (Value × List Char)
  | '-' :: text => (unsigned? text).map fun (digits, rest) => (.number ('-' :: digits), rest)
  | text => (unsigned? text).map fun (digits, rest) => (.number digits, rest)

def skipSpace (text : List Char) : List Char := text.dropWhile Text.isSpace

mutual

/-- Takes a value off the front of a text. -/
def next? : Nat → List Char → Option (Value × List Char)
  | 0, _ => none
  | fuel + 1, text =>
    match skipSpace text with
    | 'n' :: 'u' :: 'l' :: 'l' :: rest => some (.null, rest)
    | 't' :: 'r' :: 'u' :: 'e' :: rest => some (.bool true, rest)
    | 'f' :: 'a' :: 'l' :: 's' :: 'e' :: rest => some (.bool false, rest)
    | '"' :: rest => (marks? rest).map fun (marks, rest) => (.string marks, rest)
    | '[' :: rest =>
      match skipSpace rest with
      | ']' :: rest => some (.array [], rest)
      | rest => (items? fuel rest).map fun (items, rest) => (.array items, rest)
    | '{' :: rest =>
      match skipSpace rest with
      | '}' :: rest => some (.object [], rest)
      | rest => (members? fuel rest).map fun (members, rest) => (.object members, rest)
    | rest => number? rest

/-- The items of an array, up to its closing bracket. -/
def items? : Nat → List Char → Option (List Value × List Char)
  | 0, _ => none
  | fuel + 1, text =>
    (next? fuel text).bind fun (item, rest) =>
      match skipSpace rest with
      | ']' :: rest => some ([item], rest)
      | ',' :: rest => (items? fuel rest).map fun (items, rest) => (item :: items, rest)
      | _ => none

/-- The members of an object, up to its closing brace. -/
def members? : Nat → List Char → Option (List (List Mark × Value) × List Char)
  | 0, _ => none
  | fuel + 1, text =>
    match skipSpace text with
    | '"' :: rest =>
      (marks? rest).bind fun (key, rest) =>
        match skipSpace rest with
        | ':' :: rest =>
          (next? fuel rest).bind fun (value, rest) =>
            match skipSpace rest with
            | '}' :: rest => some ([(key, value)], rest)
            | ',' :: rest =>
              (members? fuel rest).map fun (members, rest) => ((key, value) :: members, rest)
            | _ => none
        | _ => none
    | _ => none

end

/-- Reads the one value that a text consists of. -/
def parse? (text : List Char) : Option Value :=
  match next? (2 * text.length + 2) text with
  | some (value, rest) => if (skipSpace rest).isEmpty then some value else none
  | none => none

/-- The characters of a string. -/
def string? : Value → Option String
  | .string marks => (decode? marks).map String.ofList
  | _ => none

def bool? : Value → Option Bool
  | .bool b => some b
  | _ => none

/-- A whole number of at most 64 bits that is written with digits only. -/
def word? : Value → Option UInt64
  | .number text =>
    if text.all Char.isDigit then
      let n := text.foldl (fun n c => n * 10 + (c.toNat - 0x30)) 0
      if n < UInt64.size then some (UInt64.ofNat n) else none
    else none
  | _ => none

end Value

end StylesheetReversal.Json
