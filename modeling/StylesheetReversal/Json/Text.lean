import StylesheetReversal.Text.Digit
/-!
# Strings in JSON

Between its quotes a string is a sequence of marks: characters as they are, characters behind
a backslash, and UTF-16 code units as four hexadecimal digits behind `\u`.  `marks?` reads the
marks, which is all that is asked of a string nobody looks at.  `decode?` makes characters of
them, which takes surrogates in pairs only.

`encode` writes a string; reading what it writes gives the string back.
-/
namespace StylesheetReversal.Json

/-- One character of a string, or half of one. -/
inductive Mark
  | char (c : Char)
  | unit (n : Nat)
  deriving DecidableEq, Repr

/-- The character that stands behind a backslash for another one, or for itself. -/
def escaped? : Char → Option Char
  | '"' => some '"'
  | '\\' => some '\\'
  | '/' => some '/'
  | 'b' => some '\x08'
  | 'f' => some '\x0c'
  | 'n' => some '\n'
  | 'r' => some '\r'
  | 't' => some '\t'
  | _ => none

/-- The marks of a string, behind its opening quote, and what follows its closing one. -/
def marks? : List Char → Option (List Mark × List Char)
  | [] => none
  | '"' :: cs => some ([], cs)
  | '\\' :: 'u' :: a :: b :: c :: d :: cs =>
    (Text.number? 16 [a, b, c, d]).bind fun n =>
      (marks? cs).map fun (marks, rest) => (.unit n :: marks, rest)
  | '\\' :: c :: cs =>
    (escaped? c).bind fun c => (marks? cs).map fun (marks, rest) => (.char c :: marks, rest)
  | c :: cs =>
    if c = '\\' ∨ c.toNat < 0x20 then none
    else (marks? cs).map fun (marks, rest) => (.char c :: marks, rest)

def isHighSurrogate (n : Nat) : Bool := 0xD800 ≤ n && n < 0xDC00

def isLowSurrogate (n : Nat) : Bool := 0xDC00 ≤ n && n < 0xE000

/-- The character of a pair of surrogates. -/
def paired (high low : Nat) : Char :=
  Char.ofNat (0x10000 + (high - 0xD800) * 0x400 + (low - 0xDC00))

/-- The characters of a string. -/
def decode? : List Mark → Option (List Char)
  | [] => some []
  | .char c :: marks => (decode? marks).map (c :: ·)
  | .unit n :: .unit m :: marks =>
    if isHighSurrogate n then
      if isLowSurrogate m then (decode? marks).map (paired n m :: ·) else none
    else if isLowSurrogate n then none
    else (decode? (.unit m :: marks)).map (Char.ofNat n :: ·)
  | .unit n :: marks =>
    if isHighSurrogate n || isLowSurrogate n then none
    else (decode? marks).map (Char.ofNat n :: ·)

/-- The hexadecimal digit of a value below sixteen. -/
def hexDigit (n : Nat) : Char := Char.ofNat (if n < 10 then 0x30 + n else 0x61 + (n - 10))

/-- How a character is written in a string. -/
def encodeChar (c : Char) : List Char :=
  if c = '"' then ['\\', '"']
  else if c = '\\' then ['\\', '\\']
  else if c = '\x08' then ['\\', 'b']
  else if c = '\x0c' then ['\\', 'f']
  else if c = '\n' then ['\\', 'n']
  else if c = '\r' then ['\\', 'r']
  else if c = '\t' then ['\\', 't']
  else if c.toNat < 0x20 then
    ['\\', 'u', '0', '0', hexDigit (c.toNat / 16), hexDigit (c.toNat % 16)]
  else [c]

/-- A string between quotes. -/
def encode (s : String) : String :=
  "\"" ++ String.ofList (s.toList.flatMap encodeChar) ++ "\""

end StylesheetReversal.Json
