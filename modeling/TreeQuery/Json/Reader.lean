import TreeQuery.Json
import TreeQuery.Text.Decimal

/-!
# Reading structured documents

A strict reader of JSON: no commas at the end of a list, no comments, no leading zeros, and no raw
control characters in strings.
-/

namespace TreeQuery.Json

/-- Skips the four characters that count as space between tokens. -/
def skipSpace (s : List Char) : List Char :=
  s.dropWhile fun c => c == ' ' || c == '\t' || c == '\n' || c == '\r'

/-! ## Strings -/

/-- A piece of a written string: a character, or a unit of UTF-16 as an escape. -/
inductive Piece where
  | char (c : Char)
  | unit (n : Nat)
  deriving DecidableEq, Repr

/-- The value of a digit of base 16. -/
def hexDigit? (c : Char) : Option Nat :=
  if '0' ≤ c && c ≤ '9' then some (c.toNat - '0'.toNat)
  else if 'a' ≤ c && c ≤ 'f' then some (c.toNat - 'a'.toNat + 10)
  else if 'A' ≤ c && c ≤ 'F' then some (c.toNat - 'A'.toNat + 10)
  else none

/-- The unit that four digits of base 16 stand for. -/
def unit? (a b c d : Char) : Option Nat := do
  let a ← hexDigit? a
  let b ← hexDigit? b
  let c ← hexDigit? c
  let d ← hexDigit? d
  some (((a * 16 + b) * 16 + c) * 16 + d)

/-- The character that an escape with one letter stands for. -/
def escaped? : Char → Option Char
  | '"' => some '"'
  | '\\' => some '\\'
  | '/' => some '/'
  | 'b' => some '\x08'
  | 'f' => some '\x0c'
  | 'n' => some '\n'
  | 'r' => some '\r'
  | 't' => some '\t'
  | _ => none

/-- Reads a string after its opening quote, and the text after the closing one. -/
def pieces? : List Char → Option (List Piece × List Char)
  | [] => none
  | '"' :: s => some ([], s)
  | '\\' :: 'u' :: a :: b :: c :: d :: s => do
    let n ← unit? a b c d
    let (pieces, rest) ← pieces? s
    some (.unit n :: pieces, rest)
  | '\\' :: e :: s => do
    let c ← escaped? e
    let (pieces, rest) ← pieces? s
    some (.char c :: pieces, rest)
  | c :: s =>
    if c.toNat < 0x20 || c == '\\' then none
    else do
      let (pieces, rest) ← pieces? s
      some (.char c :: pieces, rest)

/-- The first half of a pair of surrogates. -/
def isHighSurrogate (n : Nat) : Bool := 0xD800 ≤ n && n < 0xDC00

/-- The second half of a pair of surrogates. -/
def isLowSurrogate (n : Nat) : Bool := 0xDC00 ≤ n && n < 0xE000

/-- The text of a string, in which surrogates must come in pairs. -/
def decode : List Piece → Option (List Char)
  | [] => some []
  | .char c :: s => (decode s).map (c :: ·)
  | .unit n :: s =>
    if isHighSurrogate n then
      match s with
      | .unit m :: s =>
        if isLowSurrogate m then
          (decode s).map (Char.ofNat (0x10000 + (n - 0xD800) * 0x400 + (m - 0xDC00)) :: ·)
        else none
      | _ => none
    else if isLowSurrogate n then none
    else (decode s).map (Char.ofNat n :: ·)

/-- Reads a string after its opening quote: its text, if it has one, and what follows it. -/
def readString (s : List Char) : Option (Option String × List Char) :=
  (pieces? s).map fun r => ((decode r.1).map String.ofList, r.2)

/-! ## Numbers -/

/-- Splits a text after its leading digits. -/
def digitSpan (s : List Char) : List Char × List Char :=
  (s.takeWhile Char.isDigit, s.dropWhile Char.isDigit)

/-- Reads one or more digits. -/
def someDigits (s : List Char) : Option (List Char × List Char) :=
  if (digitSpan s).1.isEmpty then none else some (digitSpan s)

/-- Reads the whole part of a number, which has no leading zero. -/
def wholePart : List Char → Option (List Char × List Char)
  | '0' :: s => some (['0'], s)
  | s => someDigits s

/-- Reads the fraction of a number, if there is one. -/
def fraction : List Char → Option (List Char × List Char)
  | '.' :: s => (someDigits s).map fun r => ('.' :: r.1, r.2)
  | s => some ([], s)

/-- Reads the exponent of a number, if there is one. -/
def exponent : List Char → Option (List Char × List Char)
  | e :: s =>
    if e == 'e' || e == 'E' then
      match s with
      | '+' :: s => (someDigits s).map fun r => (e :: '+' :: r.1, r.2)
      | '-' :: s => (someDigits s).map fun r => (e :: '-' :: r.1, r.2)
      | s => (someDigits s).map fun r => (e :: r.1, r.2)
    else some ([], e :: s)
  | [] => some ([], [])

/-- Reads a number as it is written. -/
def readNumber (s : List Char) : Option (String × List Char) := do
  let (sign, s) := match s with
    | '-' :: s => (['-'], s)
    | s => ([], s)
  let (whole, s) ← wholePart s
  let (fraction, s) ← fraction s
  let (exponent, s) ← exponent s
  some (String.ofList (sign ++ whole ++ fraction ++ exponent), s)

/-- The value of a number below `bound` that is written as a whole number without a sign. -/
def natBelow? (bound : Nat) : Json → Option Nat
  | number written => (Text.digits? written.toList).filter (· < bound)
  | _ => none

/-! ## Values -/

mutual

/-- Reads a value, with at most `fuel` readers inside one another. -/
def readValue : Nat → List Char → Option (Json × List Char)
  | 0, _ => none
  | fuel + 1, s => match skipSpace s with
    | 'n' :: 'u' :: 'l' :: 'l' :: s => some (.null, s)
    | 't' :: 'r' :: 'u' :: 'e' :: s => some (.bool true, s)
    | 'f' :: 'a' :: 'l' :: 's' :: 'e' :: s => some (.bool false, s)
    | '"' :: s => (readString s).map fun r => (.string r.1, r.2)
    | '[' :: s => match skipSpace s with
      | ']' :: s => some (.array [], s)
      | s => (readElements fuel s).map fun r => (.array r.1, r.2)
    | '\x7b' :: s => match skipSpace s with
      | '\x7d' :: s => some (.object [], s)
      | s => (readMembers fuel s).map fun r => (.object r.1, r.2)
    | s => (readNumber s).map fun r => (.number r.1, r.2)

/-- Reads the elements of an array and its closing bracket. -/
def readElements : Nat → List Char → Option (List Json × List Char)
  | 0, _ => none
  | fuel + 1, s => do
    let (element, s) ← readValue fuel s
    match skipSpace s with
    | ',' :: s => do
      let (elements, s) ← readElements fuel s
      some (element :: elements, s)
    | ']' :: s => some ([element], s)
    | _ => none

/-- Reads the members of an object and its closing brace. -/
def readMembers : Nat → List Char → Option (List (Option String × Json) × List Char)
  | 0, _ => none
  | fuel + 1, s => match skipSpace s with
    | '"' :: s => do
      let (key, s) ← readString s
      match skipSpace s with
      | ':' :: s => do
        let (value, s) ← readValue fuel s
        match skipSpace s with
        | ',' :: s => do
          let (members, s) ← readMembers fuel s
          some ((key, value) :: members, s)
        | '\x7d' :: s => some ([(key, value)], s)
        | _ => none
      | _ => none
    | _ => none

end

/-- Reads a document, which is one value and nothing else. Of two readers inside one another the
inner one starts at least one character later, unless it reads the first value of a list, so twice
the length of the text bounds how many there are. -/
def read? (text : String) : Option Json :=
  match readValue (2 * text.toList.length + 2) text.toList with
  | some (json, rest) => if (skipSpace rest).isEmpty then some json else none
  | none => none

/-! ## Writing -/

/-- A digit of base 16. -/
def hexDigit (n : Nat) : Char := if n < 10 then Char.ofNat (48 + n) else Char.ofNat (87 + n)

/-- A character inside a written string. -/
def escape (c : Char) : List Char :=
  if c == '"' || c == '\\' then ['\\', c]
  else if c.toNat < 0x20 then
    ['\\', 'u', '0', '0', hexDigit (c.toNat / 16), hexDigit (c.toNat % 16)]
  else [c]

/-- A text as a written string. -/
def quote (text : String) : String :=
  "\"" ++ String.ofList (text.toList.flatMap escape) ++ "\""

end TreeQuery.Json
