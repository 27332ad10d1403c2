/-!
# Decimal numbers of a limited range

Readers for whole numbers in decimal digits. A number outside its range is refused, never reduced.
-/

namespace TreeQuery.Text

/-- The value of one decimal digit. -/
def digit? (c : Char) : Option Nat :=
  if '0' ≤ c && c ≤ '9' then some (c.toNat - '0'.toNat) else none

/-- Continues a number with further digits, the most significant first. -/
def digitsFrom (value : Nat) : List Char → Option Nat
  | [] => some value
  | c :: s => match digit? c with
    | some d => digitsFrom (10 * value + d) s
    | none => none

/-- Reads a text of one or more digits. -/
def digits? : List Char → Option Nat
  | [] => none
  | s@(_ :: _) => digitsFrom 0 s

/-- Reads a number below `bound`, with an optional plus sign. -/
def natBelow? (bound : Nat) (s : List Char) : Option Nat :=
  (digits? (match s with | '+' :: r => r | _ => s)).filter (· < bound)

/-- The first number that is too large for 32 bits with a sign. Its negative is not. -/
def int32Bound : Nat := 2147483648

/-- Reads a number of 32 bits, with an optional sign. -/
def int32? (s : List Char) : Option Int32 :=
  match s with
  | '-' :: r => ((digits? r).filter (· ≤ int32Bound)).map fun n => Int32.ofInt (-n)
  | '+' :: r => ((digits? r).filter (· < int32Bound)).map fun n => Int32.ofInt n
  | _ => ((digits? s).filter (· < int32Bound)).map fun n => Int32.ofInt n

end TreeQuery.Text
