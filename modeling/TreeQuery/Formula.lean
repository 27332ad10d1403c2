import TreeQuery.Text.Blank
import TreeQuery.Text.Decimal

/-!
# Positional formulas

A formula `An+B` selects the positions `A * k + B` for the whole numbers `k` from zero on. Positions
count from one. Both coefficients have 32 bits, and the test computes with 64, where no step of it
can overflow.
-/

namespace TreeQuery

/-- The formula `step * n + offset`. A step of zero selects the offset alone. -/
structure Formula where
  step : Int32
  offset : Int32
  deriving DecidableEq, Repr, Inhabited

namespace Formula

open Text

/-- Whether a position is selected: the distance from the offset is a multiple of the step, and a
multiple in the direction of the step. -/
def selects (f : Formula) (position : Int32) : Bool :=
  let distance := position.toInt64 - f.offset.toInt64
  let step := f.step.toInt64
  if step == 0 then distance == 0
  else distance % step == 0 && 0 ≤ distance / step

/-- Whether any position from one on is selected. -/
def isSatisfiable (f : Formula) : Bool := 0 < f.step || 1 ≤ f.offset

/-! ## Reading -/

/-- The coefficient in front of `n`: a number, a sign alone for plus or minus one, or nothing for
one. -/
def step? : List Char → Option Int32
  | [] => some 1
  | ['+'] => some 1
  | ['-'] => some (-1)
  | s => int32? s

/-- The summand after `n`: nothing for zero, else a sign and the digits, with blanks around the
sign. -/
def offset? (s : List Char) : Option Int32 :=
  match skipBlank s with
  | [] => some 0
  | sign :: s => do
    let size ← (digits? (skipBlank s)).filter (· < int32Bound)
    if sign == '+' then some (Int32.ofNat size)
    else if sign == '-' then some (-Int32.ofNat size)
    else none

/-- Reads a formula: `odd`, `even`, `B` or `An+B`, in letters of either case, with blanks around
it. -/
def read? (text : List Char) : Option Formula :=
  match (trim text).map Char.toLower with
  | ['o', 'd', 'd'] => some ⟨2, 1⟩
  | ['e', 'v', 'e', 'n'] => some ⟨2, 0⟩
  | s => match s.dropWhile (· != 'n') with
    | [] => (int32? s).map (⟨0, ·⟩)
    | _ :: tail => do
      let step ← step? (s.takeWhile (· != 'n'))
      let offset ← offset? tail
      some ⟨step, offset⟩

end Formula
end TreeQuery
