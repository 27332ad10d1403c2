/-!
# Letters without case

Names of elements and of pseudo-classes, language codes and directions are compared without regard
to the case of the ASCII letters. Every other character counts as it is.
-/

namespace TreeQuery.Text

/-- The text with its ASCII capital letters made small. -/
def foldAscii (s : String) : String := String.ofList (s.toList.map Char.toLower)

/-- Two texts that differ at most in the case of ASCII letters. -/
def sameLetters (a b : String) : Bool := foldAscii a == foldAscii b

/-- Removes a leading text from another, without regard to the case of ASCII letters. -/
def dropLetters? : List Char → List Char → Option (List Char)
  | [], s => some s
  | _ :: _, [] => none
  | a :: lead, c :: s => if a.toLower == c.toLower then dropLetters? lead s else none

end TreeQuery.Text
