import TreeQuery.Text.CaseTables

/-!
# Small letters of a text

The full mapping of Unicode to small letters. It works on whole texts, because one letter depends
on its neighbours: a capital sigma at the end of a word becomes the final small sigma.
-/

namespace TreeQuery.Text

/-- The characters with the Unicode property `Cased`. -/
def isCased (c : Char) : Bool := inRanges casedRanges c.toNat

/-- The characters with the Unicode property `Case_Ignorable`. -/
def isCaseIgnorable (c : Char) : Bool := inRanges caseIgnorableRanges c.toNat

/-- The small letters of one character, without regard to its neighbours. The dotted capital I is
the one character whose mapping has two characters. -/
def lowerChar (c : Char) : List Char :=
  let n := c.toNat
  if n < 0x80 then [c.toLower]
  else if n == 0x130 then ['i', '\u0307']
  else match capitalRuns.find? (·.contains n) with
    | some run => [Char.ofNat (n + run.shift).toNat]
    | none => [c]

/-- Whether the first character that is not ignored for case is a cased one. -/
def meetsCased (s : List Char) : Bool :=
  ((s.dropWhile isCaseIgnorable).head?.map isCased).getD false

/-- The small letters of the text `s`, where `before` is what precedes it, in reverse order. A
capital sigma is final when a cased character precedes it and none follows it. -/
def lowerFrom (before : List Char) : List Char → List Char
  | [] => []
  | c :: s =>
    let small :=
      if c == 'Σ' then [if meetsCased before && !meetsCased s then 'ς' else 'σ'] else lowerChar c
    small ++ lowerFrom (c :: before) s

/-- The text in small letters. -/
def lowercase (s : String) : String := String.ofList (lowerFrom [] s.toList)

end TreeQuery.Text
