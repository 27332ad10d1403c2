/-!
# Blank characters and words

The tokens of a selector are separated by the characters of the Unicode property `White_Space`.
The word lists inside attribute values are separated by five ASCII characters only. Text is read as
a list of characters, so every cut below is a cut between characters.
-/

namespace TreeQuery.Text

/-- The characters with the Unicode property `White_Space`. -/
def isBlank (c : Char) : Bool :=
  let n := c.toNat
  (9 ≤ n && n ≤ 13) || n == 32 || n == 0x85 || n == 0xA0 || n == 0x1680
    || (0x2000 ≤ n && n ≤ 0x200A) || n == 0x2028 || n == 0x2029 || n == 0x202F || n == 0x205F
    || n == 0x3000

/-- The text after its leading blanks. -/
def skipBlank (s : List Char) : List Char := s.dropWhile isBlank

/-- The text without the blanks at its two ends. -/
def trim (s : List Char) : List Char := ((skipBlank s).reverse.dropWhile isBlank).reverse

/-- Skipping blanks never lengthens a text. -/
theorem length_skipBlank_le (s : List Char) : (skipBlank s).length ≤ s.length := by
  unfold skipBlank
  exact (List.dropWhile_sublist _).length_le

/-! ## Pieces and words -/

/-- The pieces of a text between the characters that `sep` accepts: one more piece than
separators, and empty pieces are kept. -/
def pieces (sep : Char → Bool) : List Char → List (List Char)
  | [] => [[]]
  | c :: s => if sep c then [] :: pieces sep s else (pieces sep s).modifyHead (c :: ·)

/-- The five characters that separate the words of an attribute value: tab, line feed, form feed,
carriage return and space. -/
def isWordBreak (c : Char) : Bool :=
  c == '\t' || c == '\n' || c == '\x0c' || c == '\r' || c == ' '

/-- The words of an attribute value, in order. -/
def words (s : List Char) : List (List Char) :=
  (pieces isWordBreak s).filter (! ·.isEmpty)

end TreeQuery.Text
