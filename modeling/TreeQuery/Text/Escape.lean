/-!
# Escapes and quoted strings

A backslash stands for the character after it, whatever that is. A quoted string is a text between
two equal quotes. `quote` writes what `quoted?` and `unquote` read.
-/

namespace TreeQuery.Text

/-- The text with every escape replaced by the character that it stands for. A backslash at the end
stands for nothing. -/
def unescape : List Char → List Char
  | [] => []
  | ['\\'] => []
  | '\\' :: c :: s => c :: unescape s
  | c :: s => c :: unescape s

/-- Reads up to the closing quote: the content with its escapes resolved, and the text after the
quote. -/
def closeQuote? (mark : Char) : List Char → Option (List Char × List Char)
  | [] => none
  | ['\\'] => none
  | '\\' :: c :: s => (closeQuote? mark s).map fun r => (c :: r.1, r.2)
  | c :: s =>
    if c == mark then some ([], s) else (closeQuote? mark s).map fun r => (c :: r.1, r.2)

/-- The two characters that open a quoted string. -/
def isQuote (c : Char) : Bool := c == '"' || c == '\''

/-- Reads a quoted string: its content, and the text after it. -/
def quoted? : List Char → Option (List Char × List Char)
  | [] => none
  | c :: s => if isQuote c then closeQuote? c s else none

/-- The content of a quoted string that fills the whole text; of any other text, the text with its
escapes resolved. -/
def unquote (s : List Char) : List Char :=
  match quoted? s with
  | some (content, []) => content
  | _ => unescape s

/-- The text with a backslash before each double quote and each backslash. -/
def escape : List Char → List Char
  | [] => []
  | c :: s => if c == '"' || c == '\\' then '\\' :: c :: escape s else c :: escape s

/-- The text as a string in double quotes. -/
def quote (s : List Char) : List Char := '"' :: escape s ++ ['"']

/-- A quoted string is longer than what follows it. -/
theorem length_closeQuote?_lt {mark : Char} {s content rest : List Char}
    (h : closeQuote? mark s = some (content, rest)) : rest.length < s.length := by
  fun_induction closeQuote? mark s generalizing content with
  | case1 => simp at h
  | case2 => simp at h
  | case3 c s ih =>
    obtain ⟨r, hr, he⟩ := Option.map_eq_some_iff.1 h
    cases he
    have := ih hr
    simp only [List.length_cons]
    omega
  | case4 c s hc => cases h; simp
  | case5 c s _ _ hc ih =>
    obtain ⟨r, hr, he⟩ := Option.map_eq_some_iff.1 h
    cases he
    have := ih hr
    simp only [List.length_cons]
    omega

/-- Reading a quoted string consumes something. -/
theorem length_quoted?_lt {s content rest : List Char} (h : quoted? s = some (content, rest)) :
    rest.length < s.length := by
  cases s with
  | nil => simp [quoted?] at h
  | cons c s =>
    simp only [quoted?] at h
    split at h
    · have := length_closeQuote?_lt h
      simp only [List.length_cons]
      omega
    · simp at h

end TreeQuery.Text
