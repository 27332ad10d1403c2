import TreeQuery.Text.Escape

/-!
# Nesting of brackets

Where an argument in parentheses ends, and where a branch of a comma list ends, is found by one scan
of the text. It counts the open round and square brackets, without telling them apart, and passes
over quoted strings and escaped characters.
-/

namespace TreeQuery.Text

/-- How deep a scan is: the open brackets, the open quote, and whether the next character is
escaped. -/
structure Nesting where
  depth : Nat
  mark : Option Char
  escaped : Bool
  deriving DecidableEq, Repr

namespace Nesting

/-- Outside every bracket and quote. -/
def start : Nesting := ⟨0, none, false⟩

/-- The nesting after one more character. A closing bracket without an open one is passed over. -/
def step (n : Nesting) (c : Char) : Nesting :=
  if n.escaped then { n with escaped := false }
  else if c == '\\' then { n with escaped := true }
  else match n.mark with
    | some mark => if c == mark then { n with mark := none } else n
    | none =>
      if isQuote c then { n with mark := some c }
      else if c == '(' || c == '[' then { n with depth := n.depth + 1 }
      else if c == ')' || c == ']' then { n with depth := n.depth - 1 }
      else n

/-- Outside every bracket and quote, with no escape pending. -/
def isOutside (n : Nesting) : Bool := n.depth == 0 && n.mark.isNone && !n.escaped

end Nesting

/-- The text before the first `stop` that stands outside every bracket and quote, and the text from
that character on. -/
def scan? (stop : Char) (n : Nesting) : List Char → Option (List Char × List Char)
  | [] => none
  | c :: s =>
    if n.isOutside && c == stop then some ([], c :: s)
    else (scan? stop (n.step c) s).map fun r => (c :: r.1, r.2)

/-- A scan cuts the text into two halves. -/
theorem append_of_scan? {stop : Char} {n : Nesting} {s before rest : List Char}
    (h : scan? stop n s = some (before, rest)) : before ++ rest = s := by
  induction s generalizing n before with
  | nil => simp [scan?] at h
  | cons c s ih =>
    simp only [scan?] at h
    split at h
    · cases h; rfl
    · obtain ⟨r, hr, he⟩ := Option.map_eq_some_iff.1 h
      cases he
      simp [ih hr]

/-- Reads an argument in parentheses: the text between them, and the text after them. -/
def group? : List Char → Option (List Char × List Char)
  | '(' :: s => (scan? ')' .start s).map fun r => (r.1, r.2.drop 1)
  | _ => none

/-- Cuts a text before its first comma outside every bracket and quote, or at its end. -/
def branchSpan (s : List Char) : List Char × List Char := (scan? ',' .start s).getD (s, [])

/-- The two halves of the cut make up the text. -/
theorem branchSpan_append (s : List Char) : (branchSpan s).1 ++ (branchSpan s).2 = s := by
  unfold branchSpan
  cases h : scan? ',' .start s with
  | none => simp
  | some r => simpa using append_of_scan? h

/-- What follows a branch is no longer than the text. -/
theorem length_branchSpan_le (s : List Char) : (branchSpan s).2.length ≤ s.length := by
  have := congrArg List.length (branchSpan_append s)
  rw [List.length_append] at this
  omega

/-- Reading an argument in parentheses consumes something. -/
theorem length_group?_lt {s inner rest : List Char} (h : group? s = some (inner, rest)) :
    rest.length < s.length := by
  unfold group? at h
  split at h
  · next t =>
    obtain ⟨r, hr, he⟩ := Option.map_eq_some_iff.1 h
    cases he
    have := congrArg List.length (append_of_scan? hr)
    rw [List.length_append] at this
    simp only [List.length_drop, List.length_cons]
    omega
  · simp at h

end TreeQuery.Text
