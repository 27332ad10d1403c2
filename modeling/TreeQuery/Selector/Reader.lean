import TreeQuery.Selector.Reader.Part

/-!
# Reading selector lists

A branch is a chain of parts up to a comma or the end. A list is read branch by branch, without the
dead ones.

Lists nest, in the arguments of pseudo-classes and in containments. The readers of one level take
the reader of the next level as an argument, and `readAt` stacks a given number of levels. Each
nested list is opened by a bracket or a dollar sign, so `Selector.read` needs no more levels than
its text has of these, and one.
-/

namespace TreeQuery
namespace Reader

open Text

/-! ## Branches -/

/-- Whether a branch ends here. -/
def isBranchEnd : List Char → Bool
  | [] => true
  | c :: _ => c == ','

/-- Reads the relation of a part to the one before it. A first part needs none, and between parts a
blank is one. -/
def readCombinator (first spaced : Bool) (s : List Char) : Reading (Option Combinator) :=
  match (s.head?.bind Combinator.ofChar?) with
  | some combinator =>
    let rest := skipBlank (s.drop 1)
    if isBranchEnd rest then .fatal (.malformed .danglingCombinator) else .done (some combinator) rest
  | none =>
    if first then .done none s
    else if spaced then .done (some .descendant) s
    else .fatal (.malformed (.atStartOf s))

theorem leaves_readCombinator (first spaced : Bool) (s : List Char) :
    (readCombinator first spaced s).Leaves (s.length + 1) (s.length + 1) := by
  have h := length_skipBlank_le (s.drop 1)
  rw [List.length_drop] at h
  unfold readCombinator
  split
  · dsimp only
    split
    · trivial
    · simp only [Reading.Leaves]; omega
  · split
    · exact Nat.lt_succ_self _
    · split
      · exact Nat.lt_succ_self _
      · trivial

/-- Reads one part with its combinator. -/
def readLinkedPart (parser : Parser) (nested : ListReader) (first spaced : Bool)
    (s : List Char) : Reading Part :=
  (readCombinator first spaced s).andThen (readPart parser nested)

theorem leaves_readLinkedPart (parser : Parser) (nested : ListReader) (first spaced : Bool)
    (s : List Char) :
    (readLinkedPart parser nested first spaced s).Leaves s.length (s.length + 1) :=
  (leaves_readCombinator first spaced s).andThen fun combinator rest hrest =>
    (leaves_readPart parser nested combinator rest).mono (by omega) (by omega)

/-- Reads the parts of a branch up to its end. -/
def readParts (parser : Parser) (nested : ListReader) (first : Bool) (s : List Char) :
    Reading (List Part) :=
  if isBranchEnd (skipBlank s) then .done [] (skipBlank s)
  else
    match h : readLinkedPart parser nested first ((skipBlank s).length < s.length)
      (skipBlank s) with
    | .dead rest => .dead rest
    | .fatal error => .fatal error
    | .done part rest =>
      have : rest.length < s.length := by
        have h1 := leaves_readLinkedPart parser nested first
          ((skipBlank s).length < s.length) (skipBlank s)
        rw [h] at h1
        exact Nat.lt_of_lt_of_le h1 (length_skipBlank_le s)
      (readParts parser nested false rest).map (part :: ·)
termination_by s.length

/-- The parts of a branch are the first one and those after it, up to the end of the branch. -/
theorem readParts_eq (parser : Parser) (nested : ListReader) (first : Bool) (s : List Char) :
    readParts parser nested first s =
      if isBranchEnd (skipBlank s) then .done [] (skipBlank s)
      else
        (readLinkedPart parser nested first ((skipBlank s).length < s.length)
          (skipBlank s)).andThen fun part rest =>
            (readParts parser nested false rest).map (part :: ·) := by
  rw [readParts]
  split
  · rfl
  · split <;> simp_all [Reading.andThen]

theorem leaves_readParts (parser : Parser) (nested : ListReader) (first : Bool)
    (s : List Char) : (readParts parser nested first s).Leaves (s.length + 1) (s.length + 1) := by
  fun_induction readParts parser nested first s with
  | case1 => exact Nat.lt_succ_of_le (length_skipBlank_le _)
  | case2 first s _ rest h =>
    have h1 := leaves_readLinkedPart parser nested first ((skipBlank s).length < s.length)
      (skipBlank s)
    rw [h] at h1
    exact Nat.lt_of_lt_of_le h1 (Nat.succ_le_succ (length_skipBlank_le s))
  | case3 => trivial
  | case4 first s _ part rest h hlt ih => exact ih.map.mono (by omega) (by omega)

/-- Reads one branch of a list: its selector, or nothing when it is dead, and the text from its end
on. -/
def readBranch (parser : Parser) (nested : ListReader) (s : List Char) :
    Except (ReadError SyntaxCause) (Option Selector × List Char) :=
  if isBranchEnd (skipBlank s) then .error (.malformed .emptySelector)
  else match readParts parser nested true (skipBlank s) with
    | .done parts rest => .ok (some ⟨parts⟩, rest)
    | .dead rest => .ok (none, (branchSpan rest).2)
    | .fatal error => .error error

theorem length_readBranch_le {parser : Parser} {nested : ListReader} {s rest : List Char}
    {selector? : Option Selector}
    (h : readBranch parser nested s = .ok (selector?, rest)) : rest.length ≤ s.length := by
  have h0 := length_skipBlank_le s
  have h1 := leaves_readParts parser nested true (skipBlank s)
  unfold readBranch at h
  split at h
  · simp at h
  · split at h
    · next parts r hr =>
      cases h
      rw [hr] at h1
      simp only [Reading.Leaves] at h1
      omega
    · next r hr =>
      cases h
      rw [hr] at h1
      have := length_branchSpan_le r
      simp only [Reading.Leaves] at h1
      omega
    · simp at h

/-! ## Lists -/

/-- Reads the branches of a list. -/
def readBranches (parser : Parser) (nested : ListReader) (s : List Char) :
    Except (ReadError SyntaxCause) (List Selector) :=
  match h : readBranch parser nested s with
  | .error error => .error error
  | .ok (selector?, rest) =>
    match hs : skipBlank rest with
    | [] => .ok selector?.toList
    | c :: more =>
      if c == ',' then
        have : more.length < s.length := by
          have h1 := length_readBranch_le h
          have h2 := length_skipBlank_le rest
          rw [hs, List.length_cons] at h2
          omega
        (readBranches parser nested more).map (selector?.toList ++ ·)
      else .error (.malformed (.unexpectedCharacter c))
termination_by s.length

/-- The branches of a list are the first one and, after a comma, those that follow. -/
theorem readBranches_eq (parser : Parser) (nested : ListReader) (s : List Char) :
    readBranches parser nested s =
      match readBranch parser nested s with
      | .error error => .error error
      | .ok (selector?, rest) =>
        match skipBlank rest with
        | [] => .ok selector?.toList
        | c :: more =>
          if c == ',' then (readBranches parser nested more).map (selector?.toList ++ ·)
          else .error (.malformed (.unexpectedCharacter c)) := by
  rw [readBranches]
  split
  · simp_all
  · next h =>
    simp only [h]
    split <;> simp_all

/-- Reads one level of selector lists. A blank text is the list without branches. -/
def readList (parser : Parser) (nested : ListReader) (s : List Char) :
    Except (ReadError SyntaxCause) (List Selector) :=
  match trim s with
  | [] => .ok []
  | t => readBranches parser nested t

/-- Reads selector lists nested up to `levels` deep. -/
def readAt (parser : Parser) : Nat → ListReader
  | 0 => fun _ => .ok []
  | levels + 1 => readList parser (readAt parser levels)

/-- The number of characters in a text that can open a nested list. -/
def openers (s : List Char) : Nat := s.countP fun c => c == '(' || c == '$'

end Reader

/-- Reads a selector list. -/
def Selector.read (parser : Parser) (text : String) :
    Except (ReadError SyntaxError) (List Selector) :=
  match Reader.readAt parser (Reader.openers text.toList + 1) text.toList with
  | .ok list => .ok list
  | .error error => .error (error.map (⟨·, text⟩))

end TreeQuery
