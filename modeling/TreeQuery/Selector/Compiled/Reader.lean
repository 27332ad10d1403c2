import TreeQuery.Selector.Compiled.Draft
import TreeQuery.Selector.Reader

/-!
# Reading compiled selectors

A reader that compiles while it reads. It asks the profile at every condition, and at every nested list,
of which the compiled branches decide what the host supports. Names, attribute conditions and the extent of
arguments are read as for plain selectors.
-/

namespace TreeQuery.Compiled

open Text

/-- A reader of the compiled lists one level further in. -/
abbrev ListReader := List Char → Except (ReadError SyntaxCause) (List Branch)

/-! ## Conditions -/

/-- An argument without a selector list. -/
def Argument.plain : TreeQuery.Argument → Argument
  | .none => .none
  | .text content => .text content
  | .formula f => .formula f
  | .nested _ => .nested []
  | .relative f => .relative f .empty
  | .linkDepth depth => .linkDepth depth

/-- A condition without a selector list. -/
def Clause.plain : TreeQuery.Clause → Clause
  | .id name => .id name
  | .hasClass name => .hasClass name
  | .attribute name comparator operand ignoreCase => .attribute name comparator operand ignoreCase
  | .pseudo ⟨kind, hasGetter, written, argument⟩ =>
    .pseudo hasGetter written ⟨kind, 1, .plain argument⟩

/-- Reads the argument of a pseudo-class. The text between its parentheses is `inner?`, and `rest` is the
text after them. -/
def readArgument (nested : ListReader) (entry : Entry) (inner? : Option (List Char))
    (rest : List Char) : Reading Pseudo :=
  match entry.grammar with
  | .nested => match trim (inner?.getD []) with
    | [] => .fatal (.malformed (.missingArgument entry.pseudo))
    | s => match nested s with
      | .ok list => .done ⟨entry.pseudo, listTier list, .nested list⟩ rest
      | .error error => .fatal error
  | _ => (Reader.readArgument (fun _ => .ok []) entry inner? rest).map fun argument =>
    ⟨entry.pseudo, 1, .plain argument⟩

/-- Reads a pseudo-class after its colon. -/
def readPseudo (parser : Parser) (nested : ListReader) (s : List Char) : Reading Clause :=
  match ident? s with
  | none => .fatal (.malformed .invalidPseudo)
  | some (name, s) => (Reader.readGroup s).andThen fun inner? rest =>
    match parser.registry.lookup name.value with
    | none => .fatal (.malformed (.unknownPseudo name.value))
    | some entry => (readArgument nested entry inner? rest).map
      (.pseudo entry.hasGetter (Reader.writtenArgument inner?))

/-- Reads one condition, if the text starts with one. An id condition after another one makes the branch
dead. -/
def readClause? (parser : Parser) (nested : ListReader) (hasId : Bool) :
    List Char → Option (Reading Clause)
  | '#' :: s => some (if hasId then .dead ('#' :: s) else (Reader.readId s).map .plain)
  | '.' :: s => some ((Reader.readClass s).map .plain)
  | '[' :: s => some ((Reader.readAttribute s).map .plain)
  | ':' :: s => some (readPseudo parser nested s)
  | _ => none

theorem leaves_readArgument (nested : ListReader) (entry : Entry) (inner? : Option (List Char))
    (rest : List Char) :
    (readArgument nested entry inner? rest).Leaves (rest.length + 1) (rest.length + 1) := by
  unfold readArgument
  split
  · split
    · trivial
    · split
      · exact Nat.lt_succ_self _
      · trivial
  · exact (Reader.leaves_readArgument _ entry inner? rest).map

theorem leaves_readPseudo (parser : Parser) (nested : ListReader) (s : List Char) :
    (readPseudo parser nested s).Leaves s.length s.length := by
  unfold readPseudo
  split
  · trivial
  · next name t h =>
    have h := length_ident?_lt h
    refine ((Reader.leaves_readGroup t).mono h h).andThen fun inner? rest hrest => ?_
    split
    · trivial
    · exact ((leaves_readArgument nested _ inner? rest).mono hrest hrest).map

theorem leaves_readClause? {parser : Parser} {nested : ListReader} {hasId : Bool}
    {s : List Char} {r : Reading Clause} (h : readClause? parser nested hasId s = some r) :
    r.Leaves s.length (s.length + 1) := by
  unfold readClause? at h
  split at h
  · cases h
    split
    · exact Nat.lt_succ_self _
    · exact (Reader.leaves_readId _).map.mono (by simp) (by simp; omega)
  · cases h; exact (Reader.leaves_readClass _).map.mono (by simp) (by simp; omega)
  · cases h; exact (Reader.leaves_readAttribute _).map.mono (by simp) (by simp; omega)
  · cases h; exact (leaves_readPseudo parser nested _).mono (by simp) (by simp; omega)
  · simp at h

/-! ## Parts -/

/-- Reads the conditions of a part and adds them to the draft. -/
def readClauses (parser : Parser) (nested : ListReader) (d : Draft)
    (s : List Char) : Reading Draft :=
  match h : readClause? parser nested d.part.id.isSome s with
  | none => .done d s
  | some (.dead rest) => .dead rest
  | some (.fatal error) => .fatal error
  | some (.done clause rest) =>
    have : rest.length < s.length := leaves_readClause? h
    match d.add? parser.profile clause with
    | none => .fatal .overflow
    | some d => readClauses parser nested d rest
termination_by s.length

/-- Reads what follows a subject up to the end of the branch. Of a list that is dead as a whole nothing
can be found inside any element. -/
def readContainment (p : Profile) (nested : ListReader) (d : Draft) (s : List Char) : Reading Draft :=
  let branch := branchSpan s
  if (trim branch.1).isEmpty then .done d branch.2
  else match nested branch.1 with
    | .error error => .fatal error
    | .ok [] => .dead branch.2
    | .ok (inner :: _) => .done (d.contain p (some inner)) branch.2

/-- Ends the part that is being read, if its lookups can be counted with its classes. -/
def endPart (p : Profile) (d : Draft) (rest : List Char) : Reading Draft :=
  match d.endPart? p with
  | none => .fatal .overflow
  | some d => .done d rest

/-- Reads one part, which has at least one character. -/
def readPart (parser : Parser) (nested : ListReader) (d : Draft)
    (combinator : Option Combinator) (s : List Char) : Reading Draft :=
  let mark := Reader.subjectMark s
  let tag := Reader.readTag mark.2
  let start := d.begin parser.profile combinator mark.1 tag.1
  (readClauses parser nested start tag.2).andThen fun d rest =>
    if mark.1 then (readContainment parser.profile nested d rest).andThen (endPart parser.profile)
    else if rest.length < s.length then endPart parser.profile d rest
    else .fatal (.malformed (.atStartOf s))

/-- Reads one part with its combinator. -/
def readLinkedPart (parser : Parser) (nested : ListReader) (d : Draft)
    (spaced : Bool) (s : List Char) : Reading Draft :=
  (Reader.readCombinator d.parts.isEmpty spaced s).andThen (readPart parser nested d)

/-- The conditions of a part are the first one and those after it, as long as one follows. -/
theorem readClauses_eq (parser : Parser) (nested : ListReader) (d : Draft)
    (s : List Char) :
    readClauses parser nested d s =
      match readClause? parser nested d.part.id.isSome s with
      | none => .done d s
      | some first => first.andThen fun clause rest =>
        match d.add? parser.profile clause with
        | none => .fatal .overflow
        | some d => readClauses parser nested d rest := by
  rw [readClauses]
  split <;> simp_all [Reading.andThen]

theorem leaves_readClauses (parser : Parser) (nested : ListReader) (d : Draft)
    (s : List Char) :
    (readClauses parser nested d s).Leaves (s.length + 1) (s.length + 1) := by
  fun_induction readClauses parser nested d s with
  | case1 => exact Nat.lt_succ_self _
  | case2 _ _ rest h => exact leaves_readClause? h
  | case3 => trivial
  | case4 => trivial
  | case5 _ _ clause rest h hlt _ _ ih => exact ih.mono (by omega) (by omega)

theorem leaves_endPart (p : Profile) (d : Draft) (rest : List Char) :
    (endPart p d rest).Leaves (rest.length + 1) (rest.length + 1) := by
  unfold endPart
  split
  · trivial
  · exact Nat.lt_succ_self _

theorem leaves_readContainment (p : Profile) (nested : ListReader) (d : Draft) (s : List Char) :
    (readContainment p nested d s).Leaves (s.length + 1) (s.length + 1) := by
  have h := length_branchSpan_le s
  unfold readContainment
  dsimp only
  split
  · exact Nat.lt_succ_of_le h
  · split
    · trivial
    · exact Nat.lt_succ_of_le h
    · exact Nat.lt_succ_of_le h

theorem leaves_readPart (parser : Parser) (nested : ListReader) (d : Draft)
    (combinator : Option Combinator) (s : List Char) :
    (readPart parser nested d combinator s).Leaves s.length (s.length + 1) := by
  have h1 := Reader.length_subjectMark_le s
  have h2 := Reader.length_readTag_le (Reader.subjectMark s).2
  unfold readPart
  dsimp only
  refine ((leaves_readClauses parser nested _ _).mono (Nat.le_refl _)
    (by omega)).andThen fun d rest hrest => ?_
  split
  · next hs =>
    have := Reader.length_subjectMark_lt hs
    exact ((leaves_readContainment parser.profile nested d rest).mono (Nat.le_refl _)
      (by omega)).andThen fun d rest hlt => (leaves_endPart _ d rest).mono (by omega) (by omega)
  · split
    · next hlt => exact (leaves_endPart _ d rest).mono (by omega) (by omega)
    · trivial

theorem leaves_readLinkedPart (parser : Parser) (nested : ListReader) (d : Draft)
    (spaced : Bool) (s : List Char) :
    (readLinkedPart parser nested d spaced s).Leaves s.length (s.length + 1) :=
  (Reader.leaves_readCombinator d.parts.isEmpty spaced s).andThen fun combinator rest hrest =>
    (leaves_readPart parser nested d combinator rest).mono (by omega) (by omega)

/-! ## Branches and lists -/

/-- Reads the parts of a branch up to its end and adds them to the draft. -/
def readParts (parser : Parser) (nested : ListReader) (d : Draft)
    (s : List Char) : Reading Draft :=
  if Reader.isBranchEnd (skipBlank s) then .done d (skipBlank s)
  else
    match h : readLinkedPart parser nested d ((skipBlank s).length < s.length) (skipBlank s) with
    | .dead rest => .dead rest
    | .fatal error => .fatal error
    | .done d' rest =>
      have : rest.length < s.length := by
        have h1 := leaves_readLinkedPart parser nested d ((skipBlank s).length < s.length)
          (skipBlank s)
        rw [h] at h1
        exact Nat.lt_of_lt_of_le h1 (length_skipBlank_le s)
      readParts parser nested d' rest
termination_by s.length

/-- The parts of a branch are the first one and those after it, up to the end of the branch. -/
theorem readParts_eq (parser : Parser) (nested : ListReader) (d : Draft)
    (s : List Char) :
    readParts parser nested d s =
      if Reader.isBranchEnd (skipBlank s) then .done d (skipBlank s)
      else
        (readLinkedPart parser nested d ((skipBlank s).length < s.length)
          (skipBlank s)).andThen (readParts parser nested) := by
  rw [readParts]
  split
  · rfl
  · split <;> simp_all [Reading.andThen]

theorem leaves_readParts (parser : Parser) (nested : ListReader) (d : Draft)
    (s : List Char) : (readParts parser nested d s).Leaves (s.length + 1) (s.length + 1) := by
  fun_induction readParts parser nested d s with
  | case1 => exact Nat.lt_succ_of_le (length_skipBlank_le _)
  | case2 d s _ rest h =>
    have h1 := leaves_readLinkedPart parser nested d ((skipBlank s).length < s.length)
      (skipBlank s)
    rw [h] at h1
    exact Nat.lt_of_lt_of_le h1 (Nat.succ_le_succ (length_skipBlank_le s))
  | case3 => trivial
  | case4 d s _ d' rest h hlt ih => exact ih.mono (by omega) (by omega)

/-- Reads one branch of a list: its compiled form, or nothing when it is dead, and the text from its end
on. -/
def readBranch (parser : Parser) (nested : ListReader) (s : List Char) :
    Except (ReadError SyntaxCause) (Option Branch × List Char) :=
  if Reader.isBranchEnd (skipBlank s) then .error (.malformed .emptySelector)
  else match readParts parser nested .start (skipBlank s) with
    | .done d rest => .ok (some d.branch, rest)
    | .dead rest => .ok (none, (branchSpan rest).2)
    | .fatal error => .error error

theorem length_readBranch_le {parser : Parser} {nested : ListReader}
    {s rest : List Char} {branch? : Option Branch}
    (h : readBranch parser nested s = .ok (branch?, rest)) : rest.length ≤ s.length := by
  have h0 := length_skipBlank_le s
  have h1 := leaves_readParts parser nested .start (skipBlank s)
  unfold readBranch at h
  split at h
  · simp at h
  · split at h
    · next d r hr =>
      cases h
      rw [hr] at h1
      simp only [Reading.Leaves] at h1
      omega
    · next r hr =>
      cases h
      rw [hr] at h1
      have := length_branchSpan_le r
      simp only [Reading.Leaves] at h1
      omega
    · simp at h

/-- Reads the branches of a list. -/
def readBranches (parser : Parser) (nested : ListReader) (s : List Char) :
    Except (ReadError SyntaxCause) (List Branch) :=
  match h : readBranch parser nested s with
  | .error error => .error error
  | .ok (branch?, rest) =>
    match hs : skipBlank rest with
    | [] => .ok branch?.toList
    | c :: more =>
      if c == ',' then
        have : more.length < s.length := by
          have h1 := length_readBranch_le h
          have h2 := length_skipBlank_le rest
          rw [hs, List.length_cons] at h2
          omega
        (readBranches parser nested more).map (branch?.toList ++ ·)
      else .error (.malformed (.unexpectedCharacter c))
termination_by s.length

/-- The branches of a list are the first one and, after a comma, those that follow. -/
theorem readBranches_eq (parser : Parser) (nested : ListReader) (s : List Char) :
    readBranches parser nested s =
      match readBranch parser nested s with
      | .error error => .error error
      | .ok (branch?, rest) =>
        match skipBlank rest with
        | [] => .ok branch?.toList
        | c :: more =>
          if c == ',' then (readBranches parser nested more).map (branch?.toList ++ ·)
          else .error (.malformed (.unexpectedCharacter c)) := by
  rw [readBranches]
  split
  · simp_all
  · next h =>
    simp only [h]
    split <;> simp_all

/-- Reads one level of selector lists. A blank text is the list without branches. -/
def readList (parser : Parser) (nested : ListReader) (s : List Char) :
    Except (ReadError SyntaxCause) (List Branch) :=
  match trim s with
  | [] => .ok []
  | t => readBranches parser nested t

/-- Reads selector lists nested up to `levels` deep. -/
def readAt (parser : Parser) : Nat → ListReader
  | 0 => fun _ => .ok []
  | levels + 1 => readList parser (readAt parser levels)

/-- Reads and compiles a selector list. -/
def read (parser : Parser) (text : String) : Except (ReadError SyntaxError) (List Branch) :=
  match readAt parser (Reader.openers text.toList + 1) text.toList with
  | .ok list => .ok list
  | .error error => .error (error.map (⟨·, text⟩))

end TreeQuery.Compiled
