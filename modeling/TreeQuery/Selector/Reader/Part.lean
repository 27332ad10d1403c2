import TreeQuery.Selector.Native
import TreeQuery.Selector.Reader.Clause

/-!
# Reading parts

A part is a name and conditions without blanks between them. A part that is marked as the subject
takes the rest of its branch as its containment.

The name and the conditions that a lookup could serve are counted while they are read, and the classes
at the end of the part. The counter has eight bits: reading fails as soon as it would go past 255.
-/

namespace TreeQuery.Reader

open Text

/-- What is known of a part while its conditions are read. -/
structure Tally where
  /-- Whether the part has an id. -/
  hasId : Bool
  /-- How many of its conditions a lookup could serve, the name counted in. -/
  lookups : Nat
  deriving DecidableEq, Repr

/-- The tally behind the name of a part. -/
def Tally.start (tag : Option Ident) : Tally := ⟨false, tag.toList.length⟩

/-- Counts one more condition, if the number fits into eight bits. -/
def Tally.add? (tally : Tally) (clause : Clause) : Option Tally :=
  if tally.lookups + clause.isLookup.toNat < UInt8.size then
    some ⟨tally.hasId || clause.id?.isSome, tally.lookups + clause.isLookup.toNat⟩
  else none

/-- Reads the conditions of a part. -/
def readClauses (parser : Parser) (nested : ListReader) (tally : Tally) (s : List Char) :
    Reading (List Clause) :=
  match h : readClause? parser nested tally.hasId s with
  | none => .done [] s
  | some (.dead rest) => .dead rest
  | some (.fatal error) => .fatal error
  | some (.done clause rest) =>
    have : rest.length < s.length := leaves_readClause? h
    match tally.add? clause with
    | none => .fatal .overflow
    | some tally => (readClauses parser nested tally rest).map (clause :: ·)
termination_by s.length

/-- The conditions of a part are the first one and those after it, as long as one follows and can be
counted. -/
theorem readClauses_eq (parser : Parser) (nested : ListReader) (tally : Tally) (s : List Char) :
    readClauses parser nested tally s =
      match readClause? parser nested tally.hasId s with
      | none => .done [] s
      | some first => first.andThen fun clause rest =>
        match tally.add? clause with
        | none => .fatal .overflow
        | some tally => (readClauses parser nested tally rest).map (clause :: ·) := by
  rw [readClauses]
  split <;> simp_all [Reading.andThen]

/-- Reads the dollar sign that marks the subject. -/
def subjectMark : List Char → Bool × List Char
  | '$' :: s => (true, s)
  | s => (false, s)

/-- Reads the name of the element: an asterisk or nothing for any name. -/
def readTag (s : List Char) : Option Ident × List Char :=
  match s with
  | '*' :: rest => (none, rest)
  | _ => match ident? s with
    | some (name, rest) => (some name, rest)
    | none => (none, s)

/-- Reads what follows a subject up to the end of the branch. Of a list that is dead as a whole
nothing can be found inside any element. -/
def readContainment (nested : ListReader) (s : List Char) : Reading (Option Selector) :=
  let branch := branchSpan s
  if (trim branch.1).isEmpty then .done none branch.2
  else match nested branch.1 with
    | .error error => .fatal error
    | .ok [] => .dead branch.2
    | .ok (selector :: _) => .done (some selector) branch.2

/-- Ends a part, if its lookups can be counted with its classes. -/
def endPart (p : Profile) (part : Part) (rest : List Char) : Reading Part :=
  if part.directLookups p < UInt8.size then .done part rest else .fatal .overflow

/-- Reads one part, which has at least one character. -/
def readPart (parser : Parser) (nested : ListReader) (combinator : Option Combinator)
    (s : List Char) : Reading Part :=
  let mark := subjectMark s
  let tag := readTag mark.2
  (readClauses parser nested (.start tag.1) tag.2).andThen fun clauses rest =>
    if mark.1 then
      (readContainment nested rest).andThen fun inner =>
        endPart parser.profile ⟨combinator, true, tag.1, clauses, inner⟩
    else if rest.length < s.length then
      endPart parser.profile ⟨combinator, false, tag.1, clauses, none⟩ rest
    else .fatal (.malformed (.atStartOf s))

theorem leaves_readClauses (parser : Parser) (nested : ListReader) (tally : Tally)
    (s : List Char) :
    (readClauses parser nested tally s).Leaves (s.length + 1) (s.length + 1) := by
  fun_induction readClauses parser nested tally s with
  | case1 => exact Nat.lt_succ_self _
  | case2 _ _ rest h => exact leaves_readClause? h
  | case3 => trivial
  | case4 => trivial
  | case5 _ _ clause rest h hlt _ _ ih => exact ih.map.mono (by omega) (by omega)

theorem leaves_endPart (p : Profile) (part : Part) (rest : List Char) :
    (endPart p part rest).Leaves (rest.length + 1) (rest.length + 1) := by
  unfold endPart
  split
  · exact Nat.lt_succ_self _
  · trivial

theorem length_subjectMark_le (s : List Char) : (subjectMark s).2.length ≤ s.length := by
  unfold subjectMark
  split <;> simp

theorem length_subjectMark_lt {s : List Char} (h : (subjectMark s).1 = true) :
    (subjectMark s).2.length < s.length := by
  unfold subjectMark at h ⊢
  split <;> simp_all

theorem length_readTag_le (s : List Char) : (readTag s).2.length ≤ s.length := by
  unfold readTag
  split
  · simp
  · split
    · next h => exact Nat.le_of_lt (length_ident?_lt h)
    · exact Nat.le_refl _

theorem leaves_readContainment (nested : ListReader) (s : List Char) :
    (readContainment nested s).Leaves (s.length + 1) (s.length + 1) := by
  have h := length_branchSpan_le s
  unfold readContainment
  dsimp only
  split
  · exact Nat.lt_succ_of_le h
  · split
    · trivial
    · exact Nat.lt_succ_of_le h
    · exact Nat.lt_succ_of_le h

theorem leaves_readPart (parser : Parser) (nested : ListReader)
    (combinator : Option Combinator) (s : List Char) :
    (readPart parser nested combinator s).Leaves s.length (s.length + 1) := by
  have h1 := length_subjectMark_le s
  have h2 := length_readTag_le (subjectMark s).2
  unfold readPart
  dsimp only
  refine ((leaves_readClauses parser nested _ _).mono (Nat.le_refl _)
    (by omega)).andThen fun clauses rest hrest => ?_
  split
  · next hs =>
    have := length_subjectMark_lt hs
    exact ((leaves_readContainment nested rest).mono (Nat.le_refl _) (by omega)).andThen
      fun inner rest hlt => (leaves_endPart _ _ rest).mono (by omega) (by omega)
  · split
    · next hlt => exact (leaves_endPart _ _ rest).mono (by omega) (by omega)
    · trivial

end TreeQuery.Reader
