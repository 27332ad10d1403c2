import TreeQuery.Parser
import TreeQuery.Selector.Reader.Reading
import TreeQuery.Text.Blank
import TreeQuery.Text.Nesting

/-!
# Reading conditions

The readers for the conditions of a part: ids, classes, attributes and pseudo-classes with their
arguments. Every condition that is read has at least one character.
-/

namespace TreeQuery.Reader

open Text

/-! ## Ids, classes and attributes -/

/-- Reads the name of an id condition. -/
def readId (s : List Char) : Reading Clause :=
  match ident? s with
  | some (name, rest) => .done (.id name) rest
  | none => .fatal (.malformed .invalidId)

/-- Reads the name of a class condition. -/
def readClass (s : List Char) : Reading Clause :=
  match ident? s with
  | some (name, rest) => .done (.hasClass name) rest
  | none => .fatal (.malformed .invalidClass)

/-- Reads the operator of an attribute condition. -/
def comparator? : List Char → Option (Comparator × List Char)
  | '=' :: s => some (.equals, s)
  | c :: '=' :: s => (Comparator.ofOperator? (some c)).map (·, s)
  | _ => none

/-- Reads the operand of an attribute condition: a quoted string, an identifier, or nothing. -/
def operand (s : List Char) : String × List Char :=
  match quoted? s with
  | some (content, rest) => (String.ofList content, rest)
  | none => match ident? s with
    | some (name, rest) => (name.value, rest)
    | none => ("", s)

/-- Reads the flag for ignoring case. -/
def caseFlag : List Char → Bool × List Char
  | 'i' :: s => (true, s)
  | 'I' :: s => (true, s)
  | s => (false, s)

/-- Reads an attribute condition after its opening bracket. -/
def readAttribute (s : List Char) : Reading Clause :=
  match ident? (skipBlank s) with
  | none => .fatal (.malformed .invalidAttribute)
  | some (name, s) => match skipBlank s with
    | ']' :: rest => .done (.attribute name .present "" false) rest
    | s => match comparator? s with
      | none => .fatal (.malformed .invalidAttribute)
      | some (comparator, s) =>
        let (operand, s) := operand (skipBlank s)
        let (ignoreCase, s) := caseFlag (skipBlank s)
        match skipBlank s with
        | ']' :: rest =>
          if operand == "" && comparator.isAnchored then .dead rest
          else .done (.attribute name comparator operand ignoreCase) rest
        | _ => .fatal (.malformed .invalidAttribute)

/-! ## Pseudo-classes -/

/-- Reads a formula that must select some position. -/
def readFormula (s rest : List Char) : Reading Formula :=
  match Formula.read? s with
  | none => .fatal (.malformed (.invalidFormula (String.ofList s)))
  | some f => if f.isSatisfiable then .done f rest else .dead rest

/-- Reads an argument that may not be missing or blank. -/
def withArgument (pseudo : PseudoClass) (inner? : Option (List Char))
    (read : List Char → Reading Argument) : Reading Argument :=
  match trim (inner?.getD []) with
  | [] => .fatal (.malformed (.missingArgument pseudo))
  | s => read s

/-- Takes an argument for a pseudo-class that has no parentheses. -/
def withoutArgument (pseudo : PseudoClass) (inner? : Option (List Char)) (argument : Argument)
    (rest : List Char) : Reading Argument :=
  if inner?.isSome then .fatal (.malformed (.unexpectedArgument pseudo)) else .done argument rest

/-- Reads an optional number of path segments. -/
def readLinkDepth (inner? : Option (List Char)) (rest : List Char) : Reading Argument :=
  match trim (inner?.getD []) with
  | [] => .done (.linkDepth none) rest
  | s => match natBelow? UInt64.size s with
    | some depth => .done (.linkDepth (some depth)) rest
    | none => .fatal (.malformed (.invalidLinkDepth (String.ofList s)))

/-- Reads a selector list. -/
def readNested (nested : ListReader) (s rest : List Char) : Reading Argument :=
  match nested s with
  | .ok list => .done (.nested list) rest
  | .error error => .fatal error

/-- Reads the argument of a pseudo-class. The text between its parentheses is `inner?`, and `rest`
is the text after them. -/
def readArgument (nested : ListReader) (entry : Entry) (inner? : Option (List Char))
    (rest : List Char) : Reading Argument :=
  match entry.grammar with
  | .none => withoutArgument entry.pseudo inner? .none rest
  | .relative => withoutArgument entry.pseudo inner? (.relative none) rest
  | .text => withArgument entry.pseudo inner? fun s =>
    .done (.text (String.ofList (unquote s))) rest
  | .formula => withArgument entry.pseudo inner? fun s => (readFormula s rest).map .formula
  | .relativeFormula => withArgument entry.pseudo inner? fun s =>
    (readFormula s rest).map fun f => .relative (some f)
  | .linkDepth => readLinkDepth inner? rest
  | .nested => withArgument entry.pseudo inner? fun s => readNested nested s rest

/-- The argument in parentheses after a pseudo-class, blanks before it allowed: its text if there is
one, and the text after it. -/
def readGroup (s : List Char) : Reading (Option (List Char)) :=
  match skipBlank s with
  | '(' :: t => match group? ('(' :: t) with
    | some (inner, rest) => .done (some inner) rest
    | none => .fatal (.malformed .invalidPseudo)
  | _ => .done none s

/-- The text of an argument that is not blank. -/
def writtenArgument (inner? : Option (List Char)) : Option String :=
  match trim (inner?.getD []) with
  | [] => none
  | s => some (String.ofList s)

/-- Reads a pseudo-class after its colon. -/
def readPseudo (parser : Parser) (nested : ListReader) (s : List Char) : Reading Clause :=
  match ident? s with
  | none => .fatal (.malformed .invalidPseudo)
  | some (name, s) => (readGroup s).andThen fun inner? rest =>
    match parser.registry.lookup name.value with
    | none => .fatal (.malformed (.unknownPseudo name.value))
    | some entry => (readArgument nested entry inner? rest).map fun argument =>
      .pseudo ⟨entry.pseudo, entry.hasGetter, writtenArgument inner?, argument⟩

/-- Reads one condition, if the text starts with one. An id condition after another one makes the
branch dead. -/
def readClause? (parser : Parser) (nested : ListReader) (hasId : Bool) :
    List Char → Option (Reading Clause)
  | '#' :: s => some (if hasId then .dead ('#' :: s) else readId s)
  | '.' :: s => some (readClass s)
  | '[' :: s => some (readAttribute s)
  | ':' :: s => some (readPseudo parser nested s)
  | _ => none

/-! ## Every condition consumes something -/

theorem leaves_readId (s : List Char) : (readId s).Leaves s.length s.length := by
  unfold readId
  split
  · next h => exact length_ident?_lt h
  · trivial

theorem leaves_readClass (s : List Char) : (readClass s).Leaves s.length s.length := by
  unfold readClass
  split
  · next h => exact length_ident?_lt h
  · trivial

theorem length_comparator?_le {s rest : List Char} {c : Comparator}
    (h : comparator? s = some (c, rest)) : rest.length ≤ s.length := by
  unfold comparator? at h
  split at h
  · cases h; simp
  · obtain ⟨_, _, he⟩ := Option.map_eq_some_iff.1 h
    cases he
    simp only [List.length_cons]
    omega
  · simp at h

theorem length_operand_le (s : List Char) : (operand s).2.length ≤ s.length := by
  unfold operand
  split
  · next h => exact Nat.le_of_lt (length_quoted?_lt h)
  · split
    · next h => exact Nat.le_of_lt (length_ident?_lt h)
    · exact Nat.le_refl _

theorem length_caseFlag_le (s : List Char) : (caseFlag s).2.length ≤ s.length := by
  unfold caseFlag
  split <;> simp

theorem leaves_readAttribute (s : List Char) : (readAttribute s).Leaves s.length s.length := by
  unfold readAttribute
  have h0 := length_skipBlank_le s
  split
  · trivial
  · next name s1 h1 =>
    have h1 := length_ident?_lt h1
    have h2 := length_skipBlank_le s1
    split
    · next rest h3 =>
      rw [h3, List.length_cons] at h2
      simp only [Reading.Leaves]
      omega
    · split
      · trivial
      · next comparator s3 h3 =>
        have h3 := length_comparator?_le h3
        have h4 := length_skipBlank_le s3
        have h5 := length_operand_le (skipBlank s3)
        have h6 := length_skipBlank_le (operand (skipBlank s3)).2
        have h7 := length_caseFlag_le (skipBlank (operand (skipBlank s3)).2)
        have h8 := length_skipBlank_le (caseFlag (skipBlank (operand (skipBlank s3)).2)).2
        simp only
        split
        · next rest h9 =>
          rw [h9, List.length_cons] at h8
          split <;> simp only [Reading.Leaves] <;> omega
        · trivial

theorem leaves_readFormula (s rest : List Char) :
    (readFormula s rest).Leaves (rest.length + 1) (rest.length + 1) := by
  unfold readFormula
  split
  · trivial
  · split <;> exact Nat.lt_succ_self _

theorem leaves_withArgument {pseudo : PseudoClass} {inner? : Option (List Char)}
    {read : List Char → Reading Argument} {live dead : Nat}
    (h : ∀ s, (read s).Leaves live dead) : (withArgument pseudo inner? read).Leaves live dead := by
  unfold withArgument
  split
  · trivial
  · exact h _

theorem leaves_withoutArgument (pseudo : PseudoClass) (inner? : Option (List Char))
    (argument : Argument) (rest : List Char) :
    (withoutArgument pseudo inner? argument rest).Leaves (rest.length + 1) (rest.length + 1) := by
  unfold withoutArgument
  split
  · trivial
  · exact Nat.lt_succ_self _

theorem leaves_readLinkDepth (inner? : Option (List Char)) (rest : List Char) :
    (readLinkDepth inner? rest).Leaves (rest.length + 1) (rest.length + 1) := by
  unfold readLinkDepth
  split
  · exact Nat.lt_succ_self _
  · split
    · exact Nat.lt_succ_self _
    · trivial

theorem leaves_readNested (nested : ListReader) (s rest : List Char) :
    (readNested nested s rest).Leaves (rest.length + 1) (rest.length + 1) := by
  unfold readNested
  split
  · exact Nat.lt_succ_self _
  · trivial

theorem leaves_readArgument (nested : ListReader) (entry : Entry) (inner? : Option (List Char))
    (rest : List Char) :
    (readArgument nested entry inner? rest).Leaves (rest.length + 1) (rest.length + 1) := by
  unfold readArgument
  split
  · exact leaves_withoutArgument _ _ _ _
  · exact leaves_withoutArgument _ _ _ _
  · exact leaves_withArgument fun _ => Nat.lt_succ_self _
  · exact leaves_withArgument fun _ => (leaves_readFormula _ _).map
  · exact leaves_withArgument fun _ => (leaves_readFormula _ _).map
  · exact leaves_readLinkDepth _ _
  · exact leaves_withArgument fun _ => leaves_readNested _ _ _

theorem leaves_readGroup (s : List Char) : (readGroup s).Leaves (s.length + 1) (s.length + 1) := by
  unfold readGroup
  have h0 := length_skipBlank_le s
  split
  · next t ht =>
    split
    · next inner rest h =>
      have := length_group?_lt h
      rw [ht] at h0
      simp only [Reading.Leaves]
      omega
    · trivial
  · exact Nat.lt_succ_self _

theorem leaves_readPseudo (parser : Parser) (nested : ListReader) (s : List Char) :
    (readPseudo parser nested s).Leaves s.length s.length := by
  unfold readPseudo
  split
  · trivial
  · next name t h =>
    have h := length_ident?_lt h
    refine ((leaves_readGroup t).mono h h).andThen fun inner? rest hrest => ?_
    split
    · trivial
    · exact ((leaves_readArgument nested _ inner? rest).mono hrest hrest).map

theorem leaves_readClause? {parser : Parser} {nested : ListReader} {hasId : Bool}
    {s : List Char} {r : Reading Clause} (h : readClause? parser nested hasId s = some r) :
    r.Leaves s.length (s.length + 1) := by
  unfold readClause? at h
  split at h
  · cases h
    split
    · exact Nat.lt_succ_self _
    · exact (leaves_readId _).mono (by simp) (by simp; omega)
  · cases h; exact (leaves_readClass _).mono (by simp) (by simp; omega)
  · cases h; exact (leaves_readAttribute _).mono (by simp) (by simp; omega)
  · cases h; exact (leaves_readPseudo parser nested _).mono (by simp) (by simp; omega)
  · simp at h

end TreeQuery.Reader
