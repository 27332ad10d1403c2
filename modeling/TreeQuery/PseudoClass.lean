/-!
# Pseudo-classes

The conditions that a selector writes with a colon, each with its standard name.
-/

namespace TreeQuery

/-- The pseudo-classes, in their standard order. -/
inductive PseudoClass where
  /-- A link element with a target. -/
  | anyLink
  /-- A link whose target lies inside the current location. -/
  | localLink
  | firstChild
  | lastChild
  | onlyChild
  | nthChild
  | nthLastChild
  | firstOfType
  | lastOfType
  | onlyOfType
  | nthOfType
  | nthLastOfType
  /-- No sibling before the element satisfies the rest of the part. -/
  | firstMatch
  /-- No sibling after the element satisfies the rest of the part. -/
  | lastMatch
  /-- No other sibling satisfies the rest of the part. -/
  | onlyMatch
  /-- The position among the siblings that satisfy the rest of the part. -/
  | nthMatch
  /-- The position among the siblings that satisfy the rest of the part, from the last one. -/
  | nthLastMatch
  | disabled
  | enabled
  | indeterminate
  | checked
  | focus
  /-- No child is an element or a text. -/
  | empty
  | not
  | matchesAny
  /-- The element that the fragment of the location names. -/
  | target
  | root
  | lang
  | dir
  deriving DecidableEq, Repr, Inhabited

namespace PseudoClass

/-- Every pseudo-class, in the standard order. -/
def all : List PseudoClass :=
  [anyLink, localLink, firstChild, lastChild, onlyChild, nthChild, nthLastChild, firstOfType,
    lastOfType, onlyOfType, nthOfType, nthLastOfType, firstMatch, lastMatch, onlyMatch, nthMatch,
    nthLastMatch, disabled, enabled, indeterminate, checked, focus, empty, not, matchesAny, target,
    root, lang, dir]

/-- The list of all pseudo-classes is complete. -/
theorem mem_all (p : PseudoClass) : p ∈ all := by cases p <;> decide

/-- The standard name. -/
def name : PseudoClass → String
  | anyLink => "any-link"
  | localLink => "local-link"
  | firstChild => "first-child"
  | lastChild => "last-child"
  | onlyChild => "only-child"
  | nthChild => "nth-child"
  | nthLastChild => "nth-last-child"
  | firstOfType => "first-of-type"
  | lastOfType => "last-of-type"
  | onlyOfType => "only-of-type"
  | nthOfType => "nth-of-type"
  | nthLastOfType => "nth-last-of-type"
  | firstMatch => "first-match"
  | lastMatch => "last-match"
  | onlyMatch => "only-match"
  | nthMatch => "nth-match"
  | nthLastMatch => "nth-last-match"
  | disabled => "disabled"
  | enabled => "enabled"
  | indeterminate => "indeterminate"
  | checked => "checked"
  | focus => "focus"
  | empty => "empty"
  | not => "not"
  | matchesAny => "matches"
  | target => "target"
  | root => "root"
  | lang => "lang"
  | dir => "dir"

/-- The pseudo-class of a standard name, spelled exactly. -/
def ofName? (s : String) : Option PseudoClass := all.find? (·.name == s)

/-- A pseudo-class is read back from its name. -/
theorem ofName?_name (p : PseudoClass) : ofName? p.name = some p := by cases p <;> decide

/-- The pseudo-classes that compare an element with the siblings that satisfy the rest of its
part. -/
def isRelative : PseudoClass → Bool
  | firstMatch | lastMatch | onlyMatch | nthMatch | nthLastMatch => true
  | _ => false

/-- The pseudo-classes whose argument is a selector list. -/
def isSelfReferential : PseudoClass → Bool
  | not | matchesAny => true
  | _ => false

end PseudoClass
end TreeQuery
