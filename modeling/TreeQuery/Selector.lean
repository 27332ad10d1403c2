import TreeQuery.Attribute
import TreeQuery.Formula
import TreeQuery.PseudoClass
import TreeQuery.Text.Ident

/-!
# Selectors

A selector is a chain of parts, each a list of conditions on one element, with a combinator between
neighbours. The last part describes the elements that the selector selects. A comma list is a list
of selectors. A selector holds what was written and nothing that depends on a host evaluator.
-/

namespace TreeQuery

/-- How the element of a part is related to the element of the part before it. -/
inductive Combinator where
  /-- The earlier element is an ancestor. -/
  | descendant
  /-- The earlier element is the parent. -/
  | child
  /-- The earlier element is the element just before. -/
  | nextSibling
  /-- The earlier element is a sibling before. -/
  | subsequentSibling
  deriving DecidableEq, Repr, Inhabited

namespace Combinator

/-- The combinator that a punctuation character stands for. -/
def ofChar? : Char → Option Combinator
  | '>' => some child
  | '+' => some nextSibling
  | '~' => some subsequentSibling
  | _ => none

/-- The canonical spelling, with its blanks. -/
def text : Combinator → String
  | descendant => " "
  | child => " > "
  | nextSibling => " + "
  | subsequentSibling => " ~ "

end Combinator

mutual

/-- The argument of a pseudo-class. -/
inductive Argument where
  | none
  | text (text : String)
  | formula (formula : Formula)
  | nested (list : List Selector)
  /-- The rest of the part that the pseudo-class stands in, with an optional formula. -/
  | relative (formula : Option Formula)
  /-- A number of path segments; nothing means all of them. -/
  | linkDepth (depth : Option Nat)

/-- A pseudo-class in a selector. -/
structure PseudoClause where
  pseudo : PseudoClass
  /-- Whether the registered name lets the pseudo-class list its own candidates. -/
  hasGetter : Bool
  /-- The text between the parentheses, trimmed; nothing when it is blank or missing. -/
  written : Option String
  argument : Argument

/-- One condition on an element. -/
inductive Clause where
  | id (name : Ident)
  | hasClass (name : Ident)
  | attribute (name : Ident) (comparator : Comparator) (operand : String) (ignoreCase : Bool)
  | pseudo (clause : PseudoClause)

/-- The conditions on one element. -/
structure Part where
  /-- The relation to the part before. A first part may have none, which means a descendant of the
  scope. -/
  combinator : Option Combinator
  /-- Whether the part is marked as the subject: it is then the last one, and what follows it in the
  text is its containment. -/
  subject : Bool
  /-- The name of the element; nothing means any name. -/
  tag : Option Ident
  clauses : List Clause
  /-- What some descendant of the element must satisfy, relative to the element. -/
  containment : Option Selector

/-- A chain of parts, from left to right. -/
structure Selector where
  parts : List Part

end

instance : Inhabited Selector := ⟨⟨[]⟩⟩
instance : Inhabited Part := ⟨⟨none, false, none, [], none⟩⟩

namespace Argument

/-- The formula of an argument that has one. -/
def formula? : Argument → Option Formula
  | .formula f => some f
  | .relative f => f
  | _ => Option.none

/-- The literal text of an argument that is one. -/
def text? : Argument → Option String
  | .text t => some t
  | _ => Option.none

/-- The selector list of an argument that is one. -/
def nested? : Argument → Option (List Selector)
  | .nested list => some list
  | _ => Option.none

/-- Whether the argument is the rest of the part. -/
def isRelative : Argument → Bool
  | .relative _ => true
  | _ => false

end Argument

namespace Clause

/-- The name in an id condition. -/
def id? : Clause → Option Ident
  | .id name => some name
  | _ => none

/-- The name in a class condition. -/
def class? : Clause → Option Ident
  | .hasClass name => some name
  | _ => none

/-- The test in an attribute condition. -/
def attribute? : Clause → Option AttributeTest
  | .attribute name comparator operand ignoreCase =>
    some ⟨name.value, comparator, operand, ignoreCase⟩
  | _ => none

/-- The pseudo-class in a condition that is one. -/
def pseudo? : Clause → Option PseudoClause
  | .pseudo clause => some clause
  | _ => none

/-- The name that the condition requires as the value of the attribute `name`, if it requires just
that. -/
def searchName? (clause : Clause) : Option String :=
  (clause.attribute?.filter fun test => test.isPlainEquality && test.name == "name").map (·.operand)

/-- Whether a lookup of ids or names could serve the condition. -/
def isLookup (clause : Clause) : Bool := clause.id?.isSome || clause.searchName?.isSome

/-- Whether the condition compares an element with like siblings. -/
def isRelative (clause : Clause) : Bool := clause.pseudo?.any (·.pseudo.isRelative)

end Clause

namespace Part

/-- The required id. A part with two of them is never built. -/
def id? (part : Part) : Option Ident := part.clauses.findSome? Clause.id?

/-- The required classes, in the order written. -/
def classes (part : Part) : List Ident := part.clauses.filterMap Clause.class?

/-- The attribute conditions, in the order written. -/
def attributes (part : Part) : List AttributeTest := part.clauses.filterMap Clause.attribute?

/-- The pseudo-classes, in the order written. -/
def pseudos (part : Part) : List PseudoClause := part.clauses.filterMap Clause.pseudo?

/-- The required value of the attribute `name`: the last one written counts. -/
def searchName? (part : Part) : Option String :=
  (part.clauses.filterMap Clause.searchName?).getLast?

/-- What a sibling must satisfy to be like an element of the part: all but the conditions that
compare with like siblings. -/
def shape (part : Part) : Part :=
  { part with
    combinator := none
    subject := false
    clauses := part.clauses.filter (!·.isRelative) }

end Part

namespace Selector

/-- The part that describes the selected elements. -/
def lastPart? (selector : Selector) : Option Part := selector.parts.getLast?

/-- The position of the last part with an id. -/
def idPosition? (selector : Selector) : Option Nat :=
  (selector.parts.zipIdx.filter (·.1.id?.isSome)).getLast?.map (·.2)

/-- The id of the last part that has one, with the position of that part. -/
def lastId? (selector : Selector) : Option (Nat × String) := do
  let position ← selector.idPosition?
  let part ← selector.parts[position]?
  let id ← part.id?
  some (position, id.value)

/-- Whether the first part is related to the scope by a written combinator. -/
def hasLeadingCombinator (selector : Selector) : Bool :=
  selector.parts.head?.any (·.combinator.isSome)

end Selector
end TreeQuery
