import TreeQuery.PseudoClass

/-!
# Capability profiles

A profile says what the host of a tree can do by itself: whether it has an evaluator for selector
texts, which pseudo-classes that evaluator knows and under which names, and which lookups the tree
offers. A profile never changes what a selector means.
-/

namespace TreeQuery

/-- How well a host evaluates a pseudo-class. -/
structure PseudoSupport where
  /-- The hardest kind of argument that the host evaluates; zero means none at all. -/
  tier : UInt8
  /-- The name that the host knows, if it is not the standard one. -/
  name : Option String
  deriving DecidableEq, Repr, Inhabited

/-- What the host of a tree can do by itself. -/
structure Profile where
  /-- The supported pseudo-classes, in their standard order. -/
  pseudoSupport : List (PseudoClass × PseudoSupport)
  /-- Whether the evaluator knows the flag for ignoring case. -/
  ignoresCase : Bool
  /-- Whether there is an evaluator. -/
  hasEvaluator : Bool
  /-- Whether the tree can list the elements of given classes. -/
  classLookup : Bool
  /-- Whether listing the elements of any name also lists other nodes. -/
  wildcardListsAll : Bool
  /-- Whether the evaluator knows the mark of the subject. -/
  marksSubject : Bool
  deriving DecidableEq, Repr

namespace Profile

/-- The profile of a host without an evaluator. -/
def manual : Profile := ⟨[], false, false, true, false, false⟩

instance : Inhabited Profile := ⟨manual⟩

/-- The support of one pseudo-class. -/
def support? (p : Profile) (pseudo : PseudoClass) : Option PseudoSupport :=
  p.pseudoSupport.lookup pseudo

/-- Replaces the support of one pseudo-class. -/
def withSupport (p : Profile) (pseudo : PseudoClass) (support : PseudoSupport) : Profile :=
  { p with pseudoSupport := PseudoClass.all.filterMap fun q =>
      if q = pseudo then some (q, support) else (p.support? q).map (q, ·) }

/-- The hardest kind of argument for which the host evaluates the pseudo-class. -/
def tier (p : Profile) (pseudo : PseudoClass) : UInt8 := ((p.support? pseudo).map (·.tier)).getD 0

/-- The name by which the host knows the pseudo-class. -/
def hostName (p : Profile) (pseudo : PseudoClass) : String :=
  ((p.support? pseudo).bind (·.name)).getD pseudo.name

end Profile
end TreeQuery
