import TreeQuery.Tree.Walk

/-!
# The host of a tree

A few pseudo-classes ask about the state of the program that shows the tree: where the focus is, and
which location is open.
-/

namespace TreeQuery

/-- The state of a host. -/
structure Host where
  /-- The active element of the tree with this root. -/
  active : (root : NodeId) → Option NodeId := fun _ => none
  /-- The fragment of the location, without its number sign. -/
  fragment : Option String := none
  /-- Whether the tree has the focus. -/
  focused : Bool := true
  /-- The location, with its scheme. -/
  location : Option String := none

/-- The host without an active element, a fragment and a location. -/
def Host.silent : Host := {}

instance : Inhabited Host := ⟨.silent⟩

/-- The fragment of the location, if it names anything. -/
def Host.namedFragment (h : Host) : Option String := h.fragment.filter (· != "")

end TreeQuery
