/-!
# Walks through a tree

A walk starts at a node and follows links from node to node. The next node depends on the current
one alone, so a walk that ends never meets a node twice, and it has no more steps than the tree has
nodes. Every walk below is given that number as its bound.
-/

namespace TreeQuery

/-- The number that stands for a node of a tree. -/
abbrev NodeId := Nat

namespace Walk

/-- The nodes of the walk that starts at `start` and follows `step`, at most `bound` of them. -/
def trail (step : NodeId → Option NodeId) : Nat → Option NodeId → List NodeId
  | 0, _ => []
  | _ + 1, none => []
  | bound + 1, some node => node :: trail step bound (step node)

/-- The links that a walk through a whole subtree follows. -/
structure Links where
  parent : NodeId → Option NodeId
  firstChild : NodeId → Option NodeId
  nextSibling : NodeId → Option NodeId

namespace Links

/-- The ancestors of a node, the nearest first. -/
def ancestors (links : Links) (bound : Nat) (node : NodeId) : List NodeId :=
  trail links.parent bound (links.parent node)

/-- The node after the subtree of `node`, within the subtree of `scope`: the next sibling of the
nearest node on the way up to the scope that has one. -/
def nextOutside (links : Links) (bound : Nat) (scope node : NodeId) : Option NodeId :=
  ((node :: links.ancestors bound node).takeWhile (· != scope)).findSome? links.nextSibling

/-- The node after `node` in tree order, within the subtree of `scope`. -/
def nextInOrder (links : Links) (bound : Nat) (scope node : NodeId) : Option NodeId :=
  links.firstChild node <|> links.nextOutside bound scope node

/-- The nodes below `scope` in tree order. -/
def descendants (links : Links) (bound : Nat) (scope : NodeId) : List NodeId :=
  trail (links.nextInOrder bound scope) bound (links.firstChild scope)

end Links
end Walk
end TreeQuery
