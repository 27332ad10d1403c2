import TreeQuery.Text.Ascii
import TreeQuery.Tree

/-!
# Views of a tree

The evaluation of selectors reads a tree through a view: a record of the plain accessors. All other
navigation is derived from them. A view also bounds the length of the walks through its tree.
-/

namespace TreeQuery

/-- The kinds of nodes that a view tells apart. -/
inductive NodeKind where
  | document
  | element
  | text
  | comment
  | other
  deriving DecidableEq, Repr, Inhabited

/-- The accessors of a tree. -/
structure View where
  /-- No walk that ends has more nodes than this. -/
  bound : Nat
  contains : NodeId → Bool
  kind : NodeId → NodeKind
  /-- The name of an element; nothing for other nodes. -/
  tag : NodeId → Option String
  /-- The value of an attribute of an element. -/
  attr : NodeId → String → Option String
  parent : NodeId → Option NodeId
  firstChild : NodeId → Option NodeId
  lastChild : NodeId → Option NodeId
  nextSibling : NodeId → Option NodeId
  prevSibling : NodeId → Option NodeId

namespace View

/-! ## Elements -/

/-- Whether the node is an element. -/
def isElement (v : View) (node : NodeId) : Bool := v.kind node == .element

/-- Whether queries can start at the node. -/
def isContainer (v : View) (node : NodeId) : Bool :=
  v.kind node == .element || v.kind node == .document

/-- The value of the attribute `id`. -/
def id (v : View) (node : NodeId) : Option String := v.attr node "id"

/-- Whether a name is one of the words of the attribute `class`. -/
def hasClass (v : View) (node : NodeId) (name : String) : Bool :=
  (v.attr node "class").any fun classes => (Text.words classes.toList).contains name.toList

/-- Whether the element has this name, without regard to the case of ASCII letters. -/
def hasTag (v : View) (node : NodeId) (name : String) : Bool :=
  (v.tag node).any (Text.sameLetters name ·)

/-! ## Siblings and children -/

/-- The elements after a node among its siblings, the nearest first. -/
def elementsAfter (v : View) (node : NodeId) : List NodeId :=
  (Walk.trail v.nextSibling v.bound (v.nextSibling node)).filter v.isElement

/-- The elements before a node among its siblings, the nearest first. -/
def elementsBefore (v : View) (node : NodeId) : List NodeId :=
  (Walk.trail v.prevSibling v.bound (v.prevSibling node)).filter v.isElement

/-- The nearest element after a node. -/
def nextElementSibling (v : View) (node : NodeId) : Option NodeId := (v.elementsAfter node).head?

/-- The nearest element before a node. -/
def prevElementSibling (v : View) (node : NodeId) : Option NodeId := (v.elementsBefore node).head?

/-- The children of a node. -/
def children (v : View) (node : NodeId) : List NodeId :=
  Walk.trail v.nextSibling v.bound (v.firstChild node)

/-- The elements among the children, in order. -/
def elementChildren (v : View) (node : NodeId) : List NodeId :=
  (v.children node).filter v.isElement

/-- The elements among the children, the last one first. -/
def elementChildrenBackward (v : View) (node : NodeId) : List NodeId :=
  (Walk.trail v.prevSibling v.bound (v.lastChild node)).filter v.isElement

/-- The first element among the children. -/
def firstElementChild (v : View) (node : NodeId) : Option NodeId := (v.elementChildren node).head?

/-- The last element among the children. -/
def lastElementChild (v : View) (node : NodeId) : Option NodeId :=
  (v.elementChildrenBackward node).head?

/-! ## Ancestors and descendants -/

/-- The links that walks follow. -/
def links (v : View) : Walk.Links := ⟨v.parent, v.firstChild, v.nextSibling⟩

/-- The ancestors, the nearest first. -/
def ancestors (v : View) (node : NodeId) : List NodeId := v.links.ancestors v.bound node

/-- The topmost ancestor, or the node itself if it has no parent. -/
def root (v : View) (node : NodeId) : NodeId := (v.ancestors node).getLast?.getD node

/-- The first element of a document. Other nodes have none. -/
def documentElement (v : View) (root : NodeId) : Option NodeId :=
  if v.kind root == .document then v.firstElementChild root else none

/-- The nodes below `scope`, in tree order. -/
def descendants (v : View) (scope : NodeId) : List NodeId := v.links.descendants v.bound scope

/-- The nearest value of an attribute on the node or one of its ancestors. -/
def inheritedAttribute (v : View) (node : NodeId) (name : String) : Option String :=
  (node :: v.ancestors node).findSome? (v.attr · name)

/-- The view in which the nodes of a list are of another kind than the tree says. -/
def withOthers (v : View) (others : List NodeId) : View :=
  { v with kind := fun node => if others.contains node then .other else v.kind node }

end View

/-- The kind of a node of the tree. -/
def NodeContent.kind : NodeContent → NodeKind
  | .document => .document
  | .element _ => .element
  | .text _ => .text
  | .comment _ => .comment

/-- The view of a tree as it is. -/
def Tree.view (t : Tree) : View where
  bound := t.size
  contains node := (t.get? node).isSome
  kind node := ((t.get? node).map (·.content.kind)).getD .other
  tag node := (t.element? node).map (·.tag)
  attr node name := (t.element? node).bind (·.attribute? name)
  parent := t.parent
  firstChild := t.firstChild
  lastChild := t.lastChild
  nextSibling := t.nextSibling
  prevSibling := t.prevSibling

end TreeQuery
