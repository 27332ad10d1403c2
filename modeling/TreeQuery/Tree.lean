import TreeQuery.Text.Blank
import TreeQuery.Tree.Walk

/-!
# Trees of documents and elements

A tree is a table of nodes that refer to each other by their numbers. Node 0 is the document. A new
node belongs to no parent until it is appended to one. Appending writes the links of the new place
and removes none of an old place, so the tree is well linked only if each node is appended once.
-/

namespace TreeQuery

/-- The name of an element and its attributes; no attribute name occurs twice. -/
structure Element where
  tag : String
  attributes : List (String × String)
  deriving DecidableEq, Repr, Inhabited

namespace Element

/-- The value of an attribute. -/
def attribute? (e : Element) (name : String) : Option String := e.attributes.lookup name

/-- Sets an attribute, in place of a value that it had. -/
def withAttribute (e : Element) (name value : String) : Element :=
  { e with attributes := (name, value) :: e.attributes.filter (·.1 != name) }

/-- The value of the attribute `id`. -/
def id? (e : Element) : Option String := e.attribute? "id"

/-- The words of the attribute `class`. -/
def classes (e : Element) : List String :=
  (Text.words ((e.attribute? "class").getD "").toList).map String.ofList

end Element

/-- What a node is. -/
inductive NodeContent where
  | document
  | element (element : Element)
  | text (text : String)
  | comment (text : String)
  deriving DecidableEq, Repr, Inhabited

/-- A node with its links. -/
structure Node where
  content : NodeContent
  parent : Option NodeId
  children : List NodeId
  nextSibling : Option NodeId
  prevSibling : Option NodeId
  deriving DecidableEq, Repr, Inhabited

/-- A node without links. -/
def Node.detached (content : NodeContent) : Node := ⟨content, none, [], none, none⟩

/-- A table of nodes. -/
structure Tree where
  nodes : Array Node
  deriving DecidableEq, Repr

namespace Tree

/-- The number of the document. -/
def document : NodeId := 0

/-- The tree that holds just the document. -/
def new : Tree := ⟨#[.detached .document]⟩

instance : Inhabited Tree := ⟨new⟩

/-- The number of nodes, those without a parent included. -/
def size (t : Tree) : Nat := t.nodes.size

/-- The node of a number. -/
def get? (t : Tree) (node : NodeId) : Option Node := t.nodes[node]?

/-! ## Building -/

/-- The number that the next new node gets. -/
def nextId (t : Tree) : NodeId := t.size

/-- Adds a node without links, under the number `nextId`. -/
def add (t : Tree) (content : NodeContent) : Tree := ⟨t.nodes.push (.detached content)⟩

/-- Changes one node. -/
def modify (t : Tree) (node : NodeId) (f : Node → Node) : Tree := ⟨t.nodes.modify node f⟩

/-- Appends a node to the children of another. Fails if either is not in the tree. -/
def append? (t : Tree) (parent child : NodeId) : Option Tree :=
  match t.get? parent with
  | none => none
  | some node =>
    if child < t.size then
      let linked := (t.modify parent fun n => { n with children := n.children ++ [child] }).modify
        child fun n => { n with parent := some parent }
      match node.children.getLast? with
      | none => some linked
      | some last =>
        some ((linked.modify last fun n => { n with nextSibling := some child }).modify
          child fun n => { n with prevSibling := some last })
    else none

/-! ## Reading -/

/-- The parent. -/
def parent (t : Tree) (node : NodeId) : Option NodeId := (t.get? node).bind (·.parent)

/-- The children, in order. -/
def children (t : Tree) (node : NodeId) : List NodeId := ((t.get? node).map (·.children)).getD []

/-- The first child. -/
def firstChild (t : Tree) (node : NodeId) : Option NodeId := (t.children node).head?

/-- The last child. -/
def lastChild (t : Tree) (node : NodeId) : Option NodeId := (t.children node).getLast?

/-- The next sibling. -/
def nextSibling (t : Tree) (node : NodeId) : Option NodeId := (t.get? node).bind (·.nextSibling)

/-- The previous sibling. -/
def prevSibling (t : Tree) (node : NodeId) : Option NodeId := (t.get? node).bind (·.prevSibling)

/-- The element, if the node is one. -/
def element? (t : Tree) (node : NodeId) : Option Element :=
  (t.get? node).bind fun n => match n.content with
    | .element e => some e
    | _ => none

/-- The text, if the node is one. -/
def text? (t : Tree) (node : NodeId) : Option String :=
  (t.get? node).bind fun n => match n.content with
    | .text s => some s
    | _ => none

/-- The first element among the children of the document. -/
def documentElement (t : Tree) : Option NodeId :=
  (t.children document).find? fun node => (t.element? node).isSome

/-- The links that walks follow. -/
def links (t : Tree) : Walk.Links := ⟨t.parent, t.firstChild, t.nextSibling⟩

/-- The ancestors, the nearest first. -/
def ancestors (t : Tree) (node : NodeId) : List NodeId := t.links.ancestors t.size node

/-- The nodes below `scope`, in tree order. -/
def descendants (t : Tree) (scope : NodeId) : List NodeId := t.links.descendants t.size scope

/-- Whether `node` lies below `ancestor`. -/
def isBelow (t : Tree) (node ancestor : NodeId) : Bool := (t.ancestors node).contains ancestor

/-- Whether the node is the document or lies below it. -/
def isConnected (t : Tree) (node : NodeId) : Bool :=
  node == document || t.isBelow node document

end Tree
end TreeQuery
