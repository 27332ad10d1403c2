import TreeQuery.Host
import TreeQuery.Language
import TreeQuery.Location
import TreeQuery.Selector
import TreeQuery.View

/-!
# Matching

Whether a node satisfies a selector. A part is tested on one node. A chain of parts is satisfied by
a node if some nodes, related as the combinators say, satisfy the parts. With origins, the node of
the first part must also be related to one of them.

The pseudo-classes for relative positions compare a node with the siblings that are like it, that
is, satisfy the part without these pseudo-classes.
-/

namespace TreeQuery

/-- The end of the sibling list from which positions are counted. -/
inductive Direction where
  | forward
  | backward
  deriving DecidableEq, Repr, Inhabited

namespace View

/-- The elements among the children, in the order of counting. -/
def counted (v : View) (parent : NodeId) : Direction → List NodeId
  | .forward => v.elementChildren parent
  | .backward => v.elementChildrenBackward parent

/-- The elements beside a node in one direction, the nearest first. -/
def beside (v : View) (node : NodeId) : Direction → List NodeId
  | .forward => v.elementsAfter node
  | .backward => v.elementsBefore node

/-- The position of an index, which stays at the largest number of 32 bits. -/
def position (index : Nat) : Int32 := Int32.ofNat (min (index + 1) (Text.int32Bound - 1))

/-- Whether the position of the node is selected, among the elements with the same parent that
count. A node without a parent, or that does not count, has no position. -/
def isAt (v : View) (f : Formula) (direction : Direction) (counts : NodeId → Bool)
    (node : NodeId) : Bool :=
  (v.parent node).any fun parent =>
    (((v.counted parent direction).filter counts).idxOf? node).any fun index =>
      f.selects (position index)

/-- The nodes to which a combinator may relate a node, the nearest first. With no combinator, these
are the ancestors. -/
def relatives (v : View) (link : Option Combinator) (node : NodeId) : List NodeId :=
  match link.getD .descendant with
  | .descendant => v.ancestors node
  | .child => (v.parent node).toList
  | .nextSibling => (v.prevElementSibling node).toList
  | .subsequentSibling => v.elementsBefore node

/-- Whether two nodes are elements of one name. -/
def sameType (v : View) (node other : NodeId) : Bool :=
  (v.tag node).any (v.hasTag other)

/-- Whether no child is an element or a text. -/
def isEmpty (v : View) (node : NodeId) : Bool :=
  (v.children node).all fun child => v.kind child != .element && v.kind child != .text

/-- The target of a link element. -/
def linkTarget (v : View) (node : NodeId) : Option String :=
  if ["a", "area", "link"].any (v.hasTag node) then v.attr node "href" else none

end View

/-- A tree and its host: what selectors are evaluated against. -/
structure Scene where
  view : View
  host : Host

namespace Scene

/-- The element with the focus in the tree of a root. An element takes it only if it has a type or a
target. -/
def focusedElement (sc : Scene) (root : NodeId) : Option NodeId :=
  (sc.host.active root).filter fun node =>
    sc.host.focused && ((sc.view.attr node "type").isSome || (sc.view.attr node "href").isSome)

/-! ## Conditions on one node -/

/-- Whether a node satisfies a pseudo-class that does not compare it with like siblings. The test of
its selector list is `inList?`, when it has one. -/
def satisfies (sc : Scene) (pseudo : PseudoClass) (argument : Argument)
    (inList? : Option (NodeId → Bool)) (node : NodeId) : Bool :=
  let v := sc.view
  match pseudo with
  | .anyLink => (v.linkTarget node).isSome
  | .localLink => match argument with
    | .linkDepth depth => match v.linkTarget node, sc.host.location with
      | some target, some location => Location.isInside depth location target
      | _, _ => false
    | _ => false
  | .firstChild => (v.prevElementSibling node).isNone
  | .lastChild => (v.nextElementSibling node).isNone
  | .onlyChild => (v.prevElementSibling node).isNone && (v.nextElementSibling node).isNone
  | .nthChild => argument.formula?.any fun f => v.isAt f .forward (fun _ => true) node
  | .nthLastChild => argument.formula?.any fun f => v.isAt f .backward (fun _ => true) node
  | .firstOfType => !(v.beside node .backward).any (v.sameType node)
  | .lastOfType => !(v.beside node .forward).any (v.sameType node)
  | .onlyOfType =>
    !(v.beside node .backward).any (v.sameType node)
      && !(v.beside node .forward).any (v.sameType node)
  | .nthOfType => argument.formula?.any fun f => v.isAt f .forward (v.sameType node) node
  | .nthLastOfType => argument.formula?.any fun f => v.isAt f .backward (v.sameType node) node
  | .firstMatch | .lastMatch | .onlyMatch | .nthMatch | .nthLastMatch => true
  | .disabled => (v.attr node "disabled").isSome
  | .enabled => (v.attr node "disabled").isNone
  | .indeterminate => (v.attr node "indeterminate").isSome
  | .checked => (v.attr node "checked").isSome || (v.attr node "selected").isSome
  | .focus => sc.focusedElement (v.root node) == some node
  | .empty => v.isEmpty node
  | .not => !inList?.any (· node)
  | .matchesAny => inList?.any (· node)
  | .target => sc.host.namedFragment.any fun fragment => v.id node == some fragment
  | .root => v.documentElement (v.root node) == some node
  | .lang => argument.text?.any fun wanted =>
    (v.inheritedAttribute node "lang").any (isLanguage wanted)
  | .dir => argument.text?.any fun wanted =>
    Text.sameLetters ((v.inheritedAttribute node "dir").getD "ltr") wanted

/-- Whether a node satisfies a pseudo-class that compares it with like siblings. Other
pseudo-classes are none of its concern. -/
def compares (sc : Scene) (like : NodeId → Bool) (clause : PseudoClause) (node : NodeId) : Bool :=
  let v := sc.view
  let argument := clause.argument
  match clause.pseudo with
  | .firstMatch => argument.isRelative && !(v.beside node .backward).any like
  | .lastMatch => argument.isRelative && !(v.beside node .forward).any like
  | .onlyMatch =>
    argument.isRelative
      && !(v.beside node .backward).any like && !(v.beside node .forward).any like
  | .nthMatch =>
    argument.isRelative && argument.formula?.any fun f => v.isAt f .forward like node
  | .nthLastMatch =>
    argument.isRelative && argument.formula?.any fun f => v.isAt f .backward like node
  | _ => true

/-- Whether a chain may start at a node with this combinator. -/
def startsAt (sc : Scene) (origins : Option (List NodeId)) (link : Option Combinator)
    (node : NodeId) : Bool :=
  match origins with
  | none => true
  | some origins => (sc.view.relatives link node).any origins.contains

end Scene

mutual

/-- The test of a selector list as argument. -/
def Argument.inList? (sc : Scene) : Argument → Option (NodeId → Bool)
  | .nested list => some (Selector.anyAccepts sc none list)
  | _ => none

/-- Whether a node satisfies the condition, unless this compares it with like siblings. -/
def Clause.accepts (sc : Scene) : Clause → NodeId → Bool
  | .id name, node => sc.view.id node == some name.value
  | .hasClass name, node => sc.view.hasClass node name.value
  | .attribute name comparator operand ignoreCase, node =>
    (sc.view.attr node name.value).any
      (AttributeTest.mk name.value comparator operand ignoreCase).accepts
  | .pseudo ⟨pseudo, _, _, argument⟩, node =>
    sc.satisfies pseudo argument (argument.inList? sc) node

/-- Whether a node satisfies all the conditions that do not compare it with like siblings. -/
def Clause.allAccept (sc : Scene) : List Clause → NodeId → Bool
  | [], _ => true
  | clause :: rest, node => clause.accepts sc node && Clause.allAccept sc rest node

/-- Whether some node below satisfies the containment. -/
def Selector.acceptsBelow (sc : Scene) : Option Selector → NodeId → Bool
  | none, _ => true
  | some selector, node =>
    (sc.view.descendants node).any fun inner => selector.accepts sc (some [node]) inner

/-- Whether a node satisfies the part without the conditions that compare it with like siblings. -/
def Part.isLike (sc : Scene) : Part → NodeId → Bool
  | ⟨_, _, tag, clauses, containment⟩, node =>
    sc.view.isElement node && tag.all (fun name => sc.view.hasTag node name.value)
      && Clause.allAccept sc clauses node && Selector.acceptsBelow sc containment node

/-- Whether a node satisfies the last part of a chain, and its relatives the parts before. The first
part may stand where `before` allows. -/
def Part.chainAccepts (sc : Scene) (before : Option Combinator → NodeId → Bool) :
    List Part → NodeId → Bool
  | [], _ => false
  | part :: rest, node =>
    let here := fun n =>
      part.isLike sc n && part.pseudos.all (fun clause => sc.compares (part.isLike sc) clause n)
        && before part.combinator n
    match rest with
    | [] => here node
    | _ :: _ => Part.chainAccepts sc (fun link n => (sc.view.relatives link n).any here) rest node

/-- Whether a node satisfies the selector. With origins, the first part must be related to one of
them. -/
def Selector.accepts (sc : Scene) (origins : Option (List NodeId)) : Selector → NodeId → Bool
  | ⟨parts⟩, node => Part.chainAccepts sc (sc.startsAt origins) parts node

/-- Whether a node satisfies one of the selectors. -/
def Selector.anyAccepts (sc : Scene) (origins : Option (List NodeId)) :
    List Selector → NodeId → Bool
  | [], _ => false
  | selector :: rest, node =>
    selector.accepts sc origins node || Selector.anyAccepts sc origins rest node

end

/-- A list of conditions is satisfied when each of them is. -/
theorem Clause.allAccept_eq_all (sc : Scene) (clauses : List Clause) (node : NodeId) :
    Clause.allAccept sc clauses node = clauses.all (·.accepts sc node) := by
  induction clauses with
  | nil => rfl
  | cons clause rest ih => rw [Clause.allAccept, ih, List.all_cons]

/-- A list of selectors is satisfied when one of them is. -/
theorem Selector.anyAccepts_eq_any (sc : Scene) (origins : Option (List NodeId))
    (list : List Selector) (node : NodeId) :
    Selector.anyAccepts sc origins list node = list.any (·.accepts sc origins node) := by
  induction list with
  | nil => rfl
  | cons selector rest ih => rw [Selector.anyAccepts, ih, List.any_cons]

/-- Whether a node satisfies every condition of the part. -/
def Part.accepts (sc : Scene) (part : Part) (node : NodeId) : Bool :=
  part.isLike sc node && part.pseudos.all fun clause => sc.compares (part.isLike sc) clause node

/-! ## Shapes -/

/-- A pseudo-class that compares with like siblings does not count for being like. -/
theorem Scene.satisfies_of_isRelative (sc : Scene) {pseudo : PseudoClass}
    (h : pseudo.isRelative = true) (argument : Argument) (inList? : Option (NodeId → Bool))
    (node : NodeId) : sc.satisfies pseudo argument inList? node = true := by
  unfold Scene.satisfies
  split <;> simp_all [PseudoClass.isRelative]

/-- A condition that compares with like siblings does not count for being like. -/
theorem Clause.accepts_of_isRelative (sc : Scene) {clause : Clause} (h : clause.isRelative = true)
    (node : NodeId) : clause.accepts sc node = true := by
  cases clause with
  | pseudo c =>
    obtain ⟨pseudo, _, _, argument⟩ := c
    exact sc.satisfies_of_isRelative h argument _ node
  | _ => simp [Clause.isRelative, Clause.pseudo?] at h

/-- A pseudo-class that does not compare with like siblings leaves the comparison alone. -/
theorem Scene.compares_of_not_isRelative (sc : Scene) (like : NodeId → Bool)
    {clause : PseudoClause} (h : clause.pseudo.isRelative = false) (node : NodeId) :
    sc.compares like clause node = true := by
  unfold Scene.compares
  split <;> simp_all [PseudoClass.isRelative]

/-- A node is like an element of the part when it satisfies the shape of the part. -/
theorem Part.accepts_shape (sc : Scene) (part : Part) (node : NodeId) :
    part.shape.accepts sc node = part.isLike sc node := by
  have hlike : part.shape.isLike sc node = part.isLike sc node := by
    obtain ⟨combinator, subject, tag, clauses, containment⟩ := part
    simp only [Part.shape, Part.isLike, Clause.allAccept_eq_all, List.all_filter]
    congr 2
    refine List.all_congr rfl fun clause => ?_
    cases h : clause.isRelative
    · simp
    · simp [Clause.accepts_of_isRelative sc h]
  have hpseudos : ∀ clause ∈ part.shape.pseudos, clause.pseudo.isRelative = false := by
    intro clause hmem
    obtain ⟨c, hc, hcl⟩ := List.mem_filterMap.1 hmem
    have := (List.mem_filter.1 hc).2
    simpa [Clause.isRelative, hcl] using this
  rw [Part.accepts, hlike]
  have : (part.shape.pseudos.all fun clause =>
      sc.compares (part.shape.isLike sc) clause node) = true :=
    List.all_eq_true.2 fun clause h => sc.compares_of_not_isRelative _ (hpseudos clause h) node
  rw [this, Bool.and_true]

end TreeQuery
