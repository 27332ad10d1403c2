import TreeQuery.View

/-!
# Candidate lookups

A tree may keep indexes for finding elements by id, name, class or the attribute `name`. A query
asks them for its candidates. A tree without indexes answers by a scan.
-/

namespace TreeQuery

/-- One question for candidates. -/
inductive Lookup where
  | byId (root : NodeId) (id : String)
  /-- With no name, the question is for all elements. -/
  | byTag (scope : NodeId) (name : Option String)
  | byClass (scope : NodeId) (classes : List String)
  /-- The name is the value of the attribute `name`. -/
  | byName (root : NodeId) (name : String)
  deriving DecidableEq, Repr, Inhabited

/-- The indexes of a tree. -/
structure Lookups where
  /-- An element of this id below `root`. -/
  elementById : (root : NodeId) → (id : String) → Option NodeId
  /-- The elements of this name below `scope`, and with no name all elements. -/
  elementsByTag : (scope : NodeId) → (name : Option String) → List NodeId
  /-- The elements below `scope` that have all these classes. -/
  elementsByClass : (scope : NodeId) → (classes : List String) → List NodeId
  /-- The elements below `root` whose attribute `name` has this value. -/
  elementsByName : (root : NodeId) → (name : String) → List NodeId

namespace View

/-- The first element below `root` of an id. -/
def elementById (v : View) (root : NodeId) (id : String) : Option NodeId :=
  (v.descendants root).find? fun node => v.isElement node && v.id node == some id

/-- The nodes below `scope` with a name, and with this one if there is one given. -/
def elementsByTag (v : View) (scope : NodeId) (name : Option String) : List NodeId :=
  (v.descendants scope).filter fun node =>
    match name with
    | some name => v.hasTag node name
    | none => (v.tag node).isSome

/-- The elements below `scope` that have all these classes. -/
def elementsByClass (v : View) (scope : NodeId) (classes : List String) : List NodeId :=
  (v.descendants scope).filter fun node => v.isElement node && classes.all (v.hasClass node)

/-- The elements below `root` whose attribute `name` has this value. -/
def elementsByName (v : View) (root : NodeId) (name : String) : List NodeId :=
  (v.descendants root).filter fun node => v.isElement node && v.attr node "name" == some name

/-- Answers every lookup by a scan of the tree. -/
def scanLookups (v : View) : Lookups :=
  ⟨v.elementById, v.elementsByTag, v.elementsByClass, v.elementsByName⟩

/-- Answers by a scan, and lists all nodes when all elements are asked for. -/
def wildcardLookups (v : View) : Lookups :=
  { v.scanLookups with
    elementsByTag := fun scope name =>
      if name.isSome then v.elementsByTag scope name else v.descendants scope }

end View
end TreeQuery
