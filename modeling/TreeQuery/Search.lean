import TreeQuery.Lookups
import TreeQuery.Match
import TreeQuery.Registry
import TreeQuery.Selector.Native

/-!
# Searching

A search lists the nodes below a scope that satisfy a selector. It asks the host first, if the host
has an evaluator and the selector is worth it, and never again once the host failed on the same
selector. Else it takes candidates from the lookup that promises the fewest, and tests them.

The host and the lookups can be watched, so a search keeps a journal of what it asked them.
-/

namespace TreeQuery

/-- The identity of a parsed selector: the serial number of its list, and the positions that lead
to it from there, one for each list that it is nested in. -/
structure SelectorKey where
  serial : Nat
  path : List Nat
  deriving DecidableEq, Repr, Inhabited

/-- The key of a selector in the list below this key. -/
def SelectorKey.branch (key : SelectorKey) (position : Nat) : SelectorKey :=
  { key with path := key.path ++ [position] }

/-- What a host evaluator does with one question: the nodes that it found, unless it failed, and the
lookups that it made in the same tree. -/
structure Reply where
  found : Option (List NodeId)
  lookups : List Lookup
  deriving DecidableEq, Repr, Inhabited

/-- A host evaluator for selector texts. Its answers may depend on all questions before, which is
what its state is for. -/
structure Evaluator (σ : Type) where
  answer : (scope : NodeId) → (text : String) → σ → Reply × σ

/-- A question to the host evaluator: for which selector it was asked, and the nodes that were found,
unless the evaluator failed. -/
structure HostCall where
  scope : NodeId
  text : String
  key : SelectorKey
  found : Option (List NodeId)
  deriving DecidableEq, Repr, Inhabited

/-- What was asked of the host and of the lookups. -/
structure Activity (σ : Type) where
  /-- The state of the host evaluator. -/
  state : σ
  /-- The selectors on which the host evaluator failed. -/
  failed : List SelectorKey
  /-- The questions to the host evaluator, in order. -/
  calls : List HostCall
  /-- The lookups, in order. -/
  lookups : List Lookup

namespace Activity

variable {σ : Type}

/-- Nothing was asked yet. -/
def start (state : σ) : Activity σ := ⟨state, [], [], []⟩

/-- Notes a lookup. -/
def note (lookup : Lookup) : StateM (Activity σ) Unit :=
  modify fun a => { a with lookups := a.lookups ++ [lookup] }

/-- Whether the host failed on the selector. -/
def hasFailed (a : Activity σ) (key : SelectorKey) : Bool := a.failed.contains key

/-- Remembers that the host failed on the selector. -/
def fail (a : Activity σ) (key : SelectorKey) : Activity σ :=
  { a with failed := key :: a.failed }

end Activity

/-- All that a search needs to know: how selectors are read, what the host can do, and the tree. -/
structure Engine (σ : Type) where
  registry : Registry
  profile : Profile
  scene : Scene
  lookups : Lookups
  evaluator : Option (Evaluator σ)

/-- A search, which writes the journal. -/
abbrev Search (σ : Type) := StateM (Activity σ)

namespace Engine

variable {σ : Type}

/-! ## The host -/

/-- Whether the host is to be asked for the selector at all. -/
def asksHost (e : Engine σ) (selector : Selector) : Bool :=
  e.profile.hasEvaluator && selector.usesNative e.profile

/-- Asks the host for the selector, unless it failed on it before. -/
def askHost (e : Engine σ) (key : SelectorKey) (selector : Selector) (scope : NodeId) :
    Search σ (Option (List NodeId)) := fun a =>
  match e.evaluator with
  | none => (none, a)
  | some evaluator =>
    if e.asksHost selector && !a.hasFailed key then
      let text := selector.native e.profile
      let (reply, state) := evaluator.answer scope text a.state
      let asked := { a with
        state
        calls := a.calls ++ [⟨scope, text, key, reply.found⟩]
        lookups := a.lookups ++ reply.lookups }
      (reply.found, if reply.found.isSome then asked else asked.fail key)
    else (none, a)

/-! ## Candidates -/

/-- What the last id in a selector leaves to be searched. -/
inductive Narrowing where
  /-- Nothing can be found. -/
  | nowhere
  /-- Only this node can be found. -/
  | only (node : NodeId)
  /-- The nodes below this one. -/
  | below (scope : NodeId)
  deriving DecidableEq, Repr

/-- The element of the last id must satisfy the selector up to there. The search goes on below it,
or below its parent when the next part is a sibling. -/
def narrowTo (e : Engine σ) (selector : Selector) (origins : List NodeId) (position : Nat)
    (element : Option NodeId) : Narrowing :=
  match element with
  | none => .nowhere
  | some element =>
    let upToId : Selector := ⟨selector.parts.take (position + 1)⟩
    if upToId.accepts e.scene (some origins) element then
      match selector.parts[position + 1]? with
      | none => .only element
      | some next => match next.combinator with
        | some .nextSibling | some .subsequentSibling =>
          match e.scene.view.parent element with
          | none => .nowhere
          | some parent => .below parent
        | _ => .below element
    else .nowhere

/-- Narrows the search by the last id of the selector, which only a tree with a document at its root
can look up. -/
def narrow (e : Engine σ) (selector : Selector) (root scope : NodeId) (origins : List NodeId) :
    Search σ Narrowing :=
  match if e.scene.view.kind root == .document then selector.lastId? else none with
  | none => pure (.below scope)
  | some (position, id) => do
    Activity.note (.byId root id)
    pure (e.narrowTo selector origins position (e.lookups.elementById root id))

/-- Lists the elements of a name below `scope`, or all elements. -/
def listByTag (e : Engine σ) (scope : NodeId) (name : Option String) : Search σ (List NodeId) := do
  Activity.note (.byTag scope name)
  pure (e.lookups.elementsByTag scope name)

/-- The candidates that a pseudo-class lists by itself. The search of its selector list is `inList`:
below a document it finds all that satisfies the list, but not with leading combinators, which
relate to the scope. -/
def listByPseudo (e : Engine σ) (getter : PseudoClause) (root scope : NodeId)
    (inList : NodeId → Search σ (List NodeId)) : Search σ (List NodeId) :=
  match getter.pseudo with
  | .focus => pure (e.scene.focusedElement root).toList
  | .target => match e.scene.host.namedFragment with
    | none => pure []
    | some fragment => do
      Activity.note (.byId root fragment)
      pure (e.lookups.elementById root fragment).toList
  | .root => pure (e.scene.view.documentElement root).toList
  | .matchesAny =>
    match getter.argument.nested? with
    | some list =>
      if e.scene.view.kind root == .document && !list.any Selector.hasLeadingCombinator then
        inList root
      else e.listByTag scope none
    | none => e.listByTag scope none
  | _ => e.listByTag scope none

/-- The candidates for the last part: from a pseudo-class that lists its own, else by class, by the
attribute `name` or by tag. -/
def listForPart (e : Engine σ) (part : Part) (root scope : NodeId)
    (inList : NodeId → Search σ (List NodeId)) : Search σ (List NodeId) :=
  match part.getter? e.profile with
  | some getter => e.listByPseudo getter root scope inList
  | none =>
    if e.profile.classLookup && !part.classes.isEmpty then do
      let classes := part.classes.map (·.value)
      Activity.note (.byClass scope classes)
      pure (e.lookups.elementsByClass scope classes)
    else match part.searchName? with
      | some name => do
        Activity.note (.byName root name)
        pure (e.lookups.elementsByName root name)
      | none => do
        let tag := part.tag.map (·.value)
        let listed ← e.listByTag scope tag
        if tag.isNone && e.profile.wildcardListsAll then
          pure (listed.filter e.scene.view.isElement)
        else pure listed

/-- Nodes that may satisfy the selector. -/
def candidates (e : Engine σ) (selector : Selector) (scope : NodeId) (origins : List NodeId)
    (inList : NodeId → Search σ (List NodeId)) : Search σ (List NodeId) :=
  match selector.lastPart? with
  | none => pure []
  | some part => do
    let root := e.scene.view.root scope
    match ← e.narrow selector root scope origins with
    | .nowhere => pure []
    | .only node => pure [node]
    | .below scope => e.listForPart part root scope inList

/-! ## Search -/

/-- Searches for one selector below `scope`. What the host finds counts as it is when there is one
origin and the host text says all; everything else is tested. -/
def searchOne (e : Engine σ) (key : SelectorKey) (selector : Selector) (scope : NodeId)
    (origins : List NodeId) (inList : NodeId → Search σ (List NodeId)) :
    Search σ (List NodeId) := do
  match ← e.askHost key selector scope with
  | some found =>
    if 1 < origins.length || !selector.isSupported e.profile then
      pure (found.filter (selector.accepts e.scene (some origins)))
    else pure found
  | none =>
    let listed ← e.candidates selector scope origins inList
    pure (listed.filter (selector.accepts e.scene (some origins)))

end Engine

mutual

/-- Searches for the selector list of an argument below `root`. -/
def Argument.search {σ : Type} (e : Engine σ) (key : SelectorKey) :
    Argument → NodeId → Search σ (List NodeId)
  | .nested list, root => do
    let found ← Selector.searchEach e key 0 list root [root]
    pure found.eraseDups
  | _, _ => pure []

/-- Searches for the selector list of the last condition that lists its own candidates. -/
def Clause.search {σ : Type} (e : Engine σ) (key : SelectorKey) :
    List Clause → NodeId → Search σ (List NodeId)
  | [], _ => pure []
  | clause :: rest, root =>
    if rest.any (·.listsCandidates e.profile) then Clause.search e key rest root
    else match clause with
      | .pseudo ⟨_, _, _, argument⟩ => argument.search e key root
      | _ => pure []

/-- Searches for the selector list by which the last part lists its candidates. -/
def Part.search {σ : Type} (e : Engine σ) (key : SelectorKey) :
    List Part → NodeId → Search σ (List NodeId)
  | [], _ => pure []
  | ⟨_, _, _, clauses, _⟩ :: rest, root =>
    match rest with
    | [] => Clause.search e key clauses root
    | _ :: _ => Part.search e key rest root

/-- Searches for one selector below `scope`. -/
def Selector.search {σ : Type} (e : Engine σ) (key : SelectorKey) :
    Selector → NodeId → List NodeId → Search σ (List NodeId)
  | ⟨parts⟩, scope, origins => e.searchOne key ⟨parts⟩ scope origins (Part.search e key parts)

/-- Searches for each selector of a list, from the one at `position` on. -/
def Selector.searchEach {σ : Type} (e : Engine σ) (key : SelectorKey) (position : Nat) :
    List Selector → NodeId → List NodeId → Search σ (List NodeId)
  | [], _, _ => pure []
  | selector :: rest, scope, origins => do
    let first ← selector.search e (key.branch position) scope origins
    let others ← Selector.searchEach e key (position + 1) rest scope origins
    pure (first ++ others)

end

namespace Engine

variable {σ : Type}

/-- The nodes of a scope at which a search can start. -/
def origins (e : Engine σ) (scope : List NodeId) : List NodeId :=
  scope.filter e.scene.view.isContainer

/-- Searches for a parsed list below the nodes of a scope. Each node is found once, those of an
earlier selector before those of a later one. With several nodes in the scope, the search starts at
the root of the first. -/
def select (e : Engine σ) (serial : Nat) (list : List Selector) (scope : List NodeId) :
    Search σ (List NodeId) :=
  match e.origins scope with
  | [] => pure []
  | first :: rest => do
    let start := if rest.isEmpty then first else e.scene.view.root first
    let found ← Selector.searchEach e ⟨serial, []⟩ 0 list start (first :: rest)
    pure found.eraseDups

end Engine
end TreeQuery
