import TreeQuery.Cache
import TreeQuery.Search
import TreeQuery.Selector.Reader

/-!
# Sessions

A session answers requests about one tree, one after the other. It keeps the selector lists that it
read in a cache, and remembers on which selectors the host failed. Each request is checked for
unknown nodes before its selector is read, and a request that fails changes nothing.
-/

namespace TreeQuery

/-- Why a request cannot be answered. -/
inductive RequestError where
  /-- The text is not a selector list. -/
  | badSelector (error : SyntaxError)
  /-- A part of the text has too many conditions to be counted. -/
  | overflow
  /-- The node is not in the tree. -/
  | unknownNode (node : NodeId)
  deriving DecidableEq, Repr, Inhabited

/-- The wording of the error. -/
def RequestError.message : RequestError → String
  | badSelector error => error.message
  | overflow => "attempt to add with overflow"
  | unknownNode node => "node NodeId(" ++ toString node ++ ") does not belong to the queried tree"

/-- The error of a request whose selector cannot be read. -/
def ReadError.toRequestError : ReadError SyntaxError → RequestError
  | malformed error => .badSelector error
  | overflow => .overflow

/-- A request to a session. -/
inductive Request where
  /-- All nodes below the scope that satisfy the selector. -/
  | query (selector : String) (scope : List NodeId)
  /-- The first of these nodes. -/
  | queryOne (selector : String) (scope : List NodeId)
  /-- Whether a node satisfies the selector, relative to the origins if there are any. -/
  | test (selector : String) (node : NodeId) (origins : Option (List NodeId))
  /-- The nodes of a list that satisfy the selector. -/
  | filter (selector : String) (nodes : List NodeId)
  /-- Like a query, without a check of the nodes. -/
  | select (selector : String) (scope : List NodeId)
  /-- Like a test, without a check of the nodes. -/
  | testList (selector : String) (node : NodeId) (origins : Option (List NodeId))
  /-- Like a filter, relative to the origins if there are any, without a check of the nodes. -/
  | filterList (selector : String) (nodes : List NodeId) (origins : Option (List NodeId))
  /-- Reads the selector and nothing else. -/
  | parse (selector : String)
  /-- Empties the cache. -/
  | clear
  deriving DecidableEq, Repr, Inhabited

namespace Request

/-- The nodes that must be in the tree, in the order of their check. -/
def checkedNodes : Request → List NodeId
  | query _ scope | queryOne _ scope => scope
  | test _ node origins => node :: origins.getD []
  | filter _ nodes => nodes
  | _ => []

/-- The selector that is read, if any. -/
def selector? : Request → Option String
  | query s _ | queryOne s _ | test s _ _ | filter s _ | select s _ | testList s _ _
  | filterList s _ _ | parse s => some s
  | clear => none

end Request

/-- The answer to a request. -/
inductive Answer where
  | nodes (found : List NodeId)
  | first (found : Option NodeId)
  | truth (holds : Bool)
  | parsed (list : List Selector)
  | done
  deriving Inhabited

/-- The state of a session. -/
structure Session (σ : Type) where
  cache : Cache (List Selector)
  activity : Activity σ

/-- A selector list in the cache, of which the identity is known. -/
abbrev ParsedList := Slot (List Selector)

namespace Session

variable {σ : Type}

/-- The state before the first request, with an empty cache. -/
def start (cache : Cache (List Selector)) (state : σ) : Session σ := ⟨cache, .start state⟩

/-- The keys of the selectors of a list. -/
def keys (list : ParsedList) : List SelectorKey :=
  (List.range list.value.length).map fun position => ⟨list.serial, [position]⟩

/-- Whether the host failed on each selector of a list. -/
def failures (s : Session σ) (list : ParsedList) : List Bool :=
  (keys list).map s.activity.hasFailed

/-- Lets every selector of a list count as one on which the host failed. -/
def failAll (s : Session σ) (list : ParsedList) : Session σ :=
  { s with activity := (keys list).foldl Activity.fail s.activity }

end Session

/-- Reads a selector list through a cache. -/
def Parser.readCached (parser : Parser) (text : String) (cache : Cache (List Selector)) :
    Except (ReadError SyntaxError) ParsedList × Cache (List Selector) :=
  cache.getOrInsert text fun cache => (Selector.read parser text, cache)

namespace Engine

variable {σ : Type}

/-- What the engine reads selectors with. -/
def parser (e : Engine σ) : Parser := ⟨e.registry, e.profile⟩

/-- The first node of a list that is not in the tree. -/
def unknown? (e : Engine σ) (nodes : List NodeId) : Option NodeId :=
  nodes.find? fun node => !e.scene.view.contains node

/-- Whether a node satisfies one of the selectors of a list. -/
def accepts (e : Engine σ) (list : List Selector) (origins : Option (List NodeId))
    (node : NodeId) : Bool := Selector.anyAccepts e.scene origins list node

/-- Answers a request whose selector is read. -/
def answer (e : Engine σ) (list : ParsedList) : Request → Search σ Answer
  | .query _ scope | .select _ scope => do
    pure (.nodes (← e.select list.serial list.value scope))
  | .queryOne _ scope => do
    pure (.first (← e.select list.serial list.value scope).head?)
  | .test _ node origins | .testList _ node origins =>
    pure (.truth (e.accepts list.value origins node))
  | .filter _ nodes => pure (.nodes (nodes.filter (e.accepts list.value none)))
  | .filterList _ nodes origins => pure (.nodes (nodes.filter (e.accepts list.value origins)))
  | .parse _ => pure (.parsed list.value)
  | .clear => pure .done

/-- Answers a request. -/
def perform (e : Engine σ) (request : Request) (s : Session σ) :
    Except RequestError Answer × Session σ :=
  match e.unknown? request.checkedNodes with
  | some node => (.error (.unknownNode node), s)
  | none =>
    match request.selector? with
    | none => (.ok .done, { s with cache := s.cache.clear })
    | some text =>
      match e.parser.readCached text s.cache with
      | (.error error, cache) => (.error error.toRequestError, { s with cache })
      | (.ok list, cache) =>
        let (answer, activity) := e.answer list request s.activity
        (.ok answer, ⟨cache, activity⟩)

/-- Answers requests in order. -/
def performAll (e : Engine σ) : List Request → Session σ →
    List (Except RequestError Answer) × Session σ
  | [], s => ([], s)
  | request :: rest, s =>
    let (first, s) := e.perform request s
    let (others, s) := e.performAll rest s
    (first :: others, s)

/-- The elements of a list of nodes. -/
def filterElements (e : Engine σ) (nodes : List NodeId) : List NodeId :=
  nodes.filter e.scene.view.isElement

/-- The engine as the host evaluator of another one. It fails where its query has an error. -/
def asEvaluator (e : Engine σ) : Evaluator (Session σ) where
  answer scope text s :=
    let quiet := { s with activity := { s.activity with lookups := [] } }
    let (outcome, s) := e.perform (.query text [scope]) quiet
    let found := match outcome with
      | .ok (.nodes found) => some found
      | _ => none
    (⟨found, s.activity.lookups⟩, s)

end Engine
end TreeQuery
