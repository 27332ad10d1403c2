import TreeQuery.Proofs.Match.Chain
import TreeQuery.Proofs.Search.Candidates
import TreeQuery.Proofs.Session.Reached

/-!
# Requests that are refused

A request is refused for a node that is not in the tree, and else for a text that is no selector list or has
too many conditions. Only what a text reads as is ever kept under it, so a text that is refused has no slot,
and looking it up moves none. A refused request leaves the session as it was.
-/

namespace TreeQuery

variable {σ : Type}

namespace Parser

variable {parser : Parser} {cache : Cache (List Selector)} {text : String}

/-- The caches that reading reaches from an empty one. The steps are those that nothing interrupts, so
readings that race for the cache are taken in too. -/
inductive Fills (parser : Parser) : Cache (List Selector) → Prop
  | empty (capacity : Option Nat) : Fills parser (.empty capacity)
  | lookUp {cache : Cache (List Selector)} (text : String) :
      Fills parser cache → Fills parser (cache.get text).2
  | commit {cache : Cache (List Selector)} {text : String} {list : List Selector} :
      Fills parser cache → Selector.read parser text = .ok list →
        Fills parser (cache.commit text list).2
  | clear {cache : Cache (List Selector)} : Fills parser cache → Fills parser cache.clear

theorem Fills.keeps (h : parser.Fills cache) : parser.Keeps cache := by
  induction h with
  | empty capacity => exact keeps_empty parser capacity
  | lookUp text _ ih => exact ih.get text
  | commit _ hread ih => exact (ih.commit hread).2
  | clear _ _ => exact fun slot hmem => absurd hmem List.not_mem_nil

/-- Reading through a cache looks the text up, and on a miss commits what it reads as. -/
theorem Fills.readCached (h : parser.Fills cache) (text : String) :
    parser.Fills (parser.readCached text cache).2 := by
  unfold Parser.readCached
  cases hfind : cache.find? text with
  | some slot =>
    rw [Cache.getOrInsert_of_find? hfind]
    exact h.lookUp text
  | none =>
    rw [Cache.getOrInsert_of_missing hfind]
    cases hread : Selector.read parser text with
    | error error => exact h
    | ok list => exact h.commit hread

end Parser

/-- The text that a request passes for its selector, with the nodes that it passes, in order. -/
inductive Request.Passes (text : String) : Request → List NodeId → Prop
  | query (scope : List NodeId) : Passes text (.query text scope) scope
  | queryOne (scope : List NodeId) : Passes text (.queryOne text scope) scope
  | test (node : NodeId) : Passes text (.test text node none) [node]
  | testFrom (node : NodeId) (origins : List NodeId) :
      Passes text (.test text node (some origins)) (node :: origins)
  | filter (nodes : List NodeId) : Passes text (.filter text nodes) nodes

theorem Request.Passes.checked {text : String} {request : Request} {nodes : List NodeId}
    (h : request.Passes text nodes) : request.checkedNodes = nodes ∧ request.selector? = some text := by
  cases h <;> exact ⟨rfl, rfl⟩

namespace Engine

variable {e : Engine σ} {s : Session σ} {request : Request} {text : String} {nodes : List NodeId}
  {node : NodeId}

/-- The cache of a session that requests reach is one that reading reaches. -/
theorem Reached.fills (h : e.Reached s) : e.parser.Fills s.cache := by
  induction h with
  | start capacity state => exact .empty capacity
  | perform request _ ih => exact cache_perform ih ih.clear ih.readCached
  | failAll list _ ih => exact ih

/-- The node is the first of a list that is not in the tree. -/
def FirstUnknown (e : Engine σ) (nodes : List NodeId) (node : NodeId) : Prop :=
  ∃ before after, nodes = before ++ node :: after ∧
    (∀ other ∈ before, e.scene.view.contains other = true) ∧ e.scene.view.contains node = false

theorem unknown?_eq_some_iff : e.unknown? nodes = some node ↔ e.FirstUnknown nodes node := by
  rw [unknown?, List.find?_eq_some_iff_append]
  simp only [Bool.not_eq_true', Bool.not_not, FirstUnknown]
  constructor
  · rintro ⟨hnode, before, after, heq, hbefore⟩
    exact ⟨before, after, heq, hbefore, hnode⟩
  · rintro ⟨before, after, heq, hbefore, hnode⟩
    exact ⟨hnode, before, after, heq, hbefore⟩

theorem FirstUnknown.unique {other : NodeId} (h : e.FirstUnknown nodes node)
    (hother : e.FirstUnknown nodes other) : node = other :=
  Option.some.inj ((unknown?_eq_some_iff.2 h).symm.trans (unknown?_eq_some_iff.2 hother))

theorem exists_firstUnknown_iff :
    (∃ node, e.FirstUnknown nodes node) ↔ ∃ node ∈ nodes, e.scene.view.contains node = false := by
  simp only [← unknown?_eq_some_iff, ← Option.isSome_iff_exists, unknown?, List.find?_isSome,
    Bool.not_eq_true']

theorem not_firstUnknown (hknown : ∀ other ∈ nodes, e.scene.view.contains other = true)
    (node : NodeId) : ¬ e.FirstUnknown nodes node := fun h => by
  obtain ⟨other, hmem, hother⟩ := exists_firstUnknown_iff.1 ⟨node, h⟩
  rw [hknown other hmem] at hother
  cases hother

/-- What a request with a text comes to: it is refused for a node, or for its text, or answered. -/
theorem perform_of_passes (h : e.parser.Keeps s.cache) (hpasses : request.Passes text nodes) :
    (∃ node, e.FirstUnknown nodes node ∧ e.perform request s = (.error (.unknownNode node), s)) ∨
    (∀ other ∈ nodes, e.scene.view.contains other = true) ∧
      ((∃ error, Selector.read e.parser text = .error error ∧
          e.perform request s = (.error error.toRequestError, s)) ∨
        ∃ list answer, Selector.read e.parser text = .ok list ∧
          (e.perform request s).1 = .ok answer) := by
  obtain ⟨hnodes, htext⟩ := hpasses.checked
  cases hunknown : e.unknown? nodes with
  | some node =>
    refine .inl ⟨node, unknown?_eq_some_iff.1 hunknown, ?_⟩
    rw [perform, hnodes, hunknown]
  | none =>
    refine .inr ⟨unknown?_eq_none_iff.1 hunknown, ?_⟩
    rw [← hnodes] at hunknown
    cases hread : Selector.read e.parser text with
    | error error => exact .inl ⟨error, rfl, perform_of_bad h hunknown htext hread⟩
    | ok list =>
      obtain ⟨parsed, -, hanswer⟩ := perform_of_read h hunknown htext hread
      exact .inr ⟨list, _, rfl, hanswer⟩

theorem toRequestError_ne_unknownNode (error : ReadError SyntaxError) :
    error.toRequestError ≠ .unknownNode node := by
  cases error <;> nofun

theorem toRequestError_inj {error other : ReadError SyntaxError} :
    error.toRequestError = other.toRequestError ↔ error = other := by
  cases error <;> cases other <;> simp [ReadError.toRequestError]

theorem perform_eq_unknownNode_iff (h : e.parser.Keeps s.cache) (hpasses : request.Passes text nodes)
    (node : NodeId) :
    (e.perform request s).1 = .error (.unknownNode node) ↔ e.FirstUnknown nodes node := by
  rcases perform_of_passes h hpasses with ⟨first, hfirst, heq⟩ | ⟨hknown, ⟨error, -, heq⟩ | ⟨_, _, -, heq⟩⟩
  · rw [heq]
    refine ⟨?_, fun hnode => by rw [hfirst.unique hnode]⟩
    rintro ⟨⟩
    exact hfirst
  · rw [heq]
    refine ⟨fun hnode => ?_, fun hnode => absurd hnode (not_firstUnknown hknown node)⟩
    exact absurd (Except.error.inj hnode) (toRequestError_ne_unknownNode error)
  · rw [heq]
    exact ⟨nofun, fun hnode => absurd hnode (not_firstUnknown hknown node)⟩

/-- A request is refused with the error of its text exactly if it passes no unknown node. -/
theorem perform_eq_toRequestError_iff (h : e.parser.Keeps s.cache) (hpasses : request.Passes text nodes)
    (error : ReadError SyntaxError) : (e.perform request s).1 = .error error.toRequestError ↔
      (∀ other ∈ nodes, e.scene.view.contains other = true) ∧
        Selector.read e.parser text = .error error := by
  rcases perform_of_passes h hpasses with
    ⟨first, hfirst, heq⟩ | ⟨hknown, ⟨found, hread, heq⟩ | ⟨list, _, hread, heq⟩⟩
  · rw [heq]
    refine ⟨fun herror => ?_, fun ⟨hknown, _⟩ => absurd hfirst (not_firstUnknown hknown first)⟩
    exact absurd (Except.error.inj herror).symm (toRequestError_ne_unknownNode error)
  · rw [heq, hread, Except.error.injEq, Except.error.injEq, toRequestError_inj]
    exact ⟨fun herror => ⟨hknown, herror⟩, fun herror => herror.2⟩
  · rw [heq, hread]
    exact ⟨nofun, nofun⟩

/-- A request that is refused changes nothing. -/
theorem perform_snd_of_error (h : e.parser.Keeps s.cache) (hpasses : request.Passes text nodes)
    {error : RequestError} (herror : (e.perform request s).1 = .error error) :
    (e.perform request s).2 = s := by
  rcases perform_of_passes h hpasses with ⟨_, -, heq⟩ | ⟨-, ⟨_, -, heq⟩ | ⟨_, _, -, heq⟩⟩
  · rw [heq]
  · rw [heq]
  · cases heq.symm.trans herror

/-- A request with a text is refused for a node if and only if it passes one that is not in the tree, and
then for the first one, whatever the text. Else it is refused for its text if and only if that is no
selector list, with the error of reading, and overflows if and only if reading does. If it is refused, the
session stays as it was, with each slot of its cache and their order. -/
theorem perform_refused (hfills : e.parser.Fills s.cache) (hpasses : request.Passes text nodes) :
    ((∃ node, (e.perform request s).1 = .error (.unknownNode node)) ↔
      ∃ node ∈ nodes, e.scene.view.contains node = false) ∧
    (∀ node, (e.perform request s).1 = .error (.unknownNode node) ↔ e.FirstUnknown nodes node) ∧
    (∀ error, (e.perform request s).1 = .error (.badSelector error) ↔
      (∀ other ∈ nodes, e.scene.view.contains other = true) ∧
        Selector.read e.parser text = .error (.malformed error)) ∧
    ((e.perform request s).1 = .error .overflow ↔
      (∀ other ∈ nodes, e.scene.view.contains other = true) ∧
        Selector.read e.parser text = .error .overflow) ∧
    ∀ error, (e.perform request s).1 = .error error → (e.perform request s).2 = s := by
  have hnode := perform_eq_unknownNode_iff hfills.keeps hpasses
  have herror := perform_eq_toRequestError_iff hfills.keeps hpasses
  refine ⟨?_, hnode, fun error => herror (.malformed error), herror .overflow,
    fun error => perform_snd_of_error hfills.keeps hpasses⟩
  rw [exists_congr hnode, exists_firstUnknown_iff]

/-- With a text that is no selector list, a test of two unknown nodes is refused for the first of them, and
a filter of known nodes for the text. The two lists that the session keeps stay in their order. -/
theorem perform_refused_listOfTwo :
    let e := Tree.listOfTwo.engine .standard .manual .silent (none : Option (Evaluator Unit))
    let s := (e.performAll [.query "li" [0], .query "ul" [0]] (.start (.empty (some 2)) ())).2
    e.parser.Fills s.cache ∧
      (Request.test "li:" 9 (some [8])).Passes "li:" [9, 8] ∧
      e.perform (.test "li:" 9 (some [8])) s = (.error (.unknownNode 9), s) ∧
      (Request.filter "li:" [1, 2]).Passes "li:" [1, 2] ∧
      e.perform (.filter "li:" [1, 2]) s = (.error (.badSelector ⟨.invalidPseudo, "li:"⟩), s) := by
  intro e s
  have hfills : e.parser.Fills s.cache := ((Reached.start (some 2) ()).performAll _).fills
  have hunknown := perform_refused hfills (.testFrom 9 [8] : (Request.test "li:" 9 (some [8])).Passes "li:" _)
  have hbad := perform_refused hfills (.filter [1, 2] : (Request.filter "li:" [1, 2]).Passes "li:" _)
  have hfirst : e.FirstUnknown [9, 8] 9 := ⟨[], [8], rfl, nofun, by decide +kernel⟩
  have hknown : ∀ other ∈ [1, 2], e.scene.view.contains other = true := by decide +kernel
  have hread : Selector.read .standard "li:" = .error (.malformed ⟨.invalidPseudo, "li:"⟩) := by
    with_unfolding_all rfl
  have herror := (hunknown.2.1 9).2 hfirst
  have herror' := (hbad.2.2.1 _).2 ⟨hknown, hread⟩
  exact ⟨hfills, .testFrom 9 [8], Prod.ext herror (hunknown.2.2.2.2 _ herror), .filter [1, 2],
    Prod.ext herror' (hbad.2.2.2.2 _ herror')⟩

end Engine
end TreeQuery
