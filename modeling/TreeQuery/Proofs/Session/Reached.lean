import TreeQuery.Proofs.Cache.Slots
import TreeQuery.Session

/-!
# Sessions that requests reach

The cache of a session keeps selector lists that were read earlier. In every session that requests
reach, a kept list is what its text reads as. So the answer to a request is the answer for the list
that its text reads as, whatever was asked before.
-/

namespace TreeQuery

variable {σ : Type}

namespace Parser

variable {parser : Parser} {cache : Cache (List Selector)} {text : String}

/-- Each kept list is what its text reads as. -/
def Keeps (parser : Parser) (cache : Cache (List Selector)) : Prop :=
  ∀ slot ∈ cache.slots, Selector.read parser slot.key = .ok slot.value

theorem keeps_empty (parser : Parser) (capacity : Option Nat) :
    parser.Keeps (.empty capacity) := fun _ hmem => absurd hmem List.not_mem_nil

theorem Keeps.get (h : parser.Keeps cache) (text : String) :
    parser.Keeps (cache.get text).2 := fun slot hmem => h slot (Cache.mem_slots_of_get hmem)

theorem Keeps.put {list : List Selector} (h : parser.Keeps cache)
    (hread : Selector.read parser text = .ok list) : parser.Keeps (cache.put text list).2 := by
  intro slot hmem
  rcases Cache.mem_slots_of_put hmem with rfl | hold
  · exact hread
  · exact h slot hold

/-- What is committed is what the text reads as, also when the slot of another commit counts. -/
theorem Keeps.commit {list : List Selector} (h : parser.Keeps cache)
    (hread : Selector.read parser text = .ok list) :
    (cache.commit text list).1.value = list ∧ parser.Keeps (cache.commit text list).2 := by
  have hget := h.get text
  unfold Cache.commit
  split
  · next slot next heq =>
    obtain ⟨hmem, rfl⟩ := Cache.mem_slots_of_get_eq_some (congrArg Prod.fst heq)
    rw [heq] at hget
    exact ⟨Except.ok.inj ((h slot hmem).symm.trans hread), hget⟩
  · next next heq =>
    rw [heq] at hget
    exact ⟨rfl, hget.put hread⟩

/-- Reading through the cache gives what reading gives, and keeps only what reading gives. -/
theorem Keeps.readCached (h : parser.Keeps cache) (text : String) :
    (parser.readCached text cache).1.map (·.value) = Selector.read parser text ∧
      parser.Keeps (parser.readCached text cache).2 := by
  have hget := h.get text
  unfold Parser.readCached Cache.getOrInsert
  split
  · next slot next heq =>
    obtain ⟨hmem, rfl⟩ := Cache.mem_slots_of_get_eq_some (congrArg Prod.fst heq)
    rw [heq] at hget
    exact ⟨(h slot hmem).symm, hget⟩
  · next next heq =>
    rw [heq] at hget
    cases hread : Selector.read parser text with
    | error error => exact ⟨rfl, hget⟩
    | ok list =>
      have hcommit := hget.commit hread
      exact ⟨congrArg Except.ok hcommit.1, hcommit.2⟩

/-- A text that is no selector list has no slot. Reading it through the cache moves none and keeps none. -/
theorem Keeps.readCached_of_bad (h : parser.Keeps cache) {error : ReadError SyntaxError}
    (hread : Selector.read parser text = .error error) :
    parser.readCached text cache = (.error error, cache) := by
  have hfind : cache.find? text = none := by
    rw [Option.eq_none_iff_forall_ne_some]
    intro slot hslot
    obtain ⟨hmem, rfl⟩ := Cache.mem_of_find? hslot
    cases (h slot hmem).symm.trans hread
  unfold Parser.readCached
  rw [Cache.getOrInsert_of_missing hfind, hread]

end Parser

namespace Engine

variable {e : Engine σ} {s : Session σ} {request : Request} {text : String} {list : List Selector}

/-- The sessions that requests reach from an empty cache. Between requests, the selectors of a list may
be marked as ones on which the host failed. -/
inductive Reached (e : Engine σ) : Session σ → Prop
  | start (capacity : Option Nat) (state : σ) : Reached e (.start (.empty capacity) state)
  | perform {s : Session σ} (request : Request) : Reached e s → Reached e (e.perform request s).2
  | failAll {s : Session σ} (list : ParsedList) : Reached e s → Reached e (s.failAll list)

/-- A request leaves the cache alone, clears it or reads a text through it. -/
theorem cache_perform {P : Cache (List Selector) → Prop} (hsame : P s.cache) (hclear : P s.cache.clear)
    (hread : ∀ text, P (e.parser.readCached text s.cache).2) : P (e.perform request s).2.cache := by
  unfold Engine.perform
  split
  · exact hsame
  · split
    · exact hclear
    · next text _ =>
      have htext := hread text
      split
      · next heq => rwa [heq] at htext
      · next heq => rwa [heq] at htext

/-- A request keeps only lists that are what their text reads as. -/
theorem keeps_perform (h : e.parser.Keeps s.cache) :
    e.parser.Keeps (e.perform request s).2.cache :=
  cache_perform h (fun _ hmem => absurd hmem List.not_mem_nil) fun text => (h.readCached text).2

/-- In every session that requests reach, a kept list is what its text reads as. -/
theorem Reached.keeps (h : e.Reached s) : e.parser.Keeps s.cache := by
  induction h with
  | start capacity state => exact Parser.keeps_empty _ _
  | perform request _ ih => exact keeps_perform ih
  | failAll list _ ih => exact ih

/-- Requests in order reach a session from one that is reached. -/
theorem Reached.performAll (h : e.Reached s) (requests : List Request) :
    e.Reached (e.performAll requests s).2 := by
  induction requests generalizing s with
  | nil => exact h
  | cons request rest ih => exact ih (h.perform request)

/-- A request about known nodes is answered for the list that its text reads as. -/
theorem perform_of_read (h : e.parser.Keeps s.cache) (hknown : e.unknown? request.checkedNodes = none)
    (htext : request.selector? = some text) (hread : Selector.read e.parser text = .ok list) :
    ∃ parsed : ParsedList, parsed.value = list ∧
      (e.perform request s).1 = .ok (e.answer parsed request s.activity).1 := by
  have hcached := (h.readCached text).1
  rw [hread] at hcached
  unfold Engine.perform
  rw [hknown, htext]
  dsimp only
  cases heq : e.parser.readCached text s.cache with
  | mk outcome cache =>
    rw [heq] at hcached
    cases outcome with
    | error error => cases hcached
    | ok parsed => exact ⟨parsed, Except.ok.inj hcached, rfl⟩

/-- A request about known nodes whose text is no selector list is refused with the error of reading, and
leaves the session as it was. -/
theorem perform_of_bad (h : e.parser.Keeps s.cache) {error : ReadError SyntaxError}
    (hknown : e.unknown? request.checkedNodes = none) (htext : request.selector? = some text)
    (hread : Selector.read e.parser text = .error error) :
    e.perform request s = (.error error.toRequestError, s) := by
  unfold Engine.perform
  rw [hknown, htext]
  dsimp only
  rw [h.readCached_of_bad hread]

theorem unknown?_eq_none_iff {nodes : List NodeId} :
    e.unknown? nodes = none ↔ ∀ node ∈ nodes, e.scene.view.contains node = true := by
  simp only [unknown?, List.find?_eq_none, Bool.not_eq_true', Bool.not_eq_false]

/-- A test is answered by the test of the list. -/
theorem Reached.perform_test (h : e.Reached s) {node : NodeId} {origins : Option (List NodeId)}
    (hnode : e.scene.view.contains node = true)
    (horigins : ∀ list, origins = some list → ∀ origin ∈ list, e.scene.view.contains origin = true)
    (hread : Selector.read e.parser text = .ok list) :
    (e.perform (.test text node origins) s).1 = .ok (.truth (e.accepts list origins node)) := by
  have hknown : e.unknown? (Request.test text node origins).checkedNodes = none := by
    refine unknown?_eq_none_iff.2 fun other hmem => ?_
    rcases List.mem_cons.1 hmem with rfl | hmem
    · exact hnode
    · cases origins with
      | none => cases hmem
      | some list => exact horigins list rfl other hmem
  obtain ⟨parsed, rfl, heq⟩ := perform_of_read h.keeps hknown rfl hread
  exact heq

/-- A query is answered by the search for the list. -/
theorem Reached.perform_query (h : e.Reached s) {scope : List NodeId}
    (hscope : ∀ node ∈ scope, e.scene.view.contains node = true)
    (hread : Selector.read e.parser text = .ok list) :
    ∃ serial, (e.perform (.query text scope) s).1 =
      .ok (.nodes (e.select serial list scope s.activity).1) := by
  have hknown : e.unknown? (Request.query text scope).checkedNodes = none :=
    unknown?_eq_none_iff.2 hscope
  obtain ⟨parsed, rfl, heq⟩ := perform_of_read h.keeps hknown rfl hread
  exact ⟨parsed.serial, heq⟩

end Engine
end TreeQuery
