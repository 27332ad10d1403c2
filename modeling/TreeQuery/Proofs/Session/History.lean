import TreeQuery.Proofs.Search.Agreement
import TreeQuery.Proofs.Session.Failure
import TreeQuery.Proofs.Session.Profiles

/-!
# Sessions without a memory

A session keeps what it read, in an order that depends on every request, and tells one reading from the
next by serial numbers. Without an evaluator nothing of this shows in an answer: whatever was asked before,
kept, given up or cleared, a request is answered as if it were the first.
-/

namespace TreeQuery.Engine

variable {σ : Type} {e : Engine σ} {s s' : Session σ}

/-- Without an evaluator, a request has one answer for all readings of its text. -/
theorem answer_agrees (h : e.evaluator = none) {list list' : ParsedList} (hlist : list.value = list'.value)
    (request : Request) : Search.Agrees (e.answer list request) (e.answer list' request) := by
  have hselect : ∀ scope, Search.Agrees (e.select list.serial list.value scope)
      (e.select list'.serial list'.value scope) := fun scope => by
    rw [hlist]
    exact select_agrees h _ _ _ (.refl scope) rfl
  cases request with
  | query text scope | select text scope =>
    exact (hselect scope).bind fun found => Search.agrees_pure _
  | queryOne text scope => exact (hselect scope).bind fun found => Search.agrees_pure _
  | test | testList | filter | filterList | parse | clear =>
    intro a b
    simp only [answer, hlist]
    rfl

/-- Without an evaluator, a request has one answer in all sessions that requests reach. -/
theorem perform_agrees (h : e.evaluator = none) (hs : e.Reached s) (hs' : e.Reached s')
    (request : Request) : (e.perform request s).1 = (e.perform request s').1 :=
  hs.perform_congr hs' rfl (fun _ _ => rfl) fun _ _ hlist => answer_agrees h hlist request

/-- Without an evaluator, no request marks a selector. -/
theorem hasFailed_performAll (h : e.evaluator = none) (requests : List Request) (s : Session σ)
    (key : SelectorKey) :
    (e.performAll requests s).2.activity.hasFailed key = s.activity.hasFailed key := by
  obtain ⟨made, hjournal, hsome, -⟩ := useAll_traced (e := e) id (requests.map .request) s
  rw [useAll_request] at hjournal
  rw [Bool.eq_iff_iff, hjournal.hasFailed_iff]
  refine or_iff_left ?_
  rintro ⟨call, hmem, -⟩
  have hcontra := hsome call hmem
  rw [h] at hcontra
  cases hcontra

/-- Without an evaluator, requests in order are answered as each of them is by a session of its own. No
selector is marked, so lists that were read do not differ in this either. -/
theorem performAll_eq_map (h : e.evaluator = none) (capacity capacity' : Option Nat) (state state' : σ)
    (requests : List Request) :
    (e.performAll requests (.start (.empty capacity) state)).1 =
        requests.map (fun request => (e.perform request (.start (.empty capacity') state')).1) ∧
      ∀ key, (e.performAll requests (.start (.empty capacity) state)).2.activity.hasFailed key = false := by
  have hfresh := Reached.start (e := e) capacity' state'
  have hrun : ∀ s, e.Reached s → (e.performAll requests s).1 =
      requests.map fun request => (e.perform request (.start (.empty capacity') state')).1 := by
    induction requests with
    | nil => exact fun _ _ => rfl
    | cons request rest ih =>
      intro s hs
      rw [List.map_cons, ← perform_agrees h hs hfresh request, ← ih _ (hs.perform request)]
      rfl
  exact ⟨hrun _ (.start capacity state), fun key => hasFailed_performAll h requests _ key⟩

/-- Two texts that mean the same, with a text that is no selector and clearing among them. -/
def requestsForItems : List Request :=
  [.query "li" [0], .query " li" [0], .query "li" [0], .parse "li:", .clear, .queryOne "li" [0]]

/-- In a cache of one list the texts push each other out, and the queries for them are answered alike. -/
theorem performAll_eq_map_listOfTwo :
    (Tree.listOfTwo.engine .standard .manual .silent (none : Option (Evaluator Unit))).evaluator = none ∧
      ((Tree.listOfTwo.engine .standard .manual .silent none).performAll requestsForItems
        (.start (.empty (some 1)) ())).1 =
      requestsForItems.map fun request => ((Tree.listOfTwo.engine .standard .manual .silent none).perform
        request (.start (.empty (some 1)) ())).1 :=
  ⟨rfl, (performAll_eq_map rfl (some 1) (some 1) () () requestsForItems).1⟩

end TreeQuery.Engine
