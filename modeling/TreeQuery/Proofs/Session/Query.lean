import TreeQuery.Proofs.Search.Exact
import TreeQuery.Proofs.Session.Reached

/-!
# Queries and tests

A query lists the nodes below its scope that a test with this scope as the origin accepts, for every
selector list that does not lead to siblings of the scope. The query looks for candidates in several
places and the test walks from one node, so nothing in their definitions makes them agree.
-/

namespace TreeQuery

/-- The nodes of an answer that lists some. -/
def Answer.nodes? : Answer → Option (List NodeId)
  | .nodes found => some found
  | _ => none

variable {σ : Type} {t : Tree} {registry : Registry} {profile : Profile} {host : Host}
  {evaluator : Option (Evaluator σ)} {s s' : Session σ} {text : String} {list : List Selector}
  {scope node : NodeId}

/-- A node with a kind that is searched is in the tree. -/
theorem Tree.contains_of_isContainer (h : t.view.isContainer scope = true) :
    t.view.contains scope = true := by
  show (t.get? scope).isSome = true
  cases hget : t.get? scope with
  | none => simp [View.isContainer, view, hget] at h
  | some => rfl

/-- A node below another one is in the tree. -/
theorem Tree.contains_of_above (habove : t.Above scope node) :
    t.view.contains node = true := by
  obtain ⟨p, hp, -⟩ := Above.iff_parent.1 habove
  show (t.get? node).isSome = true
  cases hget : t.get? node with
  | none => exact absurd (lt_size_of_parent hp) (Nat.not_lt.2 (get?_eq_none.1 hget))
  | some => rfl

/-- A node above another one is in the tree. -/
theorem Tree.Linked.contains_above (h : t.Linked) (habove : t.Above scope node) :
    t.view.contains scope = true := by
  obtain ⟨child, hchild, -⟩ := Above.iff_head.1 habove
  show (t.get? scope).isSome = true
  cases hget : t.get? scope with
  | none => exact absurd (h.parent_lt_size hchild) (Nat.not_lt.2 (get?_eq_none.1 hget))
  | some => rfl

namespace Engine

/-- If a search returns every match below its scope, the query finds the nodes below its scope that satisfy
one of the selectors, each once. -/
theorem Reached.query_mem_iff_of_complete {e : Engine σ} (hs : e.Reached s)
    (hscene : e.scene = ⟨t.view, host⟩) (ht : t.Linked) (hread : Selector.read e.parser text = .ok list)
    (hbeside : ∀ selector ∈ list, selector.startsBeside = false)
    (hscope : t.view.isContainer scope = true)
    (hsound : ∀ selector ∈ list, e.HostSound selector scope [scope])
    (hcomplete : ∀ serial node, t.Above scope node →
      Selector.anyAccepts ⟨t.view, host⟩ (some [scope]) list node = true →
        Search.Ensures (e.select serial list [scope]) (node ∈ ·)) :
    ∃ found, (e.perform (.query text [scope]) s).1 = .ok (.nodes found) ∧ found.Nodup ∧
      ∀ node, node ∈ found ↔
        t.Above scope node ∧ Selector.anyAccepts ⟨t.view, host⟩ (some [scope]) list node = true := by
  have hcontains : ∀ other ∈ [scope], e.scene.view.contains other = true := by
    intro other hmem
    rw [List.mem_singleton.1 hmem, hscene]
    exact Tree.contains_of_isContainer hscope
  obtain ⟨serial, hquery⟩ := hs.perform_query hcontains hread
  have horigins : e.origins [scope] = [scope] := by
    rw [Engine.origins, hscene]
    exact List.filter_cons_of_pos hscope
  have hhost : ∀ start, e.origins [scope] = [start] →
      ∀ selector ∈ list, e.HostSound selector start [start] := by
    intro start hstart
    obtain rfl : scope = start := by simpa [horigins] using hstart
    exact hsound
  have hfound := select_sound serial hhost s.activity
  rw [horigins, hscene] at hfound
  refine ⟨_, hquery, hfound.1, fun node => ⟨fun hmem => ?_, fun hnode => ?_⟩⟩
  · obtain ⟨selector, hselector, haccepts⟩ := hfound.2 node hmem
    obtain ⟨origin, horigin, habove⟩ := ht.above_of_accepts (hbeside selector hselector) haccepts
    obtain rfl := List.mem_singleton.1 horigin
    refine ⟨habove, ?_⟩
    rw [Selector.anyAccepts_eq_any, List.any_eq_true]
    exact ⟨selector, hselector, haccepts⟩
  · exact hcomplete serial node hnode.1 hnode.2 s.activity

/-- A query finds the nodes below its scope that satisfy one of the selectors, each once. -/
theorem Reached.query_mem_iff (hs : (t.engine registry profile host evaluator).Reached s)
    (ht : t.Linked) (hids : t.UniqueIds) (hread : Selector.read ⟨registry, profile⟩ text = .ok list)
    (hbeside : ∀ selector ∈ list, selector.startsBeside = false)
    (hscope : t.view.isContainer scope = true)
    (hcomplete : ∀ selector ∈ list, ∀ inner,
      Relation.ReflTransGen (Selector.Draws profile) selector inner →
        ∀ root, (t.engine registry profile host evaluator).HostComplete t inner root [root])
    (hsound : ∀ selector ∈ list,
      (t.engine registry profile host evaluator).HostSound selector scope [scope]) :
    ∃ found, ((t.engine registry profile host evaluator).perform (.query text [scope]) s).1 =
      .ok (.nodes found) ∧ found.Nodup ∧ ∀ node, node ∈ found ↔
        t.Above scope node ∧ Selector.anyAccepts ⟨t.view, host⟩ (some [scope]) list node = true :=
  hs.query_mem_iff_of_complete rfl ht hread hbeside hscope hsound fun serial _ habove haccepts =>
    select_complete serial ht hids hcomplete hscope habove haccepts

/-- Without an evaluator a query finds exactly the nodes below its scope that a test accepts, each
once, in whatever sessions the two are asked. -/
theorem query_agrees_with_test (ht : t.Built) (hids : t.UniqueIds)
    (hread : Selector.read ⟨registry, profile⟩ text = .ok list)
    (hbeside : ∀ selector ∈ list, selector.startsBeside = false)
    (hscope : t.view.isContainer scope = true)
    (hs : (t.engine registry profile host none).Reached s)
    (hs' : (t.engine registry profile host none).Reached s') :
    ∃ found, ((t.engine registry profile host none).perform (.query text [scope]) s).1 =
      .ok (.nodes found) ∧ found.Nodup ∧ ∀ node, node ∈ found ↔ node ∈ t.descendants scope ∧
        ((t.engine registry profile host none).perform (.test text node (some [scope])) s').1 =
          .ok (.truth true) := by
  have hlinked := ht.linked
  obtain ⟨found, hquery, hnodup, hmem⟩ := hs.query_mem_iff hlinked hids hread hbeside hscope
    (fun _ _ _ _ root => hostComplete_of_none rfl t _ root [root])
    (fun _ _ => hostSound_of_none rfl _ scope [scope])
  refine ⟨found, hquery, hnodup, fun node => ?_⟩
  rw [hmem, hlinked.mem_descendants]
  refine and_congr_right fun habove => ?_
  have horigins : ∀ list, some [scope] = some list → ∀ origin ∈ list,
      t.view.contains origin = true := by
    rintro list ⟨⟩ origin horigin
    rw [List.mem_singleton.1 horigin]
    exact Tree.contains_of_isContainer hscope
  have hanswer := hs'.perform_test (Tree.contains_of_above habove) horigins hread
  rw [hanswer, Except.ok.injEq, Answer.truth.injEq]
  rfl

/-- The second item of a list is all that the query for it finds, and all that a test accepts. -/
theorem query_agrees_with_test_listOfTwo :
    Tree.listOfTwo.Built ∧ Tree.listOfTwo.UniqueIds ∧
      Selector.read .standard "#top > li + li" = .ok [Selector.secondItem] ∧
      Selector.secondItem.startsBeside = false ∧ Tree.listOfTwo.view.isContainer 0 = true ∧
      ∃ found, ((Tree.listOfTwo.engine .standard .manual .silent none).perform
          (.query "#top > li + li" [0]) (.start (.empty none) ())).1 = .ok (.nodes found) ∧
        found.Nodup ∧ ∀ node, node ∈ found ↔ node ∈ Tree.listOfTwo.descendants 0 ∧
          ((Tree.listOfTwo.engine .standard .manual .silent none).perform
            (.test "#top > li + li" node (some [0])) (.start (.empty none) ())).1 =
              .ok (.truth true) := by
  have hids : Tree.listOfTwo.UniqueIds := by decide +kernel
  have hread : Selector.read .standard "#top > li + li" = .ok [Selector.secondItem] := by
    with_unfolding_all rfl
  have hbeside : Selector.secondItem.startsBeside = false := rfl
  have hscope : Tree.listOfTwo.view.isContainer 0 = true := by decide +kernel
  have hstart := Reached.start (e := Tree.listOfTwo.engine .standard .manual .silent none) none ()
  refine ⟨Tree.built_listOfTwo, hids, hread, hbeside, hscope, ?_⟩
  refine query_agrees_with_test Tree.built_listOfTwo hids hread (fun selector hmem => ?_) hscope hstart
    hstart
  rw [List.mem_singleton.1 hmem]
  exact hbeside

end Engine
end TreeQuery
