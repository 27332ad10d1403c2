import TreeQuery.Proofs.Search.Lookups
import TreeQuery.Proofs.Session.Query

/-!
# Queries through an index

A tree may answer lookups from an index of its own, which may list more nodes than a scan does, in any
order. A query tests what it is given, and what passes the test lies below the scope, where the query
without the index finds it as well. So the index decides in which order a query finds its nodes, and about
nothing else.
-/

namespace TreeQuery

variable {σ : Type} {t : Tree} {registry : Registry} {profile : Profile} {host : Host}
  {lookups : Lookups} {s s' : Session σ} {text : String} {list : List Selector} {scope node : NodeId}

/-- Only elements satisfy a selector. -/
theorem Tree.Linked.isElement_of_accepts (h : t.Linked) {selector : Selector}
    {origins : Option (List NodeId)}
    (haccepts : selector.accepts ⟨t.view, host⟩ origins node = true) : t.view.isElement node = true := by
  obtain ⟨parts⟩ := selector
  obtain ⟨place, hrow, hne, rfl, -⟩ := (Selector.accepts_iff_row h origins).1 haccepts
  have := List.length_pos_iff.2 hne
  exact hrow.isElement (by omega)

namespace Engine

/-- A search through an index that lists what a scan does returns every match below its scope. -/
theorem select_complete_of_covers (serial : Nat) (h : t.Linked) (hids : t.UniqueIds)
    (hcovers : lookups.Covers t.view t.view.scanLookups) (hscope : t.view.isContainer scope = true)
    (habove : t.Above scope node)
    (haccepts : Selector.anyAccepts ⟨t.view, host⟩ (some [scope]) list node = true) :
    Search.Ensures (((t.engine registry profile host none : Engine σ).withLookups lookups).select serial
      list [scope]) (node ∈ ·) := by
  have hscan : Search.Ensures ((t.engine registry profile host none : Engine σ).select serial list
      [scope]) (node ∈ ·) := select_complete serial h hids
    (fun _ _ _ _ root => hostComplete_of_none rfl t _ root [root]) hscope habove haccepts
  rw [Selector.anyAccepts_eq_any, List.any_eq_true] at haccepts
  obtain ⟨selector, -, haccepts⟩ := haccepts
  exact fun activity => select_within rfl hcovers serial serial list [scope] activity activity node
    (hscan activity) (h.isElement_of_accepts haccepts)

/-- A query without an evaluator finds the same nodes through every index that lists at least the elements
that a scan finds, whatever else it lists, in whatever sessions the two queries are asked. -/
theorem query_through_index (ht : t.Built) (hids : t.UniqueIds)
    (hcovers : lookups.Covers t.view t.view.scanLookups)
    (hread : Selector.read ⟨registry, profile⟩ text = .ok list)
    (hbeside : ∀ selector ∈ list, selector.startsBeside = false)
    (hscope : t.view.isContainer scope = true)
    (hs : ((t.engine registry profile host none).withLookups lookups).Reached s)
    (hs' : (t.engine registry profile host none).Reached s') :
    ∃ found found', (((t.engine registry profile host none).withLookups lookups).perform
        (.query text [scope]) s).1 = .ok (.nodes found) ∧
      ((t.engine registry profile host none).perform (.query text [scope]) s').1 =
        .ok (.nodes found') ∧ found.Perm found' := by
  have hlinked := ht.linked
  obtain ⟨found, hquery, hnodup, hmem⟩ := hs.query_mem_iff_of_complete rfl hlinked hread hbeside hscope
    (fun _ _ => hostSound_of_none rfl _ scope [scope])
    (fun serial _ => select_complete_of_covers serial hlinked hids hcovers hscope)
  obtain ⟨found', hquery', hnodup', hmem'⟩ := hs'.query_mem_iff hlinked hids hread hbeside hscope
    (fun _ _ _ _ root => hostComplete_of_none rfl t _ root [root])
    (fun _ _ => hostSound_of_none rfl _ scope [scope])
  refine ⟨found, found', hquery, hquery', ?_⟩
  rw [List.perm_ext_iff_of_nodup hnodup hnodup']
  exact fun node => (hmem node).trans (hmem' node).symm

end Engine

/-- An index that answers each lookup below a node with this node and, twice, all nodes below it. -/
def View.looseLookups (v : View) : Lookups where
  elementById := v.elementById
  elementsByTag scope _ := scope :: (v.descendants scope).reverse ++ v.descendants scope
  elementsByClass scope _ := scope :: (v.descendants scope).reverse ++ v.descendants scope
  elementsByName root _ := root :: (v.descendants root).reverse ++ v.descendants root

/-- Such an index lists what a scan does. -/
theorem View.covers_looseLookups (v : View) : v.looseLookups.Covers v v.scanLookups where
  elementById := rfl
  elementsByTag _ _ _ hmem _ := List.mem_append_right _ (List.mem_filter.1 hmem).1
  elementsByClass _ _ _ hmem _ := List.mem_append_right _ (List.mem_filter.1 hmem).1
  elementsByName _ _ _ hmem _ := List.mem_append_right _ (List.mem_filter.1 hmem).1

namespace Engine

/-- Through the index that lists everything twice, the second item of a list is found as by a scan. -/
theorem query_through_index_listOfTwo :
    Tree.listOfTwo.Built ∧ Tree.listOfTwo.UniqueIds ∧
      Tree.listOfTwo.view.looseLookups.Covers Tree.listOfTwo.view Tree.listOfTwo.view.scanLookups ∧
      Selector.read .standard "#top > li + li" = .ok [Selector.secondItem] ∧
      Selector.secondItem.startsBeside = false ∧ Tree.listOfTwo.view.isContainer 0 = true ∧
      ∃ found found', (((Tree.listOfTwo.engine .standard .manual .silent none).withLookups
            Tree.listOfTwo.view.looseLookups).perform
          (.query "#top > li + li" [0]) (.start (.empty none) ())).1 = .ok (.nodes found) ∧
        ((Tree.listOfTwo.engine .standard .manual .silent none).perform
          (.query "#top > li + li" [0]) (.start (.empty none) ())).1 = .ok (.nodes found') ∧
        found.Perm found' := by
  have hids : Tree.listOfTwo.UniqueIds := by decide +kernel
  have hcovers := Tree.listOfTwo.view.covers_looseLookups
  have hread : Selector.read .standard "#top > li + li" = .ok [Selector.secondItem] := by
    with_unfolding_all rfl
  have hbeside : Selector.secondItem.startsBeside = false := rfl
  have hscope : Tree.listOfTwo.view.isContainer 0 = true := by decide +kernel
  have hs := Reached.start (e := (Tree.listOfTwo.engine .standard .manual .silent none).withLookups
    Tree.listOfTwo.view.looseLookups) none ()
  have hs' := Reached.start (e := Tree.listOfTwo.engine .standard .manual .silent none) none ()
  refine ⟨Tree.built_listOfTwo, hids, hcovers, hread, hbeside, hscope, ?_⟩
  refine query_through_index Tree.built_listOfTwo hids hcovers hread (fun selector hmem => ?_) hscope
    hs hs'
  rw [List.mem_singleton.1 hmem]
  exact hbeside

end Engine
end TreeQuery
